import Rome.Proofs.MemoryResource

/-!
# Freed blocks and their alignment

`do_deallocate` takes the slab class of the bytes it is given, `do_allocate` that of the bytes
raised to the alignment. They are the same from 33 bytes on: such a block goes back to the list that
the next request of its size looks into, and a smaller one never does. A block is carved at the
aligned head less its bytes, so it has the alignment when its bytes are a multiple of it.
-/

namespace Rome

open Machine

/-! ## The lists of a thread -/

/-- The lists of a thread that frees with an alignment of 64 bytes. -/
structure ListsInv (t : FreeLists) : Prop where
  alignments : t.alignments.length = kNumSlabClasses
  freelists : t.freelists.length = kNumSlabClasses
  entry : ∀ l ∈ t.freelists, ∀ x ∈ l, x.1 = 64

theorem listsInv_init : ListsInv FreeLists.init := by
  refine ⟨by simp [FreeLists.init], by simp [FreeLists.init], fun l hl x hx => ?_⟩
  rw [FreeLists.init, List.mem_replicate] at hl
  simp [hl.2] at hx

theorem takeFirst_mem {alignment ptr : ℕ} {last : Bool} {l l' : List (ℕ × ℕ)}
    (h : takeFirst alignment l = some (ptr, l', last)) :
    (∀ x ∈ l', x ∈ l) ∧ ∃ a, alignment ≤ a ∧ (a, ptr) ∈ l := by
  obtain ⟨pre, a, post, rfl, rfl, -, h1, -⟩ := takeFirst_split h
  refine ⟨fun x hx => ?_, a, h1, List.mem_append_right _ List.mem_cons_self⟩
  rcases List.mem_append.1 hx with hx | hx
  · exact List.mem_append_left _ hx
  · exact List.mem_append_right _ (List.mem_cons_of_mem _ hx)

/-- The block that is taken from a freelist, and what is left. -/
theorem reuse_spec {t t' : FreeLists} {idx alignment ptr : ℕ}
    (h : reuse t idx alignment = some (ptr, t')) :
    t'.alignments.length = t.alignments.length ∧ t'.freelists.length = t.freelists.length
      ∧ (∀ l ∈ t'.freelists, ∀ x ∈ l, ∃ l₀ ∈ t.freelists, x ∈ l₀)
      ∧ ∃ l ∈ t.freelists, ∃ a, alignment ≤ a ∧ (a, ptr) ∈ l := by
  unfold reuse at h
  split_ifs at h
  obtain ⟨⟨p, l, last⟩, h1, h2⟩ := Option.map_eq_some_iff.1 h
  simp only [Prod.mk.injEq] at h2
  obtain ⟨rfl, rfl⟩ := h2
  obtain ⟨h3, a, h4, h5⟩ := takeFirst_mem h1
  have hidx : t.freelists.getD idx [] ∈ t.freelists := by
    by_cases hlt : idx < t.freelists.length
    · rw [List.getD_eq_getElem _ _ hlt]
      exact List.getElem_mem hlt
    · rw [List.getD_eq_default _ _ (not_lt.1 hlt)] at h5
      simp at h5
  refine ⟨by split_ifs <;> simp, by simp, fun l' hl' x hx => ?_, _, hidx, a, h4, h5⟩
  rcases List.mem_or_eq_of_mem_set hl' with hl' | rfl
  · exact ⟨l', hl', hx⟩
  · exact ⟨_, hidx, h3 x hx⟩

/-- What a freed block adds to the lists. -/
theorem doDeallocate_entry {t : FreeLists} {ptr bytes alignment : ℕ} {l : List (ℕ × ℕ)}
    (hl : l ∈ (doDeallocate t ptr bytes alignment).freelists) {x : ℕ × ℕ} (hx : x ∈ l) :
    x = (alignment, ptr) ∨ ∃ l₀ ∈ t.freelists, x ∈ l₀ := by
  obtain ⟨i, hi, rfl⟩ := List.mem_iff_getElem.1 hl
  simp only [doDeallocate, List.length_modify] at hi
  simp only [doDeallocate, List.getElem_modify] at hx
  split_ifs at hx
  · rcases List.mem_append.1 hx with hx | hx
    · exact .inr ⟨_, List.getElem_mem hi, hx⟩
    · exact .inl (List.mem_singleton.1 hx)
  · exact .inr ⟨_, List.getElem_mem hi, hx⟩

/-! ## Reuse -/

theorem ListsInv.step {s s' : ThreadState} (H : ListsInv s.lists) {e : ResourceEvent}
    (hs : threadStep s e = some s') : ListsInv s'.lists := by
  cases e with
  | construct raw capacity =>
    obtain rfl := Option.some.inj hs
    exact ⟨by simp [FreeLists.clear], H.freelists, H.entry⟩
  | alloc i bytes =>
    obtain ⟨r, -, ⟨ptr, t, mem, hr, rfl⟩ | ⟨ptr, r', -, rfl⟩ | rfl⟩ := threadStep_alloc hs
    · obtain ⟨h1, h2, h3, -⟩ := reuse_spec hr
      refine ⟨h1.trans H.alignments, h2.trans H.freelists, fun l hl x hx => ?_⟩
      obtain ⟨l₀, hl₀, hx₀⟩ := h3 l hl x hx
      exact H.entry l₀ hl₀ x hx₀
    · exact H
    · exact H
  | free b =>
    unfold threadStep at hs
    simp only [] at hs
    split_ifs at hs
    obtain rfl := Option.some.inj hs
    refine ⟨by simp [doDeallocate, H.alignments], by simp [doDeallocate, H.freelists],
      fun l hl x hx => ?_⟩
    rcases doDeallocate_entry hl hx with rfl | ⟨l₀, hl₀, hx₀⟩
    · rfl
    · exact H.entry l₀ hl₀ x hx₀

/-- From 33 bytes on, raising the bytes to 64 leaves the slab class as it is. -/
theorem slabClass_atLeast {bytes : ℕ} (h : 32 < bytes) :
    slabClass (atLeast bytes 64) = slabClass bytes := by
  unfold atLeast
  split_ifs with h64
  · have hall : ∀ n : Fin 64, 32 < n.val → slabClass 64 = slabClass n.val := by decide +kernel
    exact hall ⟨bytes, h64⟩ h
  · rfl

theorem or_and_64 (a : UInt8) : (a ||| (64 : ℕ).toUInt8).toNat &&& 64 ≠ 0 := by
  have hall : ∀ n : Fin 256, (UInt8.ofNat n.val ||| (64 : ℕ).toUInt8).toNat &&& 64 ≠ 0 := by
    decide +kernel
  have ha := hall ⟨a.toNat, a.toNat_lt⟩
  rwa [show UInt8.ofNat a.toNat = a from UInt8.ofNat_toNat] at ha

/-- The list of the slab class of a freed block has a block for the next request of its bytes. -/
theorem ListsInv.reuse_isSome {t : FreeLists} (H : ListsInv t) {ptr bytes : ℕ} (h1 : 32 < bytes)
    (h2 : bytes ≤ 2 ^ 20) :
    (reuse (doDeallocate t ptr bytes 64) (slabClass (atLeast bytes 64) - kMinSlabClass) 64).isSome
      := by
  have hidx := (slabClass_spec (show 1 ≤ bytes by omega) h2).1
  rw [slabClass_atLeast h1]
  have ha : slabClass bytes - kMinSlabClass < t.alignments.length := by rwa [H.alignments]
  have hf : slabClass bytes - kMinSlabClass < t.freelists.length := by rwa [H.freelists]
  have hbit : ((doDeallocate t ptr bytes 64).alignments.getD (slabClass bytes - kMinSlabClass)
      0).toNat &&& 64 ≠ 0 := by
    rw [List.getD_eq_getElem _ _ (by simpa [doDeallocate] using ha)]
    simp only [doDeallocate, List.getElem_modify, if_true]
    exact or_and_64 _
  have hlist : (doDeallocate t ptr bytes 64).freelists.getD (slabClass bytes - kMinSlabClass) []
      = t.freelists[slabClass bytes - kMinSlabClass] ++ [(64, ptr)] := by
    rw [List.getD_eq_getElem _ _ (by simpa [doDeallocate] using hf)]
    simp only [doDeallocate, List.getElem_modify, if_true]
  unfold reuse
  rw [if_pos hbit, hlist, Option.isSome_map]
  rcases hl : t.freelists[slabClass bytes - kMinSlabClass] with _ | ⟨x, l⟩
  · simp [takeFirst]
  · have hx := H.entry _ (List.getElem_mem hf) x (by rw [hl]; exact List.mem_cons_self)
    simp [takeFirst, hx]

/-- `deallocate(p, n)` of the block `b`, then `allocate(n)` from the resource `j`: it is served from
a freelist, with the block `b'`, and every head stays. -/
def Reuses (s : ThreadState) (b : Block) (j : ℕ) (s' : ThreadState) (b' : Block) : Prop :=
  ∃ s₁, threadStep s (.free b) = some s₁
    ∧ (reuse s₁.lists (slabClass (atLeast b.bytes 64) - kMinSlabClass) 64).isSome
    ∧ threadStep s₁ (.alloc j b.bytes) = some s' ∧ s'.resources = s.resources
    ∧ b' ∈ s'.live ∧ b'.res = j ∧ b'.bytes = b.bytes

/-- `deallocate` and `allocate` of one size, `m` times on one resource. -/
def Cycles : ℕ → ThreadState → Block → ThreadState → Prop
  | 0, s, _, s' => s' = s
  | m + 1, s, b, s' => ∃ s₁ b₁, Reuses s b b.res s₁ b₁ ∧ Cycles m s₁ b₁ s'

/-- In whatever state a thread is, freed memory of `bytes` bytes is reusable. -/
def Reusable (bytes : ℕ) : Prop :=
  ∀ mem es s, run threadStep (threadInit mem) es = some s → ∀ b ∈ s.live, b.bytes = bytes →
    (∀ j < s.resources.length, ∃ s' b', Reuses s b j s' b')
      ∧ ∀ m, ∃ s', Cycles m s b s' ∧ s'.resources = s.resources

section Reuse

variable {s : ThreadState} {b : Block}

theorem ListsInv.reuses (H : ListsInv s.lists) (hb : b ∈ s.live) (h1 : 32 < b.bytes)
    (h2 : b.bytes ≤ 2 ^ 20) {j : ℕ} (hj : j < s.resources.length) :
    ∃ s' b', Reuses s b j s' b' ∧ ListsInv s'.lists := by
  have hfree : threadStep s (.free b) = some { s with
      lists := doDeallocate s.lists b.ptr b.bytes 64
      live := s.live.erase b } := by
    simp only [threadStep]
    rw [if_pos ⟨hb, by omega⟩]
  have hsome : (reuse (doDeallocate s.lists b.ptr b.bytes 64)
      (slabClass (atLeast b.bytes 64) - kMinSlabClass) 64).isSome := H.reuse_isSome h1 h2
  obtain ⟨⟨ptr, t⟩, hr⟩ := Option.isSome_iff_exists.1 hsome
  obtain ⟨-, h3, h4⟩ := atLeast_spec (show 1 ≤ b.bytes by omega) h2
  have halloc : threadStep { s with
      lists := doDeallocate s.lists b.ptr b.bytes 64
      live := s.live.erase b } (.alloc j b.bytes) = some ⟨s.resources, t,
        s.mem.zero ptr (1 <<< slabClass (atLeast b.bytes 64)), ⟨j, ptr, b.bytes⟩ :: s.live.erase b,
        s.carved⟩ := by
    simp only [threadStep, List.getElem?_eq_getElem hj, if_pos h2, doAllocate]
    rw [if_pos ⟨(slabClass_spec (show 1 ≤ atLeast b.bytes 64 by omega) h4).1, by decide,
      checked_of_reuse hr⟩]
    simp only [hr, if_true, List.set_getElem_self]
  exact ⟨_, _, ⟨_, hfree, hsome, halloc, rfl, List.mem_cons_self, rfl, rfl⟩,
    (H.step hfree).step halloc⟩

theorem ListsInv.cycles (H : ListsInv s.lists) (hb : b ∈ s.live) (h1 : 32 < b.bytes)
    (h2 : b.bytes ≤ 2 ^ 20) (hj : b.res < s.resources.length) (m : ℕ) :
    ∃ s', Cycles m s b s' ∧ s'.resources = s.resources := by
  induction m generalizing s b with
  | zero => exact ⟨s, rfl, rfl⟩
  | succ m ih =>
    obtain ⟨s₁, b₁, hre, H₁⟩ := H.reuses hb h1 h2 hj
    have ⟨_, _, _, _, hres, hmem, hj₁, hbytes⟩ := hre
    obtain ⟨s', hc, hs'⟩ := ih H₁ hmem (by omega) (by omega) (by rw [hj₁, hres]; exact hj)
    exact ⟨s', ⟨s₁, b₁, hre, hc⟩, hs'.trans hres⟩

/-- A block in use came from one of the resources. -/
theorem threadStep_res {s s' : ThreadState} {e : ResourceEvent}
    (H : ∀ b ∈ s.live, b.res < s.resources.length) (hs : threadStep s e = some s') :
    ∀ b ∈ s'.live, b.res < s'.resources.length := by
  cases e with
  | construct raw capacity =>
    obtain rfl := Option.some.inj hs
    intro b hb
    have := H b hb
    simp only [List.length_append]
    omega
  | alloc i bytes =>
    obtain ⟨r, hi, ⟨ptr, t, mem, -, rfl⟩ | ⟨ptr, r', -, rfl⟩ | rfl⟩ := threadStep_alloc hs
    · intro b hb
      rcases List.mem_cons.1 hb with rfl | hb
      · exact (List.getElem?_eq_some_iff.1 hi).1
      · exact H b hb
    · intro b hb
      rw [List.length_set]
      rcases List.mem_cons.1 hb with rfl | hb
      · exact (List.getElem?_eq_some_iff.1 hi).1
      · exact H b hb
    · exact H
  | free b =>
    unfold threadStep at hs
    simp only [] at hs
    split_ifs at hs
    obtain rfl := Option.some.inj hs
    exact fun x hx => H x (List.mem_of_mem_erase hx)

end Reuse

/-- A resource is made over `capacity` bytes, and a block is allocated. -/
def smallRun (capacity bytes : ℕ) : List ResourceEvent :=
  [.construct (2 ^ 21) capacity, .alloc 0 bytes]

/-- Up to 32 bytes, the block that is freed goes into a list that no request looks into. -/
theorem smallRun_lost {bytes : ℕ} (h1 : 1 ≤ bytes) (h2 : bytes ≤ 32) : ∃ s,
    run threadStep (threadInit fun _ => 0) (smallRun 64 bytes) = some s
      ∧ s.live = [⟨0, 2 ^ 21, bytes⟩] ∧ s.resources.length = 1
      ∧ ∀ s₁, threadStep s (.free ⟨0, 2 ^ 21, bytes⟩) = some s₁ →
        reuse s₁.lists (slabClass (atLeast bytes 64) - kMinSlabClass) 64 = none := by
  have hall : ∀ n : Fin 33, 1 ≤ n.val →
      ((run threadStep (threadInit fun _ => 0) (smallRun 64 n)).bind fun s =>
        (threadStep s (.free ⟨0, 2 ^ 21, n⟩)).map fun s₁ => (s.live, s.resources.length,
          (reuse s₁.lists (slabClass (atLeast n 64) - kMinSlabClass) 64).isNone))
        = some ([⟨0, 2 ^ 21, n⟩], 1, true) := by
    decide +kernel
  obtain ⟨s, hs, h3⟩ := Option.bind_eq_some_iff.1 (hall ⟨bytes, by omega⟩ h1)
  obtain ⟨s₁, hs₁, h4⟩ := Option.map_eq_some_iff.1 h3
  simp only [Prod.mk.injEq, Option.isNone_iff_eq_none] at h4
  refine ⟨s, hs, h4.1, h4.2.1, fun s₂ hs₂ => ?_⟩
  rw [hs₁, Option.some.injEq] at hs₂
  rw [← hs₂]
  exact h4.2.2

theorem not_reusable {bytes : ℕ} (h1 : 1 ≤ bytes) (h2 : bytes ≤ 32) : ¬ Reusable bytes := by
  intro H
  obtain ⟨s, hs, hlive, hlen, hnone⟩ := smallRun_lost h1 h2
  obtain ⟨s', b', s₁, hs₁, hsome, -⟩ := (H _ _ s hs ⟨0, 2 ^ 21, bytes⟩
    (by rw [hlive]; exact List.mem_singleton_self _) rfl).1 0 (by omega)
  rw [hnone s₁ hs₁] at hsome
  cases hsome

/-- Freed memory is reusable from 33 bytes on. -/
theorem freed_reusable (bytes : ℕ) (h1 : 1 ≤ bytes) (h2 : bytes ≤ 2 ^ 20) :
    Reusable bytes ↔ 32 < bytes := by
  constructor
  · intro H
    by_contra hle
    exact not_reusable h1 (not_lt.1 hle) H
  · intro h mem es s hs b hb hbytes
    subst hbytes
    have hlists : ListsInv s.lists :=
      run_inv' (I := fun s => ListsInv s.lists) (fun _ _ _ H hs => H.step hs) hs listsInv_init
    have hres : ∀ b ∈ s.live, b.res < s.resources.length :=
      run_inv' (I := fun s => ∀ b ∈ s.live, b.res < s.resources.length)
        (fun _ _ _ H hs => threadStep_res H hs) hs (by simp [threadInit])
    refine ⟨fun j hj => ?_, hlists.cycles hb h h2 (hres b hb)⟩
    obtain ⟨s', b', hre, -⟩ := hlists.reuses hb h h2 hj
    exact ⟨s', b', hre⟩

theorem freed_reusable_block : Reusable 64 ↔ 32 < 64 :=
  freed_reusable 64 (by decide) (by decide)

/-- A word is allocated and freed, and its region is exhausted. -/
theorem smallRun_exhausted : ¬ Reusable 8 ∧ ∃ s, run threadStep (threadInit fun _ => 0)
    (smallRun 64 8 ++ [.free ⟨0, 2 ^ 21, 8⟩, .alloc 0 8]) = some s ∧ s.live = [] := by
  refine ⟨not_reusable (by decide) (by decide), ?_⟩
  exact Option.map_eq_some_iff.1 (show (run threadStep (threadInit fun _ => 0)
    (smallRun 64 8 ++ [.free ⟨0, 2 ^ 21, 8⟩, .alloc 0 8])).map (·.live) = some [] by
      decide +kernel)

/-! ## Alignment -/

theorem dvd_of_le {a b : ℕ} (ha : a ∣ kMaxAlignment) (hb : b ∣ kMaxAlignment) (h : a ≤ b) :
    a ∣ b := by
  have hk : kMaxAlignment = 2 ^ 8 := rfl
  rw [hk, Nat.dvd_prime_pow Nat.prime_two] at ha hb
  obtain ⟨i, -, rfl⟩ := ha
  obtain ⟨j, -, rfl⟩ := hb
  exact pow_dvd_pow 2 ((Nat.pow_le_pow_iff_right (by decide)).1 h)

/-- A block that is carved has the alignment when its bytes are a multiple of it. -/
theorem carve_aligned {r r' : Resource} {bytes alignment ptr : ℕ}
    (h : carve r bytes alignment = some (ptr, r')) : alignment ∣ ptr ↔ alignment ∣ bytes := by
  unfold carve at h
  simp only [] at h
  split_ifs at h with hlt
  simp only [Option.some.injEq, Prod.mk.injEq] at h
  obtain ⟨hptr, -⟩ := h
  have hdown : alignment ∣ alignDown r.head alignment := Nat.dvd_sub_mod r.head
  have hsum : ptr + bytes = alignDown r.head alignment := by omega
  rw [← hsum] at hdown
  exact ⟨fun h => (Nat.dvd_add_right h).1 hdown, fun h => (Nat.dvd_add_left h).1 hdown⟩

/-- A request that no freelist serves is for a multiple of its alignment, once it is raised to
that. -/
def Multiple (t : FreeLists) (bytes alignment : ℕ) : Prop :=
  reuse t (slabClass (atLeast bytes alignment) - kMinSlabClass) alignment = none →
    alignment ∣ atLeast bytes alignment

def MultipleStep (s : AlignState) : AlignEvent → Prop
  | .alloc _ bytes alignment => Multiple s.lists bytes alignment
  | _ => True

instance (t : FreeLists) (bytes alignment : ℕ) : Decidable (Multiple t bytes alignment) :=
  decidable_of_iff ((reuse t (slabClass (atLeast bytes alignment) - kMinSlabClass)
    alignment).isNone → alignment ∣ atLeast bytes alignment) (by
      rw [Option.isNone_iff_eq_none, Multiple])

instance (s : AlignState) : (e : AlignEvent) → Decidable (MultipleStep s e)
  | .alloc _ bytes alignment => inferInstanceAs (Decidable (Multiple s.lists bytes alignment))
  | .construct _ _ => .isTrue trivial
  | .free _ => .isTrue trivial

/-- Every block has the alignment it was asked for or freed with. -/
structure AlignInv (s : AlignState) : Prop where
  live : ∀ b ∈ s.live, b.alignment ∣ kMaxAlignment ∧ b.alignment ∣ b.ptr
  free : ∀ l ∈ s.lists.freelists, ∀ x ∈ l, x.1 ∣ kMaxAlignment ∧ x.1 ∣ x.2

section Align

variable {s s' : AlignState}

/-- What `do_allocate` returns, and what it leaves in the lists. -/
theorem doAllocate_spec {r r' : Resource} {t t' : FreeLists} {mem mem' : Memory}
    {bytes alignment : ℕ} {ptr : Option ℕ}
    (h : doAllocate r t mem bytes alignment = some (ptr, r', t', mem')) :
    let idx := slabClass (atLeast bytes alignment) - kMinSlabClass
    (∃ p, ptr = some p ∧ reuse t idx alignment = some (p, t'))
      ∨ t' = t ∧ reuse t idx alignment = none
        ∧ (ptr = none ∨ ∃ p r₁, ptr = some p
          ∧ carve r (atLeast bytes alignment) alignment = some (p, r₁)) := by
  unfold doAllocate at h
  simp only [] at h
  split_ifs at h with ha
  simp only []
  rcases hr : reuse t (slabClass (atLeast bytes alignment) - kMinSlabClass) alignment
    with _ | ⟨p, t₁⟩
  · rcases hc : carve r (atLeast bytes alignment) alignment with _ | ⟨p, r₁⟩
    · simp only [hr, hc, Option.some.injEq, Prod.mk.injEq] at h
      exact .inr ⟨h.2.2.1.symm, rfl, .inl h.1.symm⟩
    · simp only [hr, hc, Option.some.injEq, Prod.mk.injEq] at h
      exact .inr ⟨h.2.2.1.symm, rfl, .inr ⟨p, r₁, h.1.symm, rfl⟩⟩
  · simp only [hr, Option.some.injEq, Prod.mk.injEq] at h
    refine .inl ⟨p, h.1.symm, ?_⟩
    rw [h.2.2.1]

/-- The pointer that is returned has the alignment just when the request is for a multiple of it,
or a freelist serves it. -/
theorem AlignInv.aligned_iff (H : AlignInv s) {r r' : Resource} {t : FreeLists} {mem : Memory}
    {bytes alignment ptr : ℕ} (hdvd : alignment ∣ kMaxAlignment)
    (h : doAllocate r s.lists s.mem bytes alignment = some (some ptr, r', t, mem)) :
    alignment ∣ ptr ↔ Multiple s.lists bytes alignment := by
  rcases doAllocate_spec h with ⟨p, hp, hr⟩ | ⟨-, hr, hp | ⟨p, r₁, hp, hc⟩⟩
  · obtain rfl := Option.some.inj hp
    obtain ⟨-, -, -, l, hl, a, ha, hmem⟩ := reuse_spec hr
    obtain ⟨h1, h2⟩ := H.free l hl _ hmem
    have h3 : alignment ∣ ptr := (dvd_of_le hdvd h1 ha).trans h2
    refine ⟨fun _ hnone => ?_, fun _ => h3⟩
    rw [hr] at hnone
    cases hnone
  · cases hp
  · obtain rfl := Option.some.inj hp
    rw [carve_aligned hc]
    exact ⟨fun hd _ => hd, fun hm => hm hr⟩

theorem AlignInv.step (H : AlignInv s) {e : AlignEvent} (hm : MultipleStep s e)
    (hs : alignStep s e = some s') : AlignInv s' := by
  cases e with
  | construct raw capacity =>
    obtain rfl := Option.some.inj hs
    exact ⟨H.live, H.free⟩
  | alloc i bytes alignment =>
    unfold alignStep at hs
    simp only [] at hs
    rcases hi : s.resources[i]? with _ | r
    · simp [hi] at hs
    simp only [hi] at hs
    split_ifs at hs with hb
    rcases ha : doAllocate r s.lists s.mem bytes alignment with _ | ⟨_ | ptr, r', t, mem⟩
    · simp [ha] at hs
    all_goals
      have hfree : ∀ l ∈ t.freelists, ∀ x ∈ l, x.1 ∣ kMaxAlignment ∧ x.1 ∣ x.2 := by
        rcases doAllocate_spec ha with ⟨p, -, hr⟩ | ⟨rfl, -⟩
        · intro l hl x hx
          obtain ⟨-, -, h3, -⟩ := reuse_spec hr
          obtain ⟨l₀, hl₀, hx₀⟩ := h3 l hl x hx
          exact H.free l₀ hl₀ x hx₀
        · exact H.free
      simp only [ha, Option.some.injEq] at hs
      subst hs
      refine ⟨fun b hb' => ?_, hfree⟩
    · exact H.live b hb'
    · rcases List.mem_cons.1 hb' with rfl | hb'
      · exact ⟨hb.2.2, (H.aligned_iff hb.2.2 ha).2 hm⟩
      · exact H.live b hb'
  | free b =>
    unfold alignStep at hs
    simp only [] at hs
    split_ifs at hs with hb
    obtain rfl := Option.some.inj hs
    refine ⟨fun x hx => H.live x (List.mem_of_mem_erase hx), fun l hl x hx => ?_⟩
    rcases doDeallocate_entry hl hx with rfl | ⟨l₀, hl₀, hx₀⟩
    · exact H.live b hb
    · exact H.free l₀ hl₀ x hx₀

end Align

/-- In every run in which each request that no freelist serves is for a multiple of its alignment,
every block in use has the alignment it was asked for, and the next pointer has it just when its
request is such a one. -/
theorem allocated_aligned (mem : Memory) (es : List AlignEvent) (s : AlignState)
    (hr : run alignStep (alignInit mem) es = some s)
    (hm : Meets alignStep MultipleStep (alignInit mem) es) :
    (∀ b ∈ s.live, b.alignment ∣ b.ptr) ∧ ∀ r ∈ s.resources, ∀ bytes alignment ptr r' t mem',
      1 ≤ bytes → bytes ≤ 2 ^ 20 → alignment ∣ kMaxAlignment →
        doAllocate r s.lists s.mem bytes alignment = some (some ptr, r', t, mem') →
          (alignment ∣ ptr ↔ Multiple s.lists bytes alignment) := by
  have H : AlignInv s := run_inv (I := AlignInv) (fun _ _ _ H hm hs => H.step hm hs) hr hm
    ⟨by simp [alignInit], by simp [alignInit, FreeLists.init]⟩
  exact ⟨fun b hb => (H.live b hb).2,
    fun r _ bytes alignment ptr r' t mem' _ _ hdvd h => H.aligned_iff hdvd h⟩

/-- A block of 65 bytes is asked for at an alignment of 1, freed, and asked for again; then one of
`bytes` bytes at 64. -/
def alignRun (bytes : ℕ) : List AlignEvent :=
  [.construct (2 ^ 21) 4096, .alloc 0 65 1, .free ⟨⟨0, 2 ^ 21 + 4031, 65⟩, 1⟩, .alloc 0 65 1,
    .alloc 0 bytes 64]

theorem allocated_aligned_alignRun : ∃ s,
    run alignStep (alignInit fun _ => 0) (alignRun 128) = some s
      ∧ s.live = [⟨⟨0, 2 ^ 21 + 3840, 128⟩, 64⟩, ⟨⟨0, 2 ^ 21 + 4031, 65⟩, 1⟩]
      ∧ ∀ b ∈ s.live, b.alignment ∣ b.ptr := by
  obtain ⟨s, hs, hl⟩ := Option.map_eq_some_iff.1
    (show (run alignStep (alignInit fun _ => 0) (alignRun 128)).map (·.live)
      = some [⟨⟨0, 2 ^ 21 + 3840, 128⟩, 64⟩, ⟨⟨0, 2 ^ 21 + 4031, 65⟩, 1⟩] by decide +kernel)
  exact ⟨s, hs, hl, (allocated_aligned (fun _ => 0) (alignRun 128) s hs (by decide +kernel)).1⟩

/-- A block of 65 bytes asked for at an alignment of 64 does not have it. -/
theorem alignRun_unaligned : ∃ s,
    run alignStep (alignInit fun _ => 0) (alignRun 65) = some s
      ∧ ∃ b ∈ s.live, b = ⟨⟨0, 2 ^ 21 + 3903, 65⟩, 64⟩ ∧ ¬ b.alignment ∣ b.ptr := by
  obtain ⟨s, hs, hl⟩ := Option.map_eq_some_iff.1
    (show (run alignStep (alignInit fun _ => 0) (alignRun 65)).map (·.live)
      = some [⟨⟨0, 2 ^ 21 + 3903, 65⟩, 64⟩, ⟨⟨0, 2 ^ 21 + 4031, 65⟩, 1⟩] by decide +kernel)
  exact ⟨s, hs, _, by rw [hl]; exact List.mem_cons_self, rfl, by decide⟩

end Rome

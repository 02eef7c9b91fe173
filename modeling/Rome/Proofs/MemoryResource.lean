import Rome.MemoryResource
import Rome.Proofs.RdmaMemory
import Rome.Lib.Machine

/-!
# The safety of the allocator

A block is carved with the bytes that are asked for, and taken from a freelist as if it had all the
bytes of its slab class. Where the blocks that are taken from a freelist have them (`Roomy`), the
blocks in use are in the region, apart from each other, and untouched by each allocation. A block of
65 bytes that comes back has room for 65, and 128 are zeroed and may be handed out.
-/

namespace Rome

open Machine

/-! ## Slab classes -/

theorem kLogTable_getD {i : ℕ} (h1 : 1 ≤ i) (h2 : i < 256) :
    kLogTable.getD i 0 = (Nat.log2 i : ℤ) := by
  have h : ∀ i : Fin 256, i.val ≠ 0 → kLogTable.getD i.val 0 = (Nat.log2 i.val : ℤ) := by
    decide +kernel
  exact h ⟨i, h2⟩ (by simp only []; omega)

/-- The logarithm of a number shifted to the right. -/
theorem log2_of_shift {x k p : ℕ} (hp : p = x >>> k) (h : p ≠ 0) :
    2 ^ (k + Nat.log2 p) ≤ x ∧ x < 2 ^ (k + Nat.log2 p + 1) := by
  rw [Nat.shiftRight_eq_div_pow] at hp
  have h1 : 2 ^ Nat.log2 p ≤ p := Nat.log2_self_le h
  have h2 : p < 2 ^ (Nat.log2 p + 1) := Nat.lt_log2_self
  have h3 : 2 ^ k * p ≤ x := by
    rw [hp]
    exact Nat.mul_div_le x (2 ^ k)
  have h4 : x < 2 ^ k * (p + 1) := by
    rw [hp]
    exact Nat.lt_mul_div_succ x (Nat.two_pow_pos k)
  constructor
  · calc 2 ^ (k + Nat.log2 p) = 2 ^ k * 2 ^ Nat.log2 p := Nat.pow_add 2 k _
      _ ≤ 2 ^ k * p := Nat.mul_le_mul_left _ h1
      _ ≤ x := h3
  · calc x < 2 ^ k * (p + 1) := h4
      _ ≤ 2 ^ k * 2 ^ (Nat.log2 p + 1) := Nat.mul_le_mul_left _ h2
      _ = 2 ^ (k + Nat.log2 p + 1) := by rw [← Nat.pow_add]; rfl

/-- The upper logarithm is the least power of two that is no smaller. -/
theorem upperLog2_of_log {x r : ℕ} (h1 : 2 ^ r ≤ x) (h2 : x < 2 ^ (r + 1)) (j : ℕ) :
    x ≤ 2 ^ j ↔ (if 1 <<< r < x then r + 1 else r) ≤ j := by
  rw [Nat.shiftLeft_eq, Nat.one_mul]
  split_ifs with h3
  · constructor
    · intro h4
      exact (Nat.pow_lt_pow_iff_right (by decide)).1 (lt_of_lt_of_le h3 h4)
    · intro h4
      exact h2.le.trans (Nat.pow_le_pow_right (by decide) h4)
  · obtain rfl : x = 2 ^ r := le_antisymm (not_lt.1 h3) h1
    exact Nat.pow_le_pow_iff_right (by decide)

theorem upperLog2_le_iff {x : ℕ} (h1 : 1 ≤ x) (h2 : x < 2 ^ 32) (j : ℕ) :
    x ≤ 2 ^ j ↔ upperLog2 x ≤ j := by
  have hp : x >>> 16 >>> 8 = x >>> 24 := by rw [← Nat.shiftRight_add]
  have hlt : ∀ k n, x < 2 ^ (k + n) → x >>> k < 2 ^ n := by
    intro k n h
    rw [Nat.shiftRight_eq_div_pow]
    exact Nat.div_lt_of_lt_mul (by rwa [← Nat.pow_add])
  simp only [upperLog2, hp]
  by_cases h3 : x >>> 16 = 0
  · have h4 : x < 2 ^ 16 := by
      rw [Nat.shiftRight_eq_div_pow, Nat.div_eq_zero_iff] at h3
      omega
    by_cases h5 : x >>> 8 = 0
    · have h6 : x < 256 := by
        rw [Nat.shiftRight_eq_div_pow, Nat.div_eq_zero_iff] at h5
        omega
      simp only [h3, h5, ne_eq, not_true_eq_false, if_false, kLogTable_getD h1 h6,
        Int.toNat_natCast]
      exact upperLog2_of_log (Nat.log2_self_le (by omega)) Nat.lt_log2_self j
    · have h6 := hlt 8 8 h4
      have hr : ((8 : ℤ) + (Nat.log2 (x >>> 8) : ℤ)).toNat = 8 + Nat.log2 (x >>> 8) := by omega
      simp only [h3, h5, ne_eq, not_true_eq_false, not_false_eq_true, if_false, if_true,
        kLogTable_getD (Nat.pos_of_ne_zero h5) h6, hr]
      exact upperLog2_of_log (log2_of_shift rfl h5).1 (log2_of_shift rfl h5).2 j
  · by_cases h5 : x >>> 24 = 0
    · have h6 : x >>> 16 < 256 := by
        rw [Nat.shiftRight_eq_div_pow, Nat.div_eq_zero_iff] at h5
        exact hlt 16 8 (by omega)
      have hr : ((16 : ℤ) + (Nat.log2 (x >>> 16) : ℤ)).toNat = 16 + Nat.log2 (x >>> 16) := by omega
      simp only [h3, h5, ne_eq, not_true_eq_false, not_false_eq_true, if_false, if_true,
        kLogTable_getD (Nat.pos_of_ne_zero h3) h6, hr]
      exact upperLog2_of_log (log2_of_shift rfl h3).1 (log2_of_shift rfl h3).2 j
    · have h6 := hlt 24 8 h2
      have hr : ((24 : ℤ) + (Nat.log2 (x >>> 24) : ℤ)).toNat = 24 + Nat.log2 (x >>> 24) := by omega
      simp only [h3, h5, ne_eq, not_false_eq_true, if_true,
        kLogTable_getD (Nat.pos_of_ne_zero h5) h6, hr]
      exact upperLog2_of_log (log2_of_shift rfl h5).1 (log2_of_shift rfl h5).2 j

/-- A request of up to `2 ^ 20` bytes has a slab class, which covers it. -/
theorem slabClass_spec {bytes : ℕ} (h1 : 1 ≤ bytes) (h2 : bytes ≤ 2 ^ 20) :
    slabClass bytes - kMinSlabClass < kNumSlabClasses ∧ bytes ≤ 2 ^ slabClass bytes := by
  have hlt : bytes < 2 ^ 32 := by omega
  have h3 := (upperLog2_le_iff h1 hlt 20).1 h2
  have h4 := (upperLog2_le_iff h1 hlt (upperLog2 bytes)).2 le_rfl
  have h5 : upperLog2 bytes % 256 = upperLog2 bytes := Nat.mod_eq_of_lt (by omega)
  simp only [slabClass, h5, kMinSlabClass, kNumSlabClasses, kMaxSlabClass]
  refine ⟨by omega, h4.trans (Nat.pow_le_pow_right (by decide) (le_max_right _ _))⟩

/-! ## Freelists -/

/-- The blocks of all freelists. -/
def FreeLists.blocks (t : FreeLists) : List ℕ := t.freelists.flatten.map Prod.snd

/-- The first block of the list that is good enough is taken out. -/
theorem takeFirst_split {alignment ptr : ℕ} {last : Bool} {l l' : List (ℕ × ℕ)}
    (h : takeFirst alignment l = some (ptr, l', last)) :
    ∃ pre a post, l = pre ++ (a, ptr) :: post ∧ l' = pre ++ post ∧ last = post.isEmpty
      ∧ alignment ≤ a ∧ ∀ x ∈ pre, x.1 < alignment := by
  induction l generalizing l' with
  | nil => simp [takeFirst] at h
  | cons f l ih =>
    unfold takeFirst at h
    split_ifs at h with hf
    · simp only [Option.some.injEq, Prod.mk.injEq] at h
      obtain ⟨rfl, rfl, rfl⟩ := h
      exact ⟨[], f.1, l, rfl, rfl, rfl, hf, fun x hx => absurd hx List.not_mem_nil⟩
    · obtain ⟨⟨p, l₁, b⟩, h1, h2⟩ := Option.map_eq_some_iff.1 h
      simp only [Prod.mk.injEq] at h2
      obtain ⟨rfl, rfl, rfl⟩ := h2
      obtain ⟨pre, a, post, rfl, rfl, h3, h4, h5⟩ := ih h1
      refine ⟨f :: pre, a, post, rfl, rfl, h3, h4, fun x hx => ?_⟩
      rcases List.mem_cons.1 hx with rfl | hx
      · exact not_le.1 hf
      · exact h5 x hx

theorem takeFirst_perm {alignment ptr : ℕ} {last : Bool} {l l' : List (ℕ × ℕ)}
    (h : takeFirst alignment l = some (ptr, l', last)) : ∃ a, l.Perm ((a, ptr) :: l') := by
  obtain ⟨pre, a, post, rfl, rfl, -⟩ := takeFirst_split h
  exact ⟨a, List.perm_middle⟩

/-- Replacing one list changes the blocks there only. -/
theorem flatten_set_perm {α : Type*} : ∀ {L : List (List α)} {i : ℕ}, i < L.length →
    ∀ l, ((L.getD i []) ++ (L.set i l).flatten).Perm (l ++ L.flatten)
  | [], _, h, _ => by simp at h
  | x :: L, 0, _, l => by
    simp only [List.getD_cons_zero, List.set_cons_zero, List.flatten_cons]
    exact List.perm_append_comm_assoc _ _ _
  | x :: L, i + 1, h, l => by
    simp only [List.getD_cons_succ, List.set_cons_succ, List.flatten_cons]
    have ih := flatten_set_perm (show i < L.length by simpa using h) l
    exact ((List.perm_append_comm_assoc _ _ _).trans (ih.append_left x)).trans
      (List.perm_append_comm_assoc _ _ _)

/-- A block taken from a freelist was there, and the others still are. -/
theorem reuse_perm {t t' : FreeLists} {idx alignment ptr : ℕ}
    (h : reuse t idx alignment = some (ptr, t')) : t.blocks.Perm (ptr :: t'.blocks) := by
  simp only [reuse] at h
  split_ifs at h
  obtain ⟨⟨p, l, last⟩, h1, h2⟩ := Option.map_eq_some_iff.1 h
  simp only [Prod.mk.injEq] at h2
  obtain ⟨rfl, rfl⟩ := h2
  obtain ⟨a, ha⟩ := takeFirst_perm h1
  have hlt : idx < t.freelists.length := by
    by_contra hge
    simp [List.getElem?_eq_none (not_lt.1 hge), takeFirst] at h1
  have hset := flatten_set_perm hlt l
  have hall : (l ++ ((a, p) :: (t.freelists.set idx l).flatten)).Perm (l ++ t.freelists.flatten) :=
    (List.perm_middle.trans (ha.symm.append_right _)).trans hset
  exact ((List.perm_append_left_iff l).1 hall).symm.map Prod.snd

/-- A freelist that a block is taken from is not empty. -/
theorem checked_of_reuse {t : FreeLists} {idx alignment : ℕ} {x : ℕ × FreeLists}
    (h : reuse t idx alignment = some x) : t.checked idx alignment = true := by
  unfold reuse at h
  split_ifs at h with hb
  refine decide_eq_true (.inr fun hnil => ?_)
  rw [hnil, takeFirst, Option.map_none] at h
  cases h

theorem reuse_length {t t' : FreeLists} {idx alignment ptr : ℕ}
    (h : reuse t idx alignment = some (ptr, t')) : t'.freelists.length = t.freelists.length := by
  simp only [reuse] at h
  split_ifs at h
  obtain ⟨x, -, h2⟩ := Option.map_eq_some_iff.1 h
  simp only [Prod.mk.injEq] at h2
  rw [← h2.2]
  simp

/-- A freed block is in a freelist, with the others. -/
theorem doDeallocate_perm {t : FreeLists} {bytes : ℕ} (ptr alignment : ℕ)
    (h : slabClass bytes - kMinSlabClass < t.freelists.length) :
    (doDeallocate t ptr bytes alignment).blocks.Perm (ptr :: t.blocks) := by
  have hmod : t.freelists.modify (slabClass bytes - kMinSlabClass)
      (fun l => l ++ [(alignment, ptr)]) = t.freelists.set (slabClass bytes - kMinSlabClass)
        (t.freelists.getD (slabClass bytes - kMinSlabClass) [] ++ [(alignment, ptr)]) := by
    rw [List.modify_eq_set_getElem?]
    simp [h]
  have hset := flatten_set_perm h
    (t.freelists.getD (slabClass bytes - kMinSlabClass) [] ++ [(alignment, ptr)])
  rw [List.append_assoc, List.perm_append_left_iff, List.singleton_append, ← hmod] at hset
  exact hset.map Prod.snd

/-! ## Blocks -/

/-- Two blocks have no byte in common. -/
def Apart (x y : ℕ × ℕ) : Prop := x.1 + x.2 ≤ y.1 ∨ y.1 + y.2 ≤ x.1

instance (x y : ℕ × ℕ) : Decidable (Apart x y) := inferInstanceAs (Decidable (_ ∨ _))

instance : Std.Symm Apart := ⟨fun _ _ => Or.symm⟩

/-- The live blocks are apart from each other and in the region. -/
def Safe (s : AllocState) : Prop :=
  s.live.Pairwise Apart
    ∧ ∀ x ∈ s.live, s.res.raw ≤ x.1 ∧ x.1 + x.2 ≤ s.res.raw + s.res.capacity

/-- No byte of a block in use in `s` is other in `s'`. -/
def Untouched (s s' : AllocState) : Prop :=
  ∀ x ∈ s.live, ∀ a, x.1 ≤ a → a < x.1 + x.2 → s'.mem a = s.mem a

/-- A block that is taken from a freelist was carved with all the bytes of its slab class. -/
def Roomy (s : AllocState) : AllocEvent → Prop
  | .alloc bytes =>
    let slabclass := slabClass (atLeast bytes 64)
    ∀ x ∈ reuse s.lists (slabclass - kMinSlabClass) 64,
      ∃ y ∈ s.carved, y.1 = x.1 ∧ 1 <<< slabclass ≤ y.2
  | _ => True

instance (s : AllocState) : (e : AllocEvent) → Decidable (Roomy s e)
  | .alloc bytes => inferInstanceAs (Decidable (∀ x ∈ reuse s.lists
      (slabClass (atLeast bytes 64) - kMinSlabClass) 64, ∃ y ∈ s.carved, _ ∧ _))
  | .free _ _ => .isTrue trivial
  | .store _ _ => .isTrue trivial

/-- Every block in use or in a freelist is one of those carved, which are apart, from the head
up. -/
structure AllocInv (s : AllocState) : Prop where
  raw_le : s.res.raw ≤ s.res.head
  head_le : s.res.head ≤ s.res.raw + s.res.capacity
  region : ∀ x ∈ s.carved, s.res.head ≤ x.1 ∧ x.1 + x.2 ≤ s.res.raw + s.res.capacity ∧ 0 < x.2
  apart : s.carved.Pairwise Apart
  live : ∀ x ∈ s.live, 1 ≤ x.2 ∧ x.2 ≤ 2 ^ 20 ∧ ∃ y ∈ s.carved, y.1 = x.1 ∧ x.2 ≤ y.2
  free : ∀ p ∈ s.lists.blocks, ∃ y ∈ s.carved, y.1 = p
  nodup : (s.live.map Prod.fst ++ s.lists.blocks).Nodup
  length : s.lists.freelists.length = kNumSlabClasses

theorem allocInv_init (raw capacity : ℕ) (mem : Memory) :
    AllocInv (allocInit raw capacity mem) := by
  refine ⟨Nat.le_add_right _ _, le_rfl, by simp [allocInit], by simp [allocInit],
    by simp [allocInit], ?_, ?_, by simp [allocInit, FreeLists.init]⟩ <;>
    simp [allocInit, FreeLists.init, FreeLists.blocks]

section Inv

variable {s s' : AllocState}

theorem apart_of_mem {l : List (ℕ × ℕ)} (hl : l.Pairwise Apart) {x y : ℕ × ℕ} (hx : x ∈ l)
    (hy : y ∈ l) (hne : x.1 ≠ y.1) : Apart x y := by
  refine hl.forall hx hy ?_
  rintro rfl
  exact hne rfl

theorem AllocInv.safe (H : AllocInv s) : Safe s := by
  have hnodup := (List.nodup_append.1 H.nodup).1
  constructor
  · rw [List.Nodup, List.pairwise_map] at hnodup
    refine hnodup.imp_of_mem fun {x y} hx hy hne => ?_
    obtain ⟨-, -, x', hx', h1, h2⟩ := H.live x hx
    obtain ⟨-, -, y', hy', h3, h4⟩ := H.live y hy
    have := apart_of_mem H.apart hx' hy' (by rw [h1, h3]; exact hne)
    simp only [Apart] at this ⊢
    omega
  · intro x hx
    obtain ⟨-, -, y, hy, h1, h2⟩ := H.live x hx
    have := H.region y hy
    have := H.raw_le
    omega

theorem atLeast_spec {bytes : ℕ} (h1 : 1 ≤ bytes) (h2 : bytes ≤ 2 ^ 20) :
    bytes ≤ atLeast bytes 64 ∧ 64 ≤ atLeast bytes 64 ∧ atLeast bytes 64 ≤ 2 ^ 20 := by
  simp only [atLeast]
  split_ifs <;> omega

/-- A block is taken from a freelist. -/
theorem AllocInv.reuse (H : AllocInv s) {bytes ptr : ℕ} {t : FreeLists} {mem : Memory}
    (h1 : 1 ≤ bytes) (h2 : bytes ≤ 2 ^ 20)
    (hr : Rome.reuse s.lists (slabClass (atLeast bytes 64) - kMinSlabClass) 64 = some (ptr, t))
    (hroom : ∃ y ∈ s.carved, y.1 = ptr ∧ 1 <<< slabClass (atLeast bytes 64) ≤ y.2) :
    AllocInv ⟨s.res, t, mem, (ptr, bytes) :: s.live, s.carved⟩ := by
  obtain ⟨h3, h4, h5⟩ := atLeast_spec h1 h2
  have hperm := reuse_perm hr
  refine ⟨H.raw_le, H.head_le, H.region, H.apart, fun x hx => ?_, fun p hp => ?_, ?_,
    (reuse_length hr).trans H.length⟩
  · rcases List.mem_cons.1 hx with rfl | hx
    · obtain ⟨y, hy, h6, h7⟩ := hroom
      refine ⟨h1, h2, y, hy, h6, ?_⟩
      have h8 := (slabClass_spec (by omega) h5).2
      rw [Nat.shiftLeft_eq, Nat.one_mul] at h7
      omega
    · exact H.live x hx
  · exact H.free p (hperm.mem_iff.2 (List.mem_cons_of_mem _ hp))
  · have hn : (s.live.map Prod.fst ++ ptr :: t.blocks).Nodup :=
      (hperm.append_left _).nodup_iff.1 H.nodup
    exact List.perm_middle.nodup_iff.1 hn

/-- A block is carved. -/
theorem AllocInv.carve (H : AllocInv s) {bytes ptr : ℕ} {r : Resource} (h1 : 1 ≤ bytes)
    (h2 : bytes ≤ 2 ^ 20) (hc : Rome.carve s.res (atLeast bytes 64) 64 = some (ptr, r)) :
    AllocInv ⟨r, s.lists, s.mem, (ptr, bytes) :: s.live,
      s.carve r.head ptr (atLeast bytes 64)⟩ := by
  obtain ⟨h3, h4, -⟩ := atLeast_spec h1 h2
  simp only [Rome.carve] at hc
  split_ifs at hc with hlt
  simp only [Option.some.injEq, Prod.mk.injEq] at hc
  obtain ⟨hptr, rfl⟩ := hc
  have hdown : alignDown s.res.head 64 ≤ s.res.head := Nat.sub_le _ _
  have hraw := H.raw_le
  have hhead := H.head_le
  have hp1 : ptr + atLeast bytes 64 = alignDown s.res.head 64 := by omega
  have hne : ¬ ptr = s.res.head := by omega
  rw [hptr]
  simp only [AllocState.carve, hne, if_false]
  have hbelow : ∀ y ∈ s.carved, Apart (ptr, atLeast bytes 64) y := by
    intro y hy
    have := (H.region y hy).1
    simp only [Apart]
    omega
  have hnew : ∀ y ∈ s.carved, y.1 ≠ ptr := by
    intro y hy heq
    have := (H.region y hy).1
    omega
  refine ⟨?_, ?_, fun x hx => ?_, List.pairwise_cons.2 ⟨hbelow, H.apart⟩, fun x hx => ?_,
    fun p hp => ?_, ?_, H.length⟩
  · simp only []
    omega
  · simp only []
    omega
  · rcases List.mem_cons.1 hx with rfl | hx
    · simp only []
      omega
    · have := H.region x hx
      simp only []
      omega
  · rcases List.mem_cons.1 hx with rfl | hx
    · exact ⟨h1, h2, _, List.mem_cons_self, rfl, h3⟩
    · obtain ⟨h5, h6, y, hy, h7⟩ := H.live x hx
      exact ⟨h5, h6, y, List.mem_cons_of_mem _ hy, h7⟩
  · obtain ⟨y, hy, h5⟩ := H.free p hp
    exact ⟨y, List.mem_cons_of_mem _ hy, h5⟩
  · simp only [List.map_cons, List.cons_append]
    refine List.nodup_cons.2 ⟨fun hm => ?_, H.nodup⟩
    rcases List.mem_append.1 hm with hm | hm
    · obtain ⟨x, hx, rfl⟩ := List.mem_map.1 hm
      obtain ⟨-, -, y, hy, h5, -⟩ := H.live x hx
      exact hnew y hy h5
    · obtain ⟨y, hy, h5⟩ := H.free ptr hm
      exact hnew y hy h5

/-- A block in use is freed. -/
theorem AllocInv.dealloc (H : AllocInv s) {ptr bytes : ℕ} (hl : (ptr, bytes) ∈ s.live) :
    AllocInv { s with
      lists := doDeallocate s.lists ptr bytes 64
      live := s.live.erase (ptr, bytes) } := by
  obtain ⟨h1, h2, y, hy, h3, -⟩ := H.live _ hl
  have hidx : slabClass bytes - kMinSlabClass < s.lists.freelists.length := by
    rw [H.length]
    exact (slabClass_spec h1 h2).1
  have hperm := doDeallocate_perm ptr 64 hidx
  refine ⟨H.raw_le, H.head_le, H.region, H.apart, fun x hx => H.live x (List.mem_of_mem_erase hx),
    fun p hp => ?_, ?_, ?_⟩
  · rcases List.mem_cons.1 (hperm.mem_iff.1 hp) with rfl | hp
    · exact ⟨y, hy, h3⟩
    · exact H.free p hp
  · have hlive : (s.live.map Prod.fst).Perm (ptr :: (s.live.erase (ptr, bytes)).map Prod.fst) :=
      (List.perm_cons_erase hl).map Prod.fst
    have hn := ((hlive.append_right s.lists.blocks).trans
      (List.perm_middle.symm.trans (hperm.symm.append_left _))).nodup_iff.1 H.nodup
    exact hn
  · simp only [doDeallocate, List.length_modify]
    exact H.length

/-- What `do_allocate` of up to `2 ^ 20` bytes does. -/
theorem allocStep_alloc {bytes : ℕ} (hs : allocStep s (.alloc bytes) = some s') :
    1 ≤ bytes ∧ bytes ≤ 2 ^ 20 ∧
    let slabclass := slabClass (atLeast bytes 64)
    let idx := slabclass - kMinSlabClass
    (∃ ptr t, reuse s.lists idx 64 = some (ptr, t) ∧ s' = ⟨s.res, t,
        s.mem.zero ptr (1 <<< slabclass), (ptr, bytes) :: s.live, s.carved⟩)
      ∨ (∃ ptr r, carve s.res (atLeast bytes 64) 64 = some (ptr, r) ∧ s' = ⟨r, s.lists, s.mem,
        (ptr, bytes) :: s.live, s.carve r.head ptr (atLeast bytes 64)⟩)
      ∨ s' = s := by
  simp only [allocStep] at hs
  split_ifs at hs with hb
  refine ⟨hb.1, hb.2, ?_⟩
  simp only [doAllocate] at hs
  split_ifs at hs with ha
  simp only []
  rcases hr : reuse s.lists (slabClass (atLeast bytes 64) - kMinSlabClass) 64 with _ | ⟨ptr, t⟩
  · rcases hc : carve s.res (atLeast bytes 64) 64 with _ | ⟨ptr, r⟩
    · simp only [hr, hc, Option.some.injEq] at hs
      exact .inr (.inr hs.symm)
    · simp only [hr, hc, Option.some.injEq] at hs
      exact .inr (.inl ⟨ptr, r, rfl, hs.symm⟩)
  · simp only [hr, AllocState.carve, if_true, Option.some.injEq] at hs
    exact .inl ⟨ptr, t, rfl, hs.symm⟩

/-- A call leaves the region as it is. -/
theorem allocStep_capacity {ev : AllocEvent} (hs : allocStep s ev = some s') :
    s'.res.capacity = s.res.capacity := by
  cases ev with
  | alloc bytes =>
    obtain ⟨-, -, ⟨ptr, t, -, rfl⟩ | ⟨ptr, r, hc, rfl⟩ | rfl⟩ := allocStep_alloc hs
    · rfl
    · unfold Rome.carve at hc
      simp only [] at hc
      split_ifs at hc
      obtain ⟨-, rfl⟩ := Prod.mk.inj (Option.some.inj hc)
      rfl
    · rfl
  | free ptr bytes =>
    obtain ⟨-, rfl⟩ := Option.ite_none_right_eq_some.1 hs |>.imp id Option.some.inj
    rfl
  | store a v =>
    obtain ⟨-, rfl⟩ := Option.ite_none_right_eq_some.1 hs |>.imp id Option.some.inj
    rfl

theorem AllocInv.step (H : AllocInv s) {ev : AllocEvent} (hroom : Roomy s ev)
    (hs : allocStep s ev = some s') : AllocInv s' := by
  cases ev with
  | alloc bytes =>
    obtain ⟨h1, h2, ⟨ptr, t, hr, rfl⟩ | ⟨ptr, r, hc, rfl⟩ | rfl⟩ := allocStep_alloc hs
    · exact H.reuse h1 h2 hr (hroom (ptr, t) hr)
    · exact H.carve h1 h2 hc
    · exact H
  | free ptr bytes =>
    simp only [allocStep] at hs
    split_ifs at hs with hl
    obtain rfl := Option.some.inj hs
    exact H.dealloc hl
  | store a v =>
    simp only [allocStep] at hs
    split_ifs at hs
    obtain rfl := Option.some.inj hs
    exact ⟨H.raw_le, H.head_le, H.region, H.apart, H.live, H.free, H.nodup, H.length⟩

/-- Zeroing a block that is taken from a freelist touches no block in use. -/
theorem AllocInv.untouched_zero (H : AllocInv s) {bytes ptr : ℕ} {t : FreeLists}
    (hroom : Roomy s (.alloc bytes))
    (hr : Rome.reuse s.lists (slabClass (atLeast bytes 64) - kMinSlabClass) 64 = some (ptr, t))
    {x : ℕ × ℕ} (hx : x ∈ s.live) {a : ℕ} (ha : x.1 ≤ a) (ha' : a < x.1 + x.2) :
    s.mem.zero ptr (1 <<< slabClass (atLeast bytes 64)) a = s.mem a := by
  obtain ⟨y, hy, h3, h4⟩ := hroom (ptr, t) hr
  obtain ⟨-, -, z, hz, h5, h6⟩ := H.live x hx
  have hmem : ptr ∈ s.lists.blocks := (reuse_perm hr).mem_iff.2 List.mem_cons_self
  have hne : x.1 ≠ ptr :=
    (List.nodup_append.1 H.nodup).2.2 x.1 (List.mem_map_of_mem hx) ptr hmem
  have hapart := apart_of_mem H.apart hy hz (by rw [h3, h5]; exact hne.symm)
  simp only [Apart] at hapart
  simp only [Memory.zero]
  rw [if_neg (by omega)]

/-- An allocation touches no block in use. -/
theorem AllocInv.untouched (H : AllocInv s) {bytes : ℕ} (hroom : Roomy s (.alloc bytes))
    (hs : allocStep s (.alloc bytes) = some s') : Untouched s s' := by
  obtain ⟨h1, h2, ⟨ptr, t, hr, rfl⟩ | ⟨ptr, r, hc, rfl⟩ | rfl⟩ := allocStep_alloc hs
  · exact fun x hx a ha ha' => H.untouched_zero hroom hr hx ha ha'
  · intro x _ a _ _
    rfl
  · intro x _ a _ _
    rfl

end Inv

/-! ## Runs -/

/-- What the constructor registers. -/
theorem registered_of_create {sys : RdmaSystem} {capacity : UInt64} {path : Option String} {pd : ℕ}
    {m : RdmaMemory} (h : RdmaMemory.create sys capacity path pd = some m) :
    ∃ mr, m.getDefaultMemoryRegion = some mr ∧ mr.addr = m.raw
      ∧ mr.length.toNat = (Resource.init m.raw.toNat capacity.toNat).registered := by
  obtain ⟨-, raw, -, -, rfl⟩ := RdmaMemory.create_eq_some_iff.1 h
  exact ⟨_, rfl, rfl, RdmaMemory.lowBits_toNat⟩

theorem Resource.registered_of_lt {r : Resource} (h : r.capacity < 2 ^ 32) :
    r.registered = r.capacity :=
  Nat.mod_eq_of_lt h

/-- In every run over a region of less than `2 ^ 32` bytes in which each block that is taken from a
freelist was carved with all the bytes of its slab class, the blocks in use are safe and registered,
and the next such allocation leaves them untouched. -/
theorem allocator_safe (raw capacity : ℕ) (hcap : capacity < 2 ^ 32) (mem : Memory)
    (es : List AllocEvent) (s : AllocState)
    (hr : run allocStep (allocInit raw capacity mem) es = some s)
    (hm : Meets allocStep Roomy (allocInit raw capacity mem) es) :
    Safe s ∧ (∀ x ∈ s.live, s.res.Registers x.1 x.2)
      ∧ ∀ bytes s', Roomy s (.alloc bytes) → allocStep s (.alloc bytes) = some s' →
      Untouched s s' := by
  obtain ⟨H, hc⟩ : AllocInv s ∧ s.res.capacity = capacity :=
    run_inv (I := fun s => AllocInv s ∧ s.res.capacity = capacity)
      (fun _ _ _ H hroom hs => ⟨H.1.step hroom hs, (allocStep_capacity hs).trans H.2⟩) hr hm
      ⟨allocInv_init raw capacity mem, rfl⟩
  refine ⟨H.safe, fun x hx => ?_, fun bytes s' hroom hs => H.untouched hroom hs⟩
  rw [Resource.Registers, Resource.registered_of_lt (hc.trans_lt hcap)]
  exact H.safe.2 x hx

/-- A region of a page in which every byte is 1. -/
def page : AllocState := allocInit (2 ^ 21) 4096 fun _ => 1

/-- Blocks of 64 and `bytes` bytes are allocated and the second is freed. -/
def freedRun (bytes : ℕ) : List AllocEvent :=
  [.alloc 64, .alloc bytes, .free (2 ^ 21 + 4096 - 64 - bytes) bytes]

theorem allocator_safe_freedRun : ∃ s, run allocStep page (freedRun 128) = some s ∧ Safe s
    ∧ (∀ x ∈ s.live, s.res.Registers x.1 x.2)
    ∧ ∃ s', allocStep s (.alloc 128) = some s' ∧ Untouched s s' := by
  have hrun : (run allocStep page (freedRun 128)).bind (fun s => (allocStep s (.alloc 128)).map
      fun _ => decide (Roomy s (.alloc 128))) = some true := by decide +kernel
  obtain ⟨s, hs, h1⟩ := Option.bind_eq_some_iff.1 hrun
  obtain ⟨s', hs', h2⟩ := Option.map_eq_some_iff.1 h1
  obtain ⟨hsafe, hreg, hnext⟩ := allocator_safe (2 ^ 21) 4096 (by decide) (fun _ => 1)
    (freedRun 128) s hs (by decide +kernel)
  exact ⟨s, hs, hsafe, hreg, s', hs', hnext 128 s' (of_decide_eq_true h2) hs'⟩

/-- The block of 65 bytes is handed out for 128: bytes of the first block are zeroed, and the two
blocks overlap. -/
theorem freedRun_torn : ∃ s s', run allocStep page (freedRun 65) = some s
    ∧ allocStep s (.alloc 128) = some s' ∧ ¬ Untouched s s' ∧ ¬ Safe s' := by
  have hrun : (run allocStep page (freedRun 65)).bind (fun s => (allocStep s (.alloc 128)).map
      fun s' => (s.live, s'.live, s.mem (2 ^ 21 + 4032), s'.mem (2 ^ 21 + 4032)))
      = some ([(2 ^ 21 + 4032, 64)], [(2 ^ 21 + 3967, 128), (2 ^ 21 + 4032, 64)], 1, 0) := by
    decide +kernel
  obtain ⟨s, hs, h1⟩ := Option.bind_eq_some_iff.1 hrun
  obtain ⟨s', hs', h2⟩ := Option.map_eq_some_iff.1 h1
  simp only [Prod.mk.injEq] at h2
  obtain ⟨h3, h4, h5, h6⟩ := h2
  refine ⟨s, s', hs, hs', fun hu => ?_, fun hsafe => ?_⟩
  · have := hu (2 ^ 21 + 4032, 64) (by rw [h3]; simp) (2 ^ 21 + 4032) le_rfl (by decide)
    rw [h5, h6] at this
    exact absurd this (by decide)
  · have := hsafe.1
    rw [h4] at this
    simp [Apart] at this

/-! ## Several resources -/

/-- The block lies in the registered region of the resource it came from. -/
def ThreadState.InRegion (s : ThreadState) (b : Block) : Prop :=
  ∃ r, s.resources[b.res]? = some r ∧ r.Registers b.ptr b.bytes

/-- The region of a resource has less than `2 ^ 32` bytes; a block that is taken from a freelist was
carved by the resource that is asked, with the bytes that are asked for. -/
def OwnBlock (s : ThreadState) : ResourceEvent → Prop
  | .construct _ capacity => capacity < 2 ^ 32
  | .alloc i bytes =>
    ∀ x ∈ reuse s.lists (slabClass (atLeast bytes 64) - kMinSlabClass) 64,
      ∃ y ∈ s.carved, y.res = i ∧ y.ptr = x.1 ∧ bytes ≤ y.bytes
  | .free _ => True

instance (s : ThreadState) : (e : ResourceEvent) → Decidable (OwnBlock s e)
  | .alloc _ bytes => inferInstanceAs (Decidable (∀ x ∈ reuse s.lists
      (slabClass (atLeast bytes 64) - kMinSlabClass) 64, ∃ y ∈ s.carved, _ ∧ _ ∧ _))
  | .construct _ capacity => inferInstanceAs (Decidable (capacity < 2 ^ 32))
  | .free _ => .isTrue trivial

/-- Every block carved is between the head and the end of its resource, and every block in use is a
part of one. -/
structure RegionInv (s : ThreadState) : Prop where
  capacity : ∀ r ∈ s.resources, r.capacity < 2 ^ 32
  head : ∀ r ∈ s.resources, r.raw ≤ r.head ∧ r.head ≤ r.raw + r.capacity
  carved : ∀ y ∈ s.carved, ∃ r, s.resources[y.res]? = some r ∧ r.head ≤ y.ptr
    ∧ y.ptr + y.bytes ≤ r.raw + r.capacity
  live : ∀ x ∈ s.live, ∃ y ∈ s.carved, y.res = x.res ∧ y.ptr = x.ptr ∧ x.bytes ≤ y.bytes

section Region

variable {s s' : ThreadState}

theorem regionInv_init (mem : Memory) : RegionInv (threadInit mem) :=
  ⟨by simp [threadInit], by simp [threadInit], by simp [threadInit], by simp [threadInit]⟩

theorem RegionInv.inRegion (H : RegionInv s) {x : Block} (hx : x ∈ s.live) : s.InRegion x := by
  obtain ⟨y, hy, h1, h2, h3⟩ := H.live x hx
  obtain ⟨r, hr, h4, h5⟩ := H.carved y hy
  have hmem := List.mem_of_getElem? hr
  have h6 := (H.head r hmem).1
  refine ⟨r, by rw [← h1]; exact hr, by omega, ?_⟩
  rw [Resource.registered_of_lt (H.capacity r hmem)]
  omega

/-- What carving a block does to its resource. -/
theorem carve_spec {r r' : Resource} {bytes ptr : ℕ}
    (hc : carve r bytes 64 = some (ptr, r')) :
    r' = { r with head := ptr } ∧ r.raw ≤ ptr ∧ ptr + bytes ≤ r.head := by
  unfold carve at hc
  simp only [] at hc
  split_ifs at hc with hlt
  simp only [Option.some.injEq, Prod.mk.injEq] at hc
  obtain ⟨hptr, rfl⟩ := hc
  have hdown : alignDown r.head 64 ≤ r.head := Nat.sub_le _ _
  refine ⟨by rw [hptr], by omega, by omega⟩

/-- A resource carves a block. -/
theorem RegionInv.carve (H : RegionInv s) {i bytes ptr : ℕ} {r r' : Resource}
    (hi : s.resources[i]? = some r) (hc : Rome.carve r (atLeast bytes 64) 64 = some (ptr, r'))
    (hb : bytes ≤ atLeast bytes 64) (h64 : 64 ≤ atLeast bytes 64) :
    RegionInv ⟨s.resources.set i r', s.lists, s.mem, ⟨i, ptr, bytes⟩ :: s.live,
      ⟨i, ptr, atLeast bytes 64⟩ :: s.carved⟩ := by
  obtain ⟨hlt, hri⟩ := List.getElem?_eq_some_iff.1 hi
  obtain ⟨h1, h2⟩ := H.head r (List.mem_of_getElem? hi)
  obtain ⟨rfl, h3, h4⟩ := carve_spec hc
  refine ⟨fun r' hr' => ?_, fun r' hr' => ?_, fun y hy => ?_, fun x hx => ?_⟩
  · rcases List.mem_or_eq_of_mem_set hr' with hr' | rfl
    · exact H.capacity r' hr'
    · exact H.capacity r (List.mem_of_getElem? hi)
  · rcases List.mem_or_eq_of_mem_set hr' with hr' | rfl
    · exact H.head r' hr'
    · exact ⟨h3, by simp only []; omega⟩
  · rcases List.mem_cons.1 hy with rfl | hy
    · exact ⟨_, List.getElem?_set_self hlt, le_rfl, by simp only []; omega⟩
    · obtain ⟨r₁, hr₁, h5, h6⟩ := H.carved y hy
      by_cases hyi : y.res = i
      · rw [hyi, hi, Option.some.injEq] at hr₁
        subst hr₁
        refine ⟨{ r with head := ptr }, ?_, by simp only []; omega, h6⟩
        rw [hyi]
        exact List.getElem?_set_self hlt
      · exact ⟨r₁, by rw [List.getElem?_set_ne (fun h => hyi h.symm)]; exact hr₁, h5, h6⟩
  · rcases List.mem_cons.1 hx with rfl | hx
    · exact ⟨_, List.mem_cons_self, rfl, rfl, hb⟩
    · obtain ⟨y, hy, h5⟩ := H.live x hx
      exact ⟨y, List.mem_cons_of_mem _ hy, h5⟩

/-- What a call of `do_allocate` does. -/
theorem threadStep_alloc {i bytes : ℕ} (hs : threadStep s (.alloc i bytes) = some s') :
    ∃ r, s.resources[i]? = some r ∧
    let idx := slabClass (atLeast bytes 64) - kMinSlabClass
    (∃ ptr t mem, reuse s.lists idx 64 = some (ptr, t) ∧ s' = ⟨s.resources, t, mem,
        ⟨i, ptr, bytes⟩ :: s.live, s.carved⟩)
      ∨ (∃ ptr r', carve r (atLeast bytes 64) 64 = some (ptr, r') ∧ s' = ⟨s.resources.set i r',
        s.lists, s.mem, ⟨i, ptr, bytes⟩ :: s.live,
        if r'.head = r.head then s.carved else ⟨i, ptr, atLeast bytes 64⟩ :: s.carved⟩)
      ∨ s' = s := by
  unfold threadStep at hs
  simp only [] at hs
  rcases hi : s.resources[i]? with _ | r
  · simp [hi] at hs
  refine ⟨r, rfl, ?_⟩
  obtain ⟨hlt, hri⟩ := List.getElem?_eq_some_iff.1 hi
  simp only [hi] at hs
  split_ifs at hs with hb
  unfold doAllocate at hs
  simp only [] at hs
  split_ifs at hs with ha
  simp only []
  rcases hr : reuse s.lists (slabClass (atLeast bytes 64) - kMinSlabClass) 64 with _ | ⟨ptr, t⟩
  · rcases hc : carve r (atLeast bytes 64) 64 with _ | ⟨ptr, r'⟩
    · simp only [hr, hc, Option.some.injEq] at hs
      exact .inr (.inr hs.symm)
    · simp only [hr, hc, Option.some.injEq] at hs
      exact .inr (.inl ⟨ptr, r', rfl, hs.symm⟩)
  · simp only [hr, if_true, Option.some.injEq] at hs
    refine .inl ⟨ptr, t, s.mem.zero ptr (1 <<< slabClass (atLeast bytes 64)), rfl, ?_⟩
    rw [← hs, ← hri, List.set_getElem_self]

theorem RegionInv.step (H : RegionInv s) {e : ResourceEvent} (hown : OwnBlock s e)
    (hs : threadStep s e = some s') : RegionInv s' := by
  cases e with
  | construct raw capacity =>
    obtain rfl := Option.some.inj hs
    have hkeep : ∀ (i : ℕ) r, s.resources[i]? = some r →
        (s.resources ++ [Resource.init raw capacity])[i]? = some r := by
      intro i r hi
      rw [List.getElem?_append_left (List.getElem?_eq_some_iff.1 hi).1]
      exact hi
    refine ⟨fun r hr => ?_, fun r hr => ?_, fun y hy => ?_, H.live⟩
    · rcases List.mem_append.1 hr with hr | hr
      · exact H.capacity r hr
      · rw [List.mem_singleton.1 hr]
        exact hown
    · rcases List.mem_append.1 hr with hr | hr
      · exact H.head r hr
      · rw [List.mem_singleton.1 hr]
        exact ⟨Nat.le_add_right _ _, le_rfl⟩
    · obtain ⟨r, hr, h1⟩ := H.carved y hy
      exact ⟨r, hkeep _ r hr, h1⟩
  | alloc i bytes =>
    have hb : bytes ≤ atLeast bytes 64 ∧ 64 ≤ atLeast bytes 64 := by
      unfold atLeast
      split_ifs <;> omega
    obtain ⟨r, hi, ⟨ptr, t, mem, hr, rfl⟩ | ⟨ptr, r', hc, rfl⟩ | rfl⟩ := threadStep_alloc hs
    · refine ⟨H.capacity, H.head, H.carved, fun x hx => ?_⟩
      rcases List.mem_cons.1 hx with rfl | hx
      · exact hown (ptr, t) hr
      · exact H.live x hx
    · obtain ⟨hr', -, h2⟩ := carve_spec hc
      have hne : ¬ r'.head = r.head := by
        rw [hr']
        simp only []
        omega
      rw [if_neg hne]
      exact H.carve hi hc hb.1 hb.2
    · exact H
  | free b =>
    unfold threadStep at hs
    simp only [] at hs
    split_ifs at hs
    obtain rfl := Option.some.inj hs
    exact ⟨H.capacity, H.head, H.carved, fun x hx => H.live x (List.mem_of_mem_erase hx)⟩

end Region

/-- In every run of resources over less than `2 ^ 32` bytes in which each block that is taken from
a freelist was carved by the resource that is asked, and with the bytes that are asked for, every
block handed out lies in the registered region of its resource. -/
theorem allocator_own_region (mem : Memory) (es : List ResourceEvent) (s : ThreadState)
    (hr : run threadStep (threadInit mem) es = some s)
    (hm : Meets threadStep OwnBlock (threadInit mem) es) : ∀ x ∈ s.live, s.InRegion x := by
  have H : RegionInv s :=
    run_inv (fun _ _ _ H hown hs => H.step hown hs) hr hm (regionInv_init mem)
  exact fun x hx => H.inRegion hx

/-- Two resources are made, and a block of the first is allocated and freed. -/
def twoPools : List ResourceEvent :=
  [.construct (2 ^ 21) 4096, .construct (2 ^ 22) 4096, .alloc 0 64, .free ⟨0, 2 ^ 21 + 4032, 64⟩]

theorem allocator_own_region_twoPools : ∃ s,
    run threadStep (threadInit fun _ => 0) (twoPools ++ [.alloc 0 64]) = some s
      ∧ s.live = [⟨0, 2 ^ 21 + 4032, 64⟩] ∧ ∀ x ∈ s.live, s.InRegion x := by
  obtain ⟨s, hs, hl⟩ := Option.map_eq_some_iff.1
    (show (run threadStep (threadInit fun _ => 0) (twoPools ++ [.alloc 0 64])).map (·.live)
      = some [⟨0, 2 ^ 21 + 4032, 64⟩] by decide +kernel)
  exact ⟨s, hs, hl, allocator_own_region (fun _ => 0) (twoPools ++ [.alloc 0 64]) s hs
    (by decide +kernel)⟩

/-- The second resource hands out the block of the first. -/
theorem twoPools_foreign : ∃ s,
    run threadStep (threadInit fun _ => 0) (twoPools ++ [.alloc 1 64]) = some s
      ∧ ∃ x ∈ s.live, x = ⟨1, 2 ^ 21 + 4032, 64⟩ ∧ ¬ s.InRegion x := by
  obtain ⟨s, hs, hl⟩ := Option.map_eq_some_iff.1
    (show (run threadStep (threadInit fun _ => 0) (twoPools ++ [.alloc 1 64])).map
      (fun s => (s.live, s.resources.map fun r => (r.raw, r.capacity)))
      = some ([⟨1, 2 ^ 21 + 4032, 64⟩], [(2 ^ 21, 4096), (2 ^ 22, 4096)]) by decide +kernel)
  simp only [Prod.mk.injEq] at hl
  refine ⟨s, hs, _, by rw [hl.1]; exact List.mem_singleton_self _, rfl, ?_⟩
  rintro ⟨r, hr, h1, -⟩
  have h2 : (s.resources.map fun r => (r.raw, r.capacity))[1]? = some (r.raw, r.capacity) := by
    rw [List.getElem?_map, hr]
    rfl
  rw [hl.2] at h2
  simp only [List.getElem?_cons_succ, List.getElem?_cons_zero, Option.some.injEq,
    Prod.mk.injEq] at h2
  simp only [] at h1
  omega

end Rome

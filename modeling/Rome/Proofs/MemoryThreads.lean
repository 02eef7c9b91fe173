import Rome.Proofs.MemoryResource

/-!
# Threads allocate blocks that are apart

To each thread the allocator is one with the thread's lists, to which the blocks of the other
threads' lists are as good as carved and lost. A block that a thread carves is below the head it has
loaded; as it is still the head when the exchange succeeds, the block is below all that is carved.
-/

namespace Rome

open Machine

variable {ι : Type*} {s s' : SharedAlloc ι}

/-- The allocator as a thread with the lists `l` sees it. -/
def SharedAlloc.view (s : SharedAlloc ι) (l : FreeLists) : AllocState :=
  ⟨s.res, l, s.mem, s.live, s.carved⟩

/-- What a thread's lists are to the allocator. -/
structure ListsOk (s : SharedAlloc ι) (l : FreeLists) : Prop where
  free : ∀ p ∈ l.blocks, ∃ y ∈ s.carved, y.1 = p
  nodup : (s.live.map Prod.fst ++ l.blocks).Nodup
  length : l.freelists.length = kNumSlabClasses

structure SharedInv (s : SharedAlloc ι) : Prop where
  core : AllocInv (s.view .init)
  lists : ∀ t, ListsOk s (s.lists t)
  disjoint : ∀ t t', t ≠ t' → List.Disjoint (s.lists t).blocks (s.lists t').blocks

theorem sharedInv_init (raw capacity : ℕ) (mem : Memory) :
    SharedInv (sharedInit raw capacity mem : SharedAlloc ι) := by
  have h := allocInv_init raw capacity mem
  exact ⟨h, fun _ => ⟨h.free, h.nodup, h.length⟩, fun _ _ _ => List.disjoint_left.mpr fun p hp =>
    absurd hp (by simp [sharedInit, FreeLists.init, FreeLists.blocks])⟩

theorem SharedInv.view (H : SharedInv s) (t : ι) : AllocInv (s.view (s.lists t)) :=
  { H.core with
    free := (H.lists t).free
    nodup := (H.lists t).nodup
    length := (H.lists t).length }

theorem view_listsOk {l : FreeLists} (h : AllocInv (s.view l)) : ListsOk s l :=
  ⟨h.free, h.nodup, h.length⟩

/-- A thread without blocks sees what the others see. -/
theorem view_init {l : FreeLists} (h : AllocInv (s.view l)) : AllocInv (s.view .init) := by
  have hblocks : FreeLists.init.blocks = [] := by simp [FreeLists.init, FreeLists.blocks]
  refine ⟨h.raw_le, h.head_le, h.region, h.apart, h.live, fun p hp => ?_, ?_,
    by simp [SharedAlloc.view, FreeLists.init]⟩
  · exact absurd (hblocks ▸ hp : p ∈ ([] : List ℕ)) List.not_mem_nil
  · have hn := (List.nodup_append.mp h.nodup).1
    simp only [SharedAlloc.view, hblocks, List.append_nil]
    exact hn

/-- Blocks and lists stay as they are. -/
theorem SharedInv.same (H : SharedInv s) (hr : s'.res = s.res) (hl : s'.lists = s.lists)
    (hlive : s'.live = s.live) (hc : s'.carved = s.carved) : SharedInv s' := by
  obtain ⟨res, lists, phase, mem, live, carved⟩ := s'
  simp only [] at hr hl hlive hc
  subst hr hl hlive hc
  exact ⟨{ H.core with }, fun t => { H.lists t with }, H.disjoint⟩

/-- A thread's exchange succeeds. -/
theorem SharedInv.carve (H : SharedInv s) {bytes ptr : ℕ} {r : Resource}
    {phase : ι → CarvePhase} (h1 : 1 ≤ bytes) (h2 : bytes ≤ 2 ^ 20)
    (hc : Rome.carve s.res (atLeast bytes 64) 64 = some (ptr, r)) :
    SharedInv { s with
      res := r
      phase := phase
      live := (ptr, bytes) :: s.live
      carved := (ptr, atLeast bytes 64) :: s.carved } := by
  obtain ⟨-, h64, -⟩ := atLeast_spec h1 h2
  obtain ⟨hhead, -, hbelow⟩ := carve_spec hc
  have hcarve : ∀ l, (s.view l).carve r.head ptr (atLeast bytes 64)
      = (ptr, atLeast bytes 64) :: s.carved := by
    intro l
    unfold AllocState.carve SharedAlloc.view
    rw [if_neg (by rw [hhead]; simp only []; omega)]
  have hview : ∀ l, AllocInv (s.view l) →
      AllocInv ⟨r, l, s.mem, (ptr, bytes) :: s.live, (ptr, atLeast bytes 64) :: s.carved⟩ := by
    intro l hl
    rw [← hcarve l]
    exact hl.carve h1 h2 hc
  exact ⟨hview _ H.core, fun t => view_listsOk (hview _ (H.view t)), H.disjoint⟩

section Step

variable [DecidableEq ι]

/-- A thread's lists change, and the other threads' lists are as they were. -/
theorem SharedInv.update {t : ι} {l : FreeLists} (H : SharedInv s)
    (hl : s'.lists = Function.update s.lists t l) (hv : AllocInv (s'.view l))
    (hne : ∀ t' ≠ t, ListsOk s' (s.lists t') ∧ List.Disjoint l.blocks (s.lists t').blocks) :
    SharedInv s' := by
  have hself : s'.lists t = l := by rw [hl, Function.update_self]
  have hother : ∀ t' ≠ t, s'.lists t' = s.lists t' := fun t' h => by
    rw [hl, Function.update_of_ne h]
  refine ⟨view_init hv, fun t' => ?_, fun t₁ t₂ h => ?_⟩
  · by_cases ht : t' = t
    · rw [ht, hself]
      exact view_listsOk hv
    · rw [hother t' ht]
      exact (hne t' ht).1
  · by_cases h1 : t₁ = t
    · have h2 : t₂ ≠ t := fun h2 => h (h1.trans h2.symm)
      rw [h1, hself, hother t₂ h2]
      exact (hne t₂ h2).2
    · by_cases h2 : t₂ = t
      · rw [h2, hself, hother t₁ h1]
        exact (hne t₁ h1).2.symm
      · rw [hother t₁ h1, hother t₂ h2]
        exact H.disjoint t₁ t₂ h

/-- A thread takes a block from its lists. -/
theorem SharedInv.reuse (H : SharedInv s) {t : ι} {bytes ptr : ℕ} {l : FreeLists} {mem : Memory}
    (h1 : 1 ≤ bytes) (h2 : bytes ≤ 2 ^ 20)
    (hr : Rome.reuse (s.lists t) (slabClass (atLeast bytes 64) - kMinSlabClass) 64
      = some (ptr, l))
    (hroom : ∃ y ∈ s.carved, y.1 = ptr ∧ 1 <<< slabClass (atLeast bytes 64) ≤ y.2) :
    SharedInv { s with
      lists := Function.update s.lists t l
      mem := mem
      live := (ptr, bytes) :: s.live } := by
  have hv : AllocInv ⟨s.res, l, mem, (ptr, bytes) :: s.live, s.carved⟩ :=
    (H.view t).reuse h1 h2 hr hroom
  have hperm := reuse_perm hr
  have hptr : ptr ∈ (s.lists t).blocks := hperm.mem_iff.mpr List.mem_cons_self
  refine H.update rfl hv fun t' ht => ⟨⟨(H.lists t').free, ?_, (H.lists t').length⟩, ?_⟩
  · refine List.nodup_cons.mpr ⟨fun hm => ?_, (H.lists t').nodup⟩
    rcases List.mem_append.mp hm with hm | hm
    · exact (List.nodup_append.mp (H.lists t).nodup).2.2 ptr hm ptr hptr rfl
    · exact H.disjoint t t' (Ne.symm ht) hptr hm
  · exact fun p hp => H.disjoint t t' (Ne.symm ht)
      (hperm.mem_iff.mpr (List.mem_cons_of_mem _ hp))

/-- A thread frees a block in use. -/
theorem SharedInv.dealloc (H : SharedInv s) {t : ι} {ptr bytes : ℕ}
    (hl : (ptr, bytes) ∈ s.live) :
    SharedInv { s with
      lists := Function.update s.lists t (doDeallocate (s.lists t) ptr bytes 64)
      live := s.live.erase (ptr, bytes) } := by
  have hv := (H.view t).dealloc hl
  obtain ⟨h1, h2, -⟩ := H.core.live _ hl
  have hidx : slabClass bytes - kMinSlabClass < (s.lists t).freelists.length := by
    rw [(H.lists t).length]
    exact (slabClass_spec h1 h2).1
  have hperm := doDeallocate_perm ptr 64 hidx
  refine H.update rfl hv fun t' ht => ⟨⟨(H.lists t').free, ?_, (H.lists t').length⟩, ?_⟩
  · exact (H.lists t').nodup.sublist ((List.erase_sublist.map Prod.fst).append_right _)
  · intro p hp hp'
    rcases List.mem_cons.mp (hperm.mem_iff.mp hp) with rfl | hp
    · exact (List.nodup_append.mp (H.lists t').nodup).2.2 p (List.mem_map_of_mem hl) p hp' rfl
    · exact H.disjoint t t' (Ne.symm ht) hp hp'

/-- The calls in the loop are for up to `2 ^ 20` bytes. -/
def PhasesOk (s : SharedAlloc ι) : Prop :=
  ∀ t bytes e, s.phase t = .carving bytes e → 1 ≤ bytes ∧ bytes ≤ 2 ^ 20

theorem PhasesOk.goto (h : PhasesOk s) (t : ι) {ph : CarvePhase}
    (hph : ∀ bytes e, ph = .carving bytes e → 1 ≤ bytes ∧ bytes ≤ 2 ^ 20) :
    PhasesOk (s.goto t ph) := by
  intro t' bytes e ht
  unfold SharedAlloc.goto at ht
  simp only [Function.update_apply] at ht
  split_ifs at ht
  · exact hph bytes e ht
  · exact h t' bytes e ht

theorem PhasesOk.goto_idle (h : PhasesOk s) (t : ι) : PhasesOk (s.goto t .idle) :=
  h.goto t fun _ _ h => absurd h (by simp)

/-- A block that is taken from a freelist was carved with all the bytes of its slab class. -/
def SharedRoomy (s : SharedAlloc ι) : SharedEvent ι → Prop
  | .alloc t bytes => Roomy (s.view (s.lists t)) (.alloc bytes)
  | _ => True

instance (s : SharedAlloc ι) : (e : SharedEvent ι) → Decidable (SharedRoomy s e)
  | .alloc t bytes => inferInstanceAs (Decidable (Roomy (s.view (s.lists t)) (.alloc bytes)))
  | .exchange _ => .isTrue trivial
  | .free _ _ _ => .isTrue trivial
  | .store _ _ => .isTrue trivial

/-- What a step does to the blocks, and that it touches none in use unless it is a store. -/
theorem SharedInv.step (H : SharedInv s) (hp : PhasesOk s) {e : SharedEvent ι}
    (hroom : SharedRoomy s e) (hs : sharedStep s e = some s') :
    SharedInv s' ∧ PhasesOk s' ∧ ((∀ a v, e ≠ .store a v) →
      Untouched (s.view .init) (s'.view .init)) := by
  cases e with
  | alloc t bytes =>
    simp only [sharedStep] at hs
    split_ifs at hs with hb
    obtain ⟨-, h1, h2, -⟩ := hb
    split at hs
    · rename_i ptr l hr
      obtain rfl := Option.some.inj hs
      refine ⟨H.reuse h1 h2 hr (hroom (ptr, l) hr), hp, fun _ x hx a ha ha' => ?_⟩
      exact (H.view t).untouched_zero hroom hr hx ha ha'
    · obtain rfl := Option.some.inj hs
      refine ⟨H.same rfl rfl rfl rfl, hp.goto t fun bytes' e h => ?_, fun _ x _ a _ _ => rfl⟩
      obtain ⟨rfl, -⟩ := CarvePhase.carving.inj h
      exact ⟨h1, h2⟩
  | exchange t =>
    simp only [sharedStep] at hs
    split at hs
    · cases hs
    · rename_i bytes e hph
      obtain ⟨h1, h2⟩ := hp t bytes e hph
      split at hs
      · obtain rfl := Option.some.inj hs
        exact ⟨H.same rfl rfl rfl rfl, hp.goto_idle t, fun _ x _ a _ _ => rfl⟩
      · rename_i ptr r hc
        split_ifs at hs with he
        · obtain rfl := Option.some.inj hs
          subst he
          exact ⟨H.carve h1 h2 hc, hp.goto_idle t, fun _ x _ a _ _ => rfl⟩
        · obtain rfl := Option.some.inj hs
          refine ⟨H.same rfl rfl rfl rfl, hp.goto t fun bytes' e h => ?_, fun _ x _ a _ _ => rfl⟩
          obtain ⟨rfl, -⟩ := CarvePhase.carving.inj h
          exact ⟨h1, h2⟩
  | free t ptr bytes =>
    simp only [sharedStep] at hs
    split_ifs at hs with hl
    obtain rfl := Option.some.inj hs
    exact ⟨H.dealloc hl.2, hp, fun _ x _ a _ _ => rfl⟩
  | store a v =>
    simp only [sharedStep] at hs
    split_ifs at hs
    obtain rfl := Option.some.inj hs
    exact ⟨H.same rfl rfl rfl rfl, hp, fun h => absurd rfl (h a v)⟩

/-- Any number of threads allocate from one resource, and free what they or others have allocated.
Where each block that is taken from a freelist was carved with all the bytes of its slab class, the
blocks in use are in the region and apart from each other in every interleaving, and no step of the
allocator touches them. -/
theorem allocator_threads_safe (raw capacity : ℕ) (mem : Memory) (es : List (SharedEvent ι))
    (s : SharedAlloc ι) (hr : run sharedStep (sharedInit raw capacity mem) es = some s)
    (hm : Meets sharedStep SharedRoomy (sharedInit raw capacity mem) es) :
    Safe (s.view .init) ∧ ∀ e s', SharedRoomy s e → (∀ a v, e ≠ .store a v) →
      sharedStep s e = some s' → Untouched (s.view .init) (s'.view .init) := by
  obtain ⟨H, hp⟩ : SharedInv s ∧ PhasesOk s :=
    run_inv (I := fun s => SharedInv s ∧ PhasesOk s)
      (fun _ _ _ H hroom hs => (H.1.step H.2 hroom hs).imp_right And.left) hr hm
      ⟨sharedInv_init raw capacity mem, fun _ _ _ h => by cases h⟩
  exact ⟨H.core.safe, fun e s' hroom hne hs => (H.step hp hroom hs).2.2 hne⟩

end Step

section Alone

variable [DecidableEq ι] {t : ι} {bytes : ℕ}

theorem sharedStep_reuse {ptr : ℕ} {l : FreeLists} (ht : s.phase t = .idle) (h1 : 1 ≤ bytes)
    (h2 : bytes ≤ 2 ^ 20) (hr : reuse (s.lists t) (slabClass (atLeast bytes 64) - kMinSlabClass) 64
      = some (ptr, l)) :
    sharedStep s (.alloc t bytes) = some { s with
      lists := Function.update s.lists t l
      mem := s.mem.zero ptr (1 <<< slabClass (atLeast bytes 64))
      live := (ptr, bytes) :: s.live } := by
  unfold sharedStep
  simp only []
  rw [if_pos ⟨ht, h1, h2, checked_of_reuse hr⟩]
  simp only [hr]

theorem sharedStep_load (ht : s.phase t = .idle) (h1 : 1 ≤ bytes) (h2 : bytes ≤ 2 ^ 20)
    (hc : (s.lists t).checked (slabClass (atLeast bytes 64) - kMinSlabClass) 64 = true)
    (hr : reuse (s.lists t) (slabClass (atLeast bytes 64) - kMinSlabClass) 64 = none) :
    sharedStep s (.alloc t bytes) = some (s.goto t (.carving bytes s.res.head)) := by
  unfold sharedStep
  simp only []
  rw [if_pos ⟨ht, h1, h2, hc⟩]
  simp only [hr]

/-- The head is the one that the thread has loaded. -/
theorem sharedStep_exchange (ht : s.phase t = .carving bytes s.res.head) :
    sharedStep s (.exchange t) = some (match carve s.res (atLeast bytes 64) 64 with
      | none => s.goto t .idle
      | some (ptr, r) => { s.goto t .idle with
          res := r
          live := (ptr, bytes) :: s.live
          carved := (ptr, atLeast bytes 64) :: s.carved }) := by
  unfold sharedStep
  simp only [ht, if_true]
  cases carve s.res (atLeast bytes 64) 64 <;> rfl

/-- A thread that is alone does what `do_allocate` does. -/
theorem sharedStep_alone {p : Option ℕ} {r : Resource} {l : FreeLists} {mem : Memory}
    (ht : s.phase t = .idle) (h1 : 1 ≤ bytes) (h2 : bytes ≤ 2 ^ 20)
    (hd : doAllocate s.res (s.lists t) s.mem bytes 64 = some (p, r, l, mem)) :
    ∃ es s', run sharedStep s es = some s' ∧ s'.res = r ∧ s'.lists = Function.update s.lists t l ∧
      s'.phase = s.phase ∧ s'.mem = mem ∧
      s'.live = (p.map fun ptr => (ptr, bytes)).toList ++ s.live := by
  have hlists : s.lists = Function.update s.lists t (s.lists t) :=
    (Function.update_eq_self ..).symm
  have hidle : ∀ ph, Function.update (Function.update s.phase t ph) t .idle = s.phase := by
    intro ph
    rw [Function.update_idem, ← ht, Function.update_eq_self]
  simp only [doAllocate] at hd
  split_ifs at hd with ha
  rcases hr : Rome.reuse (s.lists t) (slabClass (atLeast bytes 64) - kMinSlabClass) 64
    with _ | ⟨ptr, l'⟩
  · have hload := sharedStep_load ht h1 h2 ha.2.2 hr
    have hexchange := sharedStep_exchange (s := s.goto t (.carving bytes s.res.head))
      (Function.update_self ..)
    have hrun : run sharedStep s [.alloc t bytes, .exchange t]
        = sharedStep (s.goto t (.carving bytes s.res.head)) (.exchange t) := by
      rw [run_cons hload, run_singleton]
    rcases hc : Rome.carve s.res (atLeast bytes 64) 64 with _ | ⟨ptr, r'⟩
    all_goals
      simp only [hr, hc, Option.some.injEq, Prod.mk.injEq] at hd
      obtain ⟨rfl, rfl, rfl, rfl⟩ := hd
      exact ⟨_, _, hrun.trans hexchange, by simp only [SharedAlloc.goto, hc],
        by simpa only [SharedAlloc.goto, hc] using hlists,
        by simpa only [SharedAlloc.goto, hc] using hidle _,
        by simp only [SharedAlloc.goto, hc], by simp only [SharedAlloc.goto, hc]; rfl⟩
  · simp only [hr, Option.some.injEq, Prod.mk.injEq] at hd
    obtain ⟨rfl, rfl, rfl, rfl⟩ := hd
    exact ⟨_, _, (run_singleton _).trans (sharedStep_reuse ht h1 h2 hr), rfl, rfl, rfl, rfl, rfl⟩

end Alone

/-- Two threads load the same head, and the second carves its block below that of the first; then it
frees the first one's block, and is given it for a request of its own. -/
def contendedRun : List (SharedEvent (Fin 2)) :=
  [.alloc 0 64, .alloc 1 100, .exchange 0, .exchange 1, .exchange 1,
    .free 1 (2 ^ 21 + 4096 - 64) 64, .alloc 1 64]

theorem allocator_threads_safe_contendedRun : ∃ s,
    run sharedStep (sharedInit (2 ^ 21) 4096 fun _ => 1) contendedRun = some s ∧
      Safe (s.view .init) := by
  obtain ⟨s, hs⟩ := Option.isSome_iff_exists.1
    (show (run sharedStep (sharedInit (2 ^ 21) 4096 fun _ => 1) contendedRun).isSome by
      decide +kernel)
  exact ⟨s, hs, (allocator_threads_safe (2 ^ 21) 4096 (fun _ => 1) contendedRun s hs
    (by decide +kernel)).1⟩

end Rome

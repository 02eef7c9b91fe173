import Rome.Proofs.IhtStep
import Rome.Proofs.IhtCache

/-!
# The steps that leave the map as it is

A P-List is read when it is entered, or a copy stands for what a read would return (`Reads`);
without a cache it is always read. The calls and returns, the descent, the taking of a bucket's lock
and the unlocks change no bucket of the trie. A client that takes the lock of a bucket finds there
the E-List its snapshot names, unless the snapshot has the bucket empty.
-/

namespace Rome

open HashTrie Lin

variable {ι K V : Type*}

/-- A P-List that client `i`'s next step enters has the buckets that a read of it returns. -/
def Reads (C : IhtCfg ι K) (s : IhtState ι K V) (i : ι) : Prop :=
  ∀ ptr d path, s.entering C i = some (ptr, d, path) →
    ((s.client i).enter C.toIhtParams (C.cacheDepth i) s.heap ptr d path).1.buckets =
      Rome.extendedRead C.toIhtParams s.heap ptr (2 ^ d)

theorem reads_none {C : IhtCfg ι K} {i : ι} (hc : C.cacheDepth i = .none) (s : IhtState ι K V) :
    Reads C s i := by
  intro ptr d path _
  rw [hc, enter_none]
  rfl

/-- What a client enters depends on its cache only. -/
theorem Client.enter_buckets {P : IhtParams K} {depth : CacheDepth} {c c' : Client K V}
    {h : Heap K V} {ptr : RemotePtr} {d : ℕ} {path : List ℤ} (hc : c'.cache = c.cache) :
    (c'.enter P depth h ptr d path).1.buckets = (c.enter P depth h ptr d path).1.buckets := by
  unfold Client.enter
  rw [hc]
  split <;> rfl

variable [DecidableEq ι]

theorem IhtState.put_client (s : IhtState ι K V) (i : ι) (c : Client K V) :
    s.put i { heap := s.heap, client := c }
      = { s with client := Function.update s.client i c } := by
  simp [IhtState.put]

theorem IhtState.put_heap (s : IhtState ι K V) (i : ι) (h : Heap K V) (c : Client K V) :
    s.put i { heap := h, client := c } = { s with
      heap := h, posted := s.posted, client := Function.update s.client i c, hist := s.hist } := by
  simp [IhtState.put]

variable [DecidableEq K] {C : IhtCfg ι K} {s : IhtState ι K V} {T : Trie RemotePtr K V}
  {m : K → Option V} {st : ℕ → Status (Op K V) (Option V)} {i : ι} {n : ℕ} {op : Op K V} {ctx : Ctx}

theorem SimAt.invoke (H : SimAt C s T m st) (hph : (s.client i).phase = .idle) :
    SimAt C { s with
      client := Function.update s.client i { s.client i with phase := .start s.calls op }
      calls := s.calls + 1
      hist := s.hist ++ [.inv s.calls op] } T m
        (Function.update st s.calls (.pending op none)) := by
  have hfresh := H.call.fresh s.calls le_rfl
  have hheld : ∀ j, (Function.update s.client i { s.client i with phase := .start s.calls op }
      j).phase.held = (s.client j).phase.held := fun j =>
    phase_update Phase.held (by rw [hph]; rfl) j
  have hmade : ∀ j, (Function.update s.client i { s.client i with phase := .start s.calls op }
      j).phase.made = (s.client j).phase.made := fun j =>
    phase_update Phase.made (by rw [hph]; rfl) j
  have hcall : ∀ j k, (Function.update s.client i { s.client i with phase := .start s.calls op }
      j).phase.call = some k → j = i ∧ k = s.calls ∨ j ≠ i ∧ (s.client j).phase.call = some k := by
    intro j k hj
    by_cases hji : j = i
    · subst hji
      rw [Function.update_self] at hj
      exact .inl ⟨rfl, (Option.some.inj hj).symm⟩
    · rw [Function.update_of_ne hji] at hj
      exact .inr ⟨hji, hj⟩
  refine ⟨H.rep, H.atomic.invoke op hfresh, ?_, H.lock.congr hheld, fun j => ?_, ⟨?_, ?_, ?_⟩,
    fun j k ptr hj hk => H.made j k ptr (by rw [← hmade]; exact hj) (by rw [← hmade]; exact hk)⟩
  · exact H.heap.congr fun p b ⟨j, hj⟩ =>
      ⟨j, by rwa [phase_update Phase.moving (by rw [hph]; rfl)]⟩
  · by_cases hji : j = i
    · subst hji
      simp only [Function.update_self]
      exact ⟨none, by simp⟩
    · simp only [Function.update_of_ne hji]
      refine (H.phase j).mono (Trie.Le.refl T) (fun _ _ _ => ⟨rfl, rfl⟩) (fun _ _ _ _ _ => rfl)
        (fun _ _ => ⟨rfl, id⟩) fun k hk => Function.update_of_ne ?_ _ _
      have := H.call.lt j k hk
      omega
  · intro j k l hj hk
    rcases hcall j l hj with ⟨hj₁, hl⟩ | ⟨-, hj₁⟩ <;> rcases hcall k l hk with ⟨hk₁, hl'⟩ | ⟨-, hk₁⟩
    · rw [hj₁, hk₁]
    · rw [hl] at hk₁
      exact absurd (H.call.lt k _ hk₁) (lt_irrefl _)
    · rw [hl'] at hj₁
      exact absurd (H.call.lt j _ hj₁) (lt_irrefl _)
    · exact H.call.inj j k l hj₁ hk₁
  · intro j k hj
    rcases hcall j k hj with ⟨-, rfl⟩ | ⟨-, hj⟩
    · exact Nat.lt_succ_self _
    · exact (H.call.lt j k hj).trans (Nat.lt_succ_self _)
  · intro k hk
    have hk' : k ≠ s.calls := by
      simp only [] at hk
      omega
    rw [Function.update_of_ne hk']
    exact H.call.fresh k (by simp only [] at hk; omega)

/-- A client takes a snapshot of the P-List it has come to on the way of its key. -/
theorem SimAt.snapshot (H : SimAt C s T m st) {seen : Option (Option V)} {c : Client K V}
    (hn : st n = .pending op seen) (hcall : (s.client i).phase.call = some n)
    (hheld : (s.client i).phase.held = none) (hmoving : (s.client i).phase.moving = none)
    (hmade : (s.client i).phase.made = none) (hc : c.phase = .head n op ctx)
    (hp : OnPath (bucketOf C.toIhtParams) C.root T op.key ctx.parent ctx.depth)
    (hcount : ctx.count = C.buckets ctx.depth)
    (hread : ctx.curr.buckets =
      Rome.extendedRead C.toIhtParams s.heap ctx.parent (2 ^ (ctx.depth - 1))) :
    ∃ st', SimAt C { s with client := Function.update s.client i c } T m st' := by
  obtain ⟨st', hA, hst, hsn⟩ := H.observe hp hread hn
  refine ⟨st', H.client hA (fun k hk => hst k ?_) ?_ ?_ ?_ ?_ ?_⟩
  · rintro rfl
    exact hk hcall
  · rw [hc, hheld]
    rfl
  · rw [hc, hmoving]
    rfl
  · rw [hc, hmade]
    rfl
  · rw [hc, hcall]
    rfl
  · rw [hc]
    exact ⟨hsn, H.ctxRel hp hcount hread⟩

theorem SimAt.start (H : SimAt C s T m st) (hr : Reads C s i)
    (hph : (s.client i).phase = .start n op) :
    ∃ st', SimAt C (s.put i (doWithStart C i s.heap (s.client i) n op)) T m st' := by
  have hP := H.phase i
  rw [hph] at hP
  obtain ⟨seen, hn⟩ := hP
  have hread := hr C.root 0 (List.replicate 8 (-1)) (by simp only [IhtState.entering, hph])
  simp only [doWithStart, IhtState.put_client]
  refine H.snapshot hn (by rw [hph]; rfl) (by rw [hph]; rfl) (by rw [hph]; rfl) (by rw [hph]; rfl)
    rfl .root ?_ hread
  exact C.buckets_one.symm

theorem SimAt.refetch (H : SimAt C s T m st) (hph : (s.client i).phase = .refetch n op ctx) :
    ∃ st', SimAt C (s.put i (doWithRefetch C s.heap (s.client i) n op ctx)) T m st' := by
  have hP := H.phase i
  rw [hph] at hP
  obtain ⟨⟨seen, hn, -⟩, hrel⟩ := hP
  simp only [doWithRefetch, Client.read, IhtState.put_client]
  exact H.snapshot hn (by rw [hph]; rfl) (by rw [hph]; rfl) (by rw [hph]; rfl) (by rw [hph]; rfl)
    rfl hrel.path hrel.count rfl

/-- Down into the P-List the snapshot's bucket leads to. -/
theorem SimAt.descend (H : SimAt C s T m st) (hr : Reads C s i)
    (hph : (s.client i).phase = .head n op ctx)
    (hlock : (bucketAt ctx.curr.buckets (levelHash C.toIhtParams op.key ctx.depth ctx.count)).lock
      = pUnlocked) :
    ∃ st', SimAt C (s.put i (doWithHead C i s.heap (s.client i) n op ctx)) T m st' := by
  have hP := H.phase i
  rw [hph] at hP
  obtain ⟨⟨seen, hn, -⟩, hrel⟩ := hP
  generalize hb : levelHash C.toIhtParams op.key ctx.depth ctx.count = b at hlock
  have hread := hr (bucketAt ctx.curr.buckets b).base ctx.depth (ctx.path.set (ctx.depth - 1) b) (by
    simp only [IhtState.entering, hph, hb]
    rw [if_pos hlock])
  rw [← Client.enter_buckets (Client.deallocate_cache _ ctx.curr)] at hread
  rw [doWithHead_down hb.symm hlock]
  simp only [IhtState.put_client]
  refine H.snapshot hn (by rw [hph]; rfl) (by rw [hph]; rfl) (by rw [hph]; rfl) (by rw [hph]; rfl)
    rfl ?_ ?_ hread
  · have hs := hrel.down _ hlock
    refine .child hrel.path ?_
    rw [bucketOf, ← hrel.count, hb]
    exact hs
  · simp only []
    rw [hrel.count, C.buckets_succ hrel.path.one_le]

omit [DecidableEq ι] in
/-- A bucket that is held but not moving has the pointer the trie says. -/
theorem SimAt.base_of_held (H : SimAt C s T m st) {p : RemotePtr} {b : ℕ}
    (hheld : (s.client i).phase.held = some (p, b)) (hmv : (s.client i).phase.moving = none) :
    (s.heap.bucket p b).base = slotPtr (T.slot p b) := by
  refine H.heap.base p b ?_
  rintro ⟨j, hj⟩
  obtain rfl := H.lock.excl j i p b (Phase.held_of_moving hj) hheld
  rw [hmv] at hj
  cases hj

omit [DecidableEq ι] in
theorem SimAt.not_moving (H : SimAt C s T m st) {p : RemotePtr} {b : ℕ}
    (hl : (s.heap.bucket p b).lock ≠ eLocked) : ¬ ∃ i, (s.client i).phase.moving = some (p, b) := by
  rintro ⟨j, hj⟩
  exact hl (H.lock.held j p b (Phase.held_of_moving hj))

omit [DecidableEq K] in
/-- The buckets that move, after a client's step that moves none. -/
theorem moving_update {f : ι → Client K V} {c : Client K V} {p : RemotePtr} {b : ℕ}
    (hc : (f i).phase.moving = none) (hj : ∃ j, (f j).phase.moving = some (p, b)) :
    ∃ j, (Function.update f i c j).phase.moving = some (p, b) := by
  obtain ⟨j, hj⟩ := hj
  have hji : j ≠ i := by
    rintro rfl
    rw [hc] at hj
    cases hj
  exact ⟨j, by rwa [Function.update_of_ne hji]⟩

theorem SimAt.acquire (H : SimAt C s T m st) (hph : (s.client i).phase = .head n op ctx)
    {b : ℕ} (hb : b = levelHash C.toIhtParams op.key ctx.depth ctx.count)
    (hdown : (bucketAt ctx.curr.buckets b).lock ≠ pUnlocked)
    (hfree : (s.heap.bucket ctx.parent b).lock = eUnlocked)
    (hok : op.isInsert = true → (bucketAt ctx.curr.buckets b).base = .null →
      (s.heap.bucket ctx.parent b).base = .null) {path : List ℤ} :
    SimAt C { s with
      heap := s.heap.setBucket ctx.parent b { s.heap.bucket ctx.parent b with lock := eLocked }
      client := Function.update s.client i
        { s.client i with phase := .locked n op { ctx with bucket := b, path := path } } } T m
      st := by
  have hP := H.phase i
  rw [hph] at hP
  obtain ⟨hseen, hrel⟩ := hP
  have hbk : b = bucketOf C.toIhtParams op.key ctx.depth := by rw [hb, bucketOf, hrel.count]
  have hhas : s.heap.Has ctx.parent b := Heap.has_of_isLock (.inr (.inl hfree))
  have hnl : (s.heap.bucket ctx.parent b).lock ≠ eLocked := by
    rw [hfree]
    exact eLocked_ne_eUnlocked.symm
  have hnode : ∀ q, T.slot ctx.parent b ≠ .node q := by
    intro q hq
    rcases H.heap.lock _ _ hhas with h1 | ⟨-, h1⟩ | ⟨h1, -⟩
    · exact hnl h1
    · exact h1 q hq
    · exact absurd (hfree.symm.trans h1) eUnlocked_ne_pUnlocked
  have hbase := H.heap.base ctx.parent b (H.not_moving hnl)
  have hlock : ∀ p' b', (s.heap.bucket p' b').lock = eLocked → ((s.heap.setBucket ctx.parent b
      { s.heap.bucket ctx.parent b with lock := eLocked }).bucket p' b').lock = eLocked := by
    intro p' b' hl
    by_cases hpb : p' = ctx.parent ∧ b' = b
    · rw [hpb.1, hpb.2, Heap.bucket_setBucket_self hhas]
    · rw [Heap.bucket_setBucket_ne hpb]
      exact hl
  have hbases : ∀ p' b', ((s.heap.setBucket ctx.parent b
      { s.heap.bucket ctx.parent b with lock := eLocked }).bucket p' b').base
      = (s.heap.bucket p' b').base := by
    intro p' b'
    by_cases hpb : p' = ctx.parent ∧ b' = b
    · rw [hpb.1, hpb.2, Heap.bucket_setBucket_self hhas]
    · rw [Heap.bucket_setBucket_ne hpb]
  refine H.step H.rep H.atomic ?_ ?_ ?_ (Trie.Le.refl T) (fun _ _ p' b' _ => ⟨rfl, hbases p' b'⟩)
    (fun _ _ _ _ _ _ _ => rfl) (fun j _ ptr _ => ⟨rfl, by simp [Phase.made], id⟩)
    (fun _ _ => rfl) fun k hk => ?_
  · exact H.heap.setBucket_self hhas
      (fun p' b' _ hm => moving_update (by rw [hph]; rfl) hm) (fun _ => hbase) (.inl rfl)
  · refine H.lock.acquire (i := i) hnl ?_ hlock (by simp [Phase.held]) fun j hji => ?_
    · rw [Heap.bucket_setBucket_self hhas]
    · simp only [Function.update_of_ne hji]
  · refine ⟨hseen, ⟨⟨hrel.path, hrel.count, hrel.length, hrel.down, hrel.up⟩, hbk⟩, fun hne => ?_,
      fun hnull hop => ?_, hnode⟩
    · rcases hrel.up b hdown with h1 | h1 | ⟨q, h1⟩
      · exact absurd h1 hne
      · exact h1
      · exact absurd h1 (hnode q)
    · exact (H.bucket ctx.parent b).2.2.1 (hok hop hnull)
  · rw [hph]
    exact hk

/-- A client posts the unlock of its bucket, and returns or goes on. -/
theorem SimAt.unlock (H : SimAt C s T m st) {status : UInt64} {r : Option V}
    (hph : (s.client i).phase = .unlock n op ctx status r) :
    SimAt C (s.put i (doWithUnlock s.heap (s.client i) n op ctx status r)) T m st := by
  have hP := H.phase i
  rw [hph] at hP
  obtain ⟨⟨hrel, hbk⟩, hcase⟩ := hP
  have hheld : (s.client i).phase.held = some (ctx.parent, ctx.bucket) := by
    rw [hph]
    rfl
  have hphase : ∃ ph, (doWithUnlock s.heap (s.client i) n op ctx status r).client.phase = ph
      ∧ ph.held = none ∧ ph.made = none ∧ ph.call = some n
      ∧ PhaseRel C.toIhtParams C.root s.heap T st ph := by
    rcases hcase with ⟨rfl, h1, -⟩ | ⟨rfl, ⟨seen, h1⟩, hop, -⟩
    · refine ⟨.ret n op r, ?_, rfl, rfl, rfl, h1⟩
      simp [doWithUnlock]
    · refine ⟨.head n op ctx, ?_, rfl, rfl, rfl, ⟨seen, h1, fun h2 => ?_⟩, hrel⟩
      · simp [doWithUnlock, eUnlocked_ne_pUnlocked.symm]
      · rw [hop] at h2
        cases h2
  obtain ⟨ph, hc, h1, h2, h3, h4⟩ := hphase
  have hs : (status = eUnlocked ∧ ∀ q, T.slot ctx.parent ctx.bucket ≠ .node q)
      ∨ (status = pUnlocked ∧ ∃ q, T.slot ctx.parent ctx.bucket = .node q) := by
    rcases hcase with ⟨rfl, -, h5⟩ | ⟨rfl, -, -, h5⟩
    · exact .inl ⟨rfl, h5⟩
    · exact .inr ⟨rfl, h5⟩
  simp only [IhtState.put]
  refine H.step H.rep (by simpa [doWithUnlock] using H.atomic) ?_ ?_ (by rw [hc]; exact h4)
    (Trie.Le.refl T) (fun _ _ _ _ _ => ⟨rfl, rfl⟩) (fun _ _ _ _ _ _ _ => rfl)
    (fun j _ ptr _ => ⟨rfl, by rw [hc, h2]; simp, id⟩) (fun _ _ => rfl) fun k hk => ?_
  · exact H.heap.congr fun p b hm => moving_update (by rw [hph]; rfl) hm
  · refine H.lock.post (i := i) hheld ?_ (fun j hji => ?_) hs
    · simp only [Function.update_self, hc, h1]
    · simp only [Function.update_of_ne hji]
  · rw [hc, h3] at hk
    rw [hph]
    exact hk

theorem SimAt.ret (H : SimAt C s T m st) {r : Option V}
    (hph : (s.client i).phase = .ret n op r) :
    SimAt C (s.put i { heap := s.heap, client := { s.client i with phase := .idle },
                       result := some (n, r) }) T m (Function.update st n .returned) := by
  have hP := H.phase i
  rw [hph] at hP
  simp only [IhtState.put]
  refine H.step H.rep (H.atomic.respond hP) ?_ ?_ trivial (Trie.Le.refl T)
    (fun _ _ _ _ _ => ⟨rfl, rfl⟩) (fun _ _ _ _ _ _ _ => rfl)
    (fun j _ ptr _ => ⟨rfl, by simp [Phase.made], id⟩) (fun k hk => Function.update_of_ne ?_ _ _)
    fun k hk => ?_
  · exact H.heap.congr fun p b hm => moving_update (by rw [hph]; rfl) hm
  · simp only [Option.toList_none, List.append_nil]
    exact H.lock.congr fun j => phase_update Phase.held (by rw [hph]; rfl) j
  · rintro rfl
    exact hk (by rw [hph]; rfl)
  · simp [Phase.call] at hk

omit [DecidableEq ι] in
theorem SimAt.deliver (H : SimAt C s T m st) {w : Posted} (hw : s.posted[n]? = some w) :
    SimAt C { s with
      heap := s.heap.setBucket w.ptr w.bucket { s.heap.bucket w.ptr w.bucket with lock := w.status }
      posted := s.posted.eraseIdx n } T m st := by
  have hmem : w ∈ s.posted := List.mem_of_getElem? hw
  have hhas : s.heap.Has w.ptr w.bucket :=
    Heap.has_of_isLock (.inl (H.lock.sent w hmem))
  have hbase : (s.heap.bucket w.ptr w.bucket).base = slotPtr (T.slot w.ptr w.bucket) := by
    refine H.heap.base _ _ ?_
    rintro ⟨j, hj⟩
    exact H.lock.apart j w hmem (Phase.held_of_moving hj)
  refine ⟨H.rep, H.atomic, ?_, H.lock.deliver hw, fun j => ?_, H.call, H.made⟩
  · exact H.heap.setBucket_self hhas (fun _ _ _ => id) (fun _ => hbase)
      (.inr (H.lock.status w hmem))
  · refine (H.phase j).mono (Trie.Le.refl T) (fun p b hj => ⟨rfl, ?_⟩) (fun _ _ _ _ _ => rfl)
      (fun _ _ => ⟨rfl, id⟩) fun _ _ => rfl
    rw [Heap.bucket_setBucket_ne fun heq => H.lock.apart j w hmem (by rw [hj, heq.1, heq.2])]

end Rome

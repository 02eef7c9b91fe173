import Rome.Proofs.IhtInv

/-!
# One step of the table

Every event of the table keeps the trie, the locks and what the clients know (`SimAt`), provided
no insert takes the lock of a bucket that its snapshot has empty and that is not (`Fresh`). A call
is taken when its client reads the E-List and will not write it, when it writes the E-List, or when
it links a new one; a reader that locked a bucket its snapshot has empty answers as of the snapshot.
-/

namespace Rome

open HashTrie Lin

variable {ι K V : Type*}

section Congr

variable {P : IhtParams K} {root : RemotePtr} {h : Heap K V} {T : Trie RemotePtr K V}

theorem HeapRel.congr {mv mv' : RemotePtr → ℕ → Prop} (H : HeapRel P root h mv T)
    (hmv : ∀ p b, mv p b → mv' p b) : HeapRel P root h mv' T :=
  { H with base := fun p b hn => H.base p b fun hm => hn (hmv p b hm) }

theorem LockRel.keep {h' : Heap K V} {T' : Trie RemotePtr K V} {ph ph' : ι → Phase K V}
    {posted : List Posted} (H : LockRel h ph posted T)
    (hl : ∀ p b, (h.bucket p b).lock = eLocked → (h'.bucket p b).lock = eLocked)
    (hT : ∀ w ∈ posted, T'.slot w.ptr w.bucket = T.slot w.ptr w.bucket)
    (hh : ∀ j, (ph' j).held = (ph j).held) : LockRel h' ph' posted T' where
  toLocks := H.toLocks.keep hl hh
  status w hw := by
    rw [hT w hw]
    exact H.status w hw

theorem LockRel.congr {ph ph' : ι → Phase K V} {posted : List Posted}
    (H : LockRel h ph posted T) (hh : ∀ j, (ph' j).held = (ph j).held) :
    LockRel h ph' posted T :=
  H.keep (fun _ _ => id) (fun _ _ => rfl) hh

theorem LockRel.acquire {h' : Heap K V} {ph ph' : ι → Phase K V} {posted : List Posted} {i : ι}
    {p : RemotePtr} {b : ℕ} (H : LockRel h ph posted T) (hfree : (h.bucket p b).lock ≠ eLocked)
    (hp : (h'.bucket p b).lock = eLocked)
    (hl : ∀ p b, (h.bucket p b).lock = eLocked → (h'.bucket p b).lock = eLocked)
    (hi : (ph' i).held = some (p, b)) (hne : ∀ j, j ≠ i → (ph' j).held = (ph j).held) :
    LockRel h' ph' posted T :=
  ⟨H.toLocks.acquire hfree hp hl hi hne, H.status⟩

theorem LockRel.post {ph ph' : ι → Phase K V} {posted : List Posted} {i : ι} {w : Posted}
    (H : LockRel h ph posted T) (hw : (ph i).held = some (w.ptr, w.bucket))
    (hi : (ph' i).held = none) (hne : ∀ j, j ≠ i → (ph' j).held = (ph j).held)
    (hs : (w.status = eUnlocked ∧ ∀ q, T.slot w.ptr w.bucket ≠ .node q)
      ∨ (w.status = pUnlocked ∧ ∃ q, T.slot w.ptr w.bucket = .node q)) :
    LockRel h ph' (posted ++ [w]) T where
  toLocks := H.toLocks.post hw hi hne
  status w' hw' := by
    rcases List.mem_append.1 hw' with hw' | hw'
    · exact H.status w' hw'
    · rw [List.mem_singleton.1 hw']
      exact hs

theorem LockRel.deliver {ph : ι → Phase K V} {posted : List Posted} {n : ℕ} {w : Posted}
    {x : PlistPair} (H : LockRel h ph posted T) (hw : posted[n]? = some w) :
    LockRel (h.setBucket w.ptr w.bucket x) ph (posted.eraseIdx n) T where
  toLocks := H.toLocks.deliver hw
  status w' hw' := H.status w' ((List.eraseIdx_sublist posted n).subset hw')

/-- The memory when one bucket is written, and the trie changes there only. -/
theorem HeapRel.setBucket {T' : Trie RemotePtr K V} {mv mv' : RemotePtr → ℕ → Prop}
    {p : RemotePtr} {b : ℕ} {x : PlistPair} (H : HeapRel P root h mv T) (hb : h.Has p b)
    (hpath : ∀ k p d, OnPath (bucketOf P) root T' k p d → OnPath (bucketOf P) root T k p d)
    (hslot : ∀ p' b', ¬ (p' = p ∧ b' = b) → T'.slot p' b' = T.slot p' b')
    (hmv : ∀ p' b', ¬ (p' = p ∧ b' = b) → mv p' b' → mv' p' b')
    (hbase : ¬ mv' p b → x.base = slotPtr (T'.slot p b))
    (hlock : x.lock = eLocked ∨ (x.lock = eUnlocked ∧ ∀ q, T'.slot p b ≠ .node q)
      ∨ (x.lock = pUnlocked ∧ ∃ q, T'.slot p b = .node q))
    (hleaf : ∀ p b e, T'.slot p b = .leaf e → e ≠ .null ∧ h.elist e = some (T'.elems e))
    (hnode : ∀ q, T'.slot p b = .node q → T.slot p b = .node q) :
    HeapRel P root (h.setBucket p b x) mv' T' where
  toInMemory := H.toInMemory.setBucket hb hpath hslot hleaf hnode
  base p' b' hm := by
    by_cases hpb : p' = p ∧ b' = b
    · obtain ⟨rfl, rfl⟩ := hpb
      rw [Heap.bucket_setBucket_self hb]
      exact hbase hm
    · rw [Heap.bucket_setBucket_ne hpb, hslot p' b' hpb]
      exact H.base p' b' fun hm' => hm (hmv p' b' hpb hm')
  lock p' b' hh := by
    by_cases hpb : p' = p ∧ b' = b
    · obtain ⟨rfl, rfl⟩ := hpb
      rw [Heap.bucket_setBucket_self hb]
      exact hlock
    · rw [Heap.bucket_setBucket_ne hpb, hslot p' b' hpb]
      exact H.lock p' b' ((Heap.has_setBucket hb).1 hh)

/-- The memory when a bucket is written and the trie stays. -/
theorem HeapRel.setBucket_self {mv mv' : RemotePtr → ℕ → Prop} {p : RemotePtr} {b : ℕ}
    {x : PlistPair} (H : HeapRel P root h mv T) (hb : h.Has p b)
    (hmv : ∀ p' b', ¬ (p' = p ∧ b' = b) → mv p' b' → mv' p' b')
    (hbase : ¬ mv' p b → x.base = slotPtr (T.slot p b))
    (hlock : x.lock = eLocked ∨ (x.lock = eUnlocked ∧ ∀ q, T.slot p b ≠ .node q)
      ∨ (x.lock = pUnlocked ∧ ∃ q, T.slot p b = .node q)) :
    HeapRel P root (h.setBucket p b x) mv' T :=
  H.setBucket hb (fun _ _ _ => id) (fun _ _ _ => rfl) hmv hbase hlock H.leaf fun _ => id

end Congr

variable [DecidableEq K] {C : IhtCfg ι K} {s : IhtState ι K V} {T T' : Trie RemotePtr K V}
  {m m' : K → Option V} {st st' : ℕ → Status (Op K V) (Option V)}

section Snapshot

/-- The snapshot of the P-List at depth `d` on the way of a key is all of it. -/
theorem SimAt.extendedRead (H : SimAt C s T m st) {k : K} {p : RemotePtr} {d : ℕ}
    (hp : OnPath (bucketOf C.toIhtParams) C.root T k p d) :
    (extendedRead C.toIhtParams s.heap p (2 ^ (d - 1))).length = C.buckets d
      ∧ ∀ b, bucketAt (extendedRead C.toIhtParams s.heap p (2 ^ (d - 1))) b
        = s.heap.bucket p b := by
  obtain ⟨bs, h1, h2⟩ := H.heap.len k p d hp
  have h3 : Rome.extendedRead C.toIhtParams s.heap p (2 ^ (d - 1)) = bs := by
    simp only [Rome.extendedRead, h1, Option.getD_some]
    exact List.take_of_length_le h2.le
  rw [h3]
  exact ⟨h2, fun b => by simp [Heap.bucket, h1]⟩

/-- What a bucket of shared memory says of the trie. -/
theorem SimAt.bucket (H : SimAt C s T m st) (p : RemotePtr) (b : ℕ) :
    ((s.heap.bucket p b).lock = pUnlocked → T.slot p b = .node (s.heap.bucket p b).base)
      ∧ ((s.heap.bucket p b).lock ≠ pUnlocked → (s.heap.bucket p b).base = .null
        ∨ T.slot p b = .leaf (s.heap.bucket p b).base ∨ ∃ q, T.slot p b = .node q)
      ∧ ((s.heap.bucket p b).base = .null → T.slot p b = .empty)
      ∧ ((s.heap.bucket p b).lock ≠ eLocked →
        (s.heap.bucket p b).base = slotPtr (T.slot p b)) := by
  by_cases hm : ∃ i, (s.client i).phase.moving = some (p, b)
  · obtain ⟨i, hi⟩ := hm
    have hlock := H.lock.held i p b (Phase.held_of_moving hi)
    have hph := H.phase i
    rcases hc : (s.client i).phase with _ | _ | _ | _ | _ | _ | _ |
      ⟨n, op, ctx, ptr, status⟩ | _ | _ <;>
      simp only [hc, Phase.moving, reduceCtorEq] at hi
    split_ifs at hi with hs
    subst hs
    simp only [Option.some.injEq, Prod.mk.injEq] at hi
    obtain ⟨rfl, rfl⟩ := hi
    rw [hc] at hph
    obtain ⟨-, -, -, ⟨h1, -⟩ | ⟨-, h2, h3⟩⟩ := hph
    · exact absurd h1 eUnlocked_ne_pUnlocked.symm
    · rw [hlock, h2]
      refine ⟨fun h4 => absurd h4 eLocked_ne_pUnlocked, fun _ => .inr (.inr ⟨ptr, rfl⟩),
        fun h4 => absurd h4 h3, fun h4 => absurd rfl h4⟩
  · have hb := H.heap.base p b hm
    refine ⟨fun hl => ?_, fun hl => ?_, fun hn => ?_, fun _ => hb⟩
    · have hhas : s.heap.Has p b := Heap.has_of_isLock (.inr (.inr hl))
      rcases H.heap.lock p b hhas with h1 | ⟨h1, -⟩ | ⟨-, q, h1⟩
      · exact absurd (hl.symm.trans h1) eLocked_ne_pUnlocked.symm
      · exact absurd (hl.symm.trans h1) eUnlocked_ne_pUnlocked.symm
      · rw [hb, h1]
        rfl
    · rcases hs : T.slot p b with _ | e | q
      · rw [hb, hs]
        exact .inl rfl
      · rw [hb, hs]
        exact .inr (.inl rfl)
      · exact .inr (.inr ⟨q, rfl⟩)
    · rw [hb] at hn
      rcases hs : T.slot p b with _ | e | q
      · rfl
      · rw [hs] at hn
        exact absurd hn (H.heap.leaf p b e hs).1
      · rw [hs] at hn
        exact absurd hn (H.heap.node p b q hs).1

/-- What a client knows right after a snapshot. -/
theorem SimAt.ctxRel (H : SimAt C s T m st) {k : K} {ctx : Ctx}
    (hp : OnPath (bucketOf C.toIhtParams) C.root T k ctx.parent ctx.depth)
    (hcount : ctx.count = C.buckets ctx.depth)
    (hread : ctx.curr.buckets =
      Rome.extendedRead C.toIhtParams s.heap ctx.parent (2 ^ (ctx.depth - 1))) :
    CtxRel C.toIhtParams C.root T k ctx := by
  obtain ⟨h1, h2⟩ := H.extendedRead hp
  refine ⟨hp, hcount, by rw [hread, h1, hcount], fun b => ?_, fun b => ?_⟩
  · rw [hread, h2]
    exact (H.bucket ctx.parent b).1
  · rw [hread, h2]
    exact (H.bucket ctx.parent b).2.1

/-- A reader that takes a snapshot with its key's bucket empty reads that the key is absent. -/
theorem SimAt.observe (H : SimAt C s T m st) {op : Op K V} {n : ℕ} {seen : Option (Option V)}
    {ctx : Ctx} (hp : OnPath (bucketOf C.toIhtParams) C.root T op.key ctx.parent ctx.depth)
    (hread : ctx.curr.buckets =
      Rome.extendedRead C.toIhtParams s.heap ctx.parent (2 ^ (ctx.depth - 1)))
    (hn : st n = .pending op seen) :
    ∃ st', Atomic mapSpec (fun _ => none) s.hist m st' ∧ (∀ n', n' ≠ n → st' n' = st n')
      ∧ ∃ seen', st' n = .pending op seen' ∧ Seen C.toIhtParams op ctx seen' := by
  by_cases hcase : op.isInsert = false ∧
      (s.heap.bucket ctx.parent (bucketOf C.toIhtParams op.key ctx.depth)).base = .null
  · obtain ⟨hop, hb⟩ := hcase
    have hm := H.rep.empty op.key ctx.parent ctx.depth hp ((H.bucket ctx.parent _).2.2.1 hb)
    have hspec : mapSpec m op = (m, none) := by
      cases op with
      | contains key =>
        simp only [Op.key] at hm
        simp [mapSpec, hm]
      | insert key value => simp [Op.isInsert] at hop
      | remove key => exact mapSpec_remove_none hm
    refine ⟨_, H.atomic.observe none hn hspec, fun n' hn' => Function.update_of_ne hn' _ _,
      some none, by simp, fun _ _ => rfl⟩
  · refine ⟨st, H.atomic, fun _ _ => rfl, seen, hn, fun h1 h2 => ?_⟩
    rw [hread, (H.extendedRead hp).2] at h2
    exact absurd ⟨h1, h2⟩ hcase

end Snapshot

variable [DecidableEq ι]

omit [DecidableEq K] in
/-- What a function of the phase says of the clients after one changed and it did not. -/
theorem phase_update {α : Type*} (g : Phase K V → α) {f : ι → Client K V} {i : ι} {c : Client K V}
    (hg : g c.phase = g (f i).phase) (j : ι) :
    g (Function.update f i c j).phase = g (f j).phase := by
  by_cases hji : j = i
  · subst hji
    rw [Function.update_self, hg]
  · rw [Function.update_of_ne hji]

/-- A step of client `i`: the other clients' buckets and E-Lists are as they were. -/
theorem SimAt.step (H : SimAt C s T m st) {i : ι} {c : Client K V} {h' : Heap K V}
    {posted' : List Posted} {hist' : List (Event ℕ (Op K V) (Option V))}
    (hrep : Represents (bucketOf C.toIhtParams) C.root T' m')
    (hA : Atomic mapSpec (fun _ => none) hist' m' st')
    (hheap : HeapRel C.toIhtParams C.root h'
      (fun p b => ∃ j, (Function.update s.client i c j).phase.moving = some (p, b)) T')
    (hlock : LockRel h' (fun j => (Function.update s.client i c j).phase) posted' T')
    (hP : PhaseRel C.toIhtParams C.root h' T' st' c.phase) (hT : T.Le T')
    (hheld : ∀ j, j ≠ i → ∀ p b, (s.client j).phase.held = some (p, b) →
      T'.slot p b = T.slot p b ∧ (h'.bucket p b).base = (s.heap.bucket p b).base)
    (helems : ∀ j, j ≠ i → ∀ p b e, (s.client j).phase.held = some (p, b) →
      T.slot p b = .leaf e → T'.elems e = T.elems e)
    (hmade : ∀ j, j ≠ i → ∀ ptr, (s.client j).phase.made = some ptr →
      h'.elist ptr = s.heap.elist ptr ∧ c.phase.made ≠ some ptr
        ∧ ((∀ p b, T.slot p b ≠ .leaf ptr) → ∀ p b, T'.slot p b ≠ .leaf ptr))
    (hst : ∀ n, (s.client i).phase.call ≠ some n → st' n = st n)
    (hcall : ∀ n, c.phase.call = some n → (s.client i).phase.call = some n) :
    SimAt C { s with heap := h', posted := posted', client := Function.update s.client i c,
                     hist := hist' } T' m' st' where
  rep := hrep
  atomic := hA
  heap := hheap
  lock := hlock
  phase j := by
    by_cases hji : j = i
    · subst hji
      simp only [Function.update_self]
      exact hP
    · simp only [Function.update_of_ne hji]
      exact (H.phase j).mono hT (hheld j hji) (helems j hji)
        (fun ptr hp => ⟨(hmade j hji ptr hp).1, (hmade j hji ptr hp).2.2⟩)
        fun n hn => hst n fun hi => hji (H.call.inj j i n hn hi)
  call := by
    have hold : ∀ j n, (Function.update s.client i c j).phase.call = some n →
        (s.client j).phase.call = some n := by
      intro j n hj
      by_cases hji : j = i
      · subst hji
        rw [Function.update_self] at hj
        exact hcall n hj
      · rwa [Function.update_of_ne hji] at hj
    refine ⟨fun j k n hj hk => H.call.inj j k n (hold j n hj) (hold k n hk),
      fun j n hj => H.call.lt j n (hold j n hj), fun n hn => ?_⟩
    rw [hst n fun hi => absurd (H.call.lt i n hi) (not_lt.2 hn)]
    exact H.call.fresh n hn
  made j k ptr hj hk := by
    simp only [] at hj hk
    by_cases hji : j = i
    · by_cases hki : k = i
      · rw [hji, hki]
      · subst hji
        rw [Function.update_self] at hj
        rw [Function.update_of_ne hki] at hk
        exact absurd hj (hmade k hki ptr hk).2.1
    · rw [Function.update_of_ne hji] at hj
      by_cases hki : k = i
      · subst hki
        rw [Function.update_self] at hk
        exact absurd hk (hmade j hji ptr hj).2.1
      · rw [Function.update_of_ne hki] at hk
        exact H.made j k ptr hj hk

/-- A step of client `i` that changes nothing but its own memory. -/
theorem SimAt.client (H : SimAt C s T m st) {i : ι} {c : Client K V}
    (hA : Atomic mapSpec (fun _ => none) s.hist m st')
    (hst : ∀ n, (s.client i).phase.call ≠ some n → st' n = st n)
    (hheld : c.phase.held = (s.client i).phase.held)
    (hmoving : c.phase.moving = (s.client i).phase.moving)
    (hmade : c.phase.made = (s.client i).phase.made)
    (hcall : c.phase.call = (s.client i).phase.call)
    (hP : PhaseRel C.toIhtParams C.root s.heap T st' c.phase) :
    SimAt C { s with client := Function.update s.client i c } T m st' := by
  refine H.step H.rep hA ?_ ?_ hP (Trie.Le.refl T) (fun _ _ _ _ _ => ⟨rfl, rfl⟩)
    (fun _ _ _ _ _ _ _ => rfl) (fun j hj ptr hp => ⟨rfl, ?_, id⟩) hst fun n hn => hcall ▸ hn
  · exact H.heap.congr fun p b ⟨j, hj⟩ => ⟨j, by rwa [phase_update Phase.moving hmoving]⟩
  · exact H.lock.congr fun j => phase_update Phase.held hheld j
  · rw [hmade]
    exact fun hi => hj (H.made j i ptr hp hi)

end Rome

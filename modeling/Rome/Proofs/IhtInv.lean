import Rome.Proofs.IhtLock

/-!
# What the table's memory and clients mean

The table's memory is read as a hash trie: a bucket is empty, leads to an E-List, or leads to a
P-List. A bucket whose E-List has been rehashed leads to the new P-List from then on, although its
pointer is written later (`HeapRel.base`). A locked bucket belongs to one client, or to an unlock
that is posted (`LockRel`). What a client knows of the trie (`PhaseRel`) stays true while other
clients step (`PhaseRel.mono`): a snapshot's bucket that leads to a P-List still does, one that
leads to an E-List still does or leads to a P-List now, and one that was empty says nothing.
-/

namespace Rome

open HashTrie Lin

variable {ι K V : Type*}

/-- The pointer a bucket that holds `s` has. -/
def slotPtr : Slot RemotePtr → RemotePtr
  | .empty => .null
  | .leaf e => e
  | .node q => q

namespace Phase

/-- The bucket a client has rehashed and whose pointer it is about to write. -/
def moving : Phase K V → Option (RemotePtr × ℕ)
  | .link _ _ ctx _ status => if status = pUnlocked then some (ctx.parent, ctx.bucket) else none
  | _ => none

/-- The E-List a client has made and is about to link. -/
def made : Phase K V → Option RemotePtr
  | .link _ _ _ ptr status => if status = eUnlocked then some ptr else none
  | _ => none

/-- The call a client is in. -/
def call : Phase K V → Option ℕ
  | .idle => none
  | .start n _ => some n
  | .head n _ _ => some n
  | .refetch n _ _ => some n
  | .locked n _ _ => some n
  | .write n _ _ _ _ => some n
  | .rehash n _ _ => some n
  | .link n _ _ _ _ => some n
  | .unlock n _ _ _ _ => some n
  | .ret n _ _ => some n

theorem held_of_moving {ph : Phase K V} {x : RemotePtr × ℕ} (h : ph.moving = some x) :
    ph.held = some x := by
  cases ph <;> simp only [moving, reduceCtorEq] at h
  split_ifs at h
  exact h

end Phase

/-- How the memory shows the trie `T`, `moving` being the buckets whose pointer is about to be
written. -/
structure HeapRel (P : IhtParams K) (root : RemotePtr) (h : Heap K V)
    (moving : RemotePtr → ℕ → Prop) (T : Trie RemotePtr K V) : Prop extends
    InMemory (bucketOf P) root .null P.buckets h.elist h.plist T where
  base : ∀ p b, ¬ moving p b → (h.bucket p b).base = slotPtr (T.slot p b)
  lock : ∀ p b, h.Has p b → (h.bucket p b).lock = eLocked
    ∨ ((h.bucket p b).lock = eUnlocked ∧ ∀ q, T.slot p b ≠ .node q)
    ∨ ((h.bucket p b).lock = pUnlocked ∧ ∃ q, T.slot p b = .node q)

/-- Who holds the locks, and what the posted unlocks write. -/
structure LockRel (h : Heap K V) (ph : ι → Phase K V) (posted : List Posted)
    (T : Trie RemotePtr K V) : Prop extends Locks h ph posted where
  status : ∀ w ∈ posted, (w.status = eUnlocked ∧ ∀ q, T.slot w.ptr w.bucket ≠ .node q)
    ∨ (w.status = pUnlocked ∧ ∃ q, T.slot w.ptr w.bucket = .node q)

/-- What a client knows on its way: where it is on the way of its key, and what of its snapshot is
still so. -/
structure CtxRel (P : IhtParams K) (root : RemotePtr) (T : Trie RemotePtr K V) (key : K)
    (ctx : Ctx) : Prop where
  path : OnPath (bucketOf P) root T key ctx.parent ctx.depth
  count : ctx.count = P.buckets ctx.depth
  length : ctx.curr.buckets.length = ctx.count
  down : ∀ b, (bucketAt ctx.curr.buckets b).lock = pUnlocked →
    T.slot ctx.parent b = .node (bucketAt ctx.curr.buckets b).base
  up : ∀ b, (bucketAt ctx.curr.buckets b).lock ≠ pUnlocked →
    (bucketAt ctx.curr.buckets b).base = .null
      ∨ T.slot ctx.parent b = .leaf (bucketAt ctx.curr.buckets b).base
      ∨ ∃ q, T.slot ctx.parent b = .node q

def Op.isInsert : Op K V → Bool
  | .insert _ _ => true
  | _ => false

/-- A reader whose snapshot has its key's bucket empty has read that the key is absent. -/
def Seen (P : IhtParams K) (op : Op K V) (ctx : Ctx) (seen : Option (Option V)) : Prop :=
  op.isInsert = false →
    (bucketAt ctx.curr.buckets (bucketOf P op.key ctx.depth)).base = .null → seen = some none

section PhaseRel

variable (P : IhtParams K) (root : RemotePtr) (h : Heap K V) (T : Trie RemotePtr K V)

/-- A client that has locked its key's bucket. -/
structure HeldRel (op : Op K V) (ctx : Ctx) : Prop where
  rel : CtxRel P root T op.key ctx
  bucket : ctx.bucket = bucketOf P op.key ctx.depth

variable [DecidableEq K] (st : ℕ → Status (Op K V) (Option V))

/-- What is known of a client in each phase. -/
def PhaseRel : Phase K V → Prop
  | .idle => True
  | .start n op => ∃ seen, st n = .pending op seen
  | .head n op ctx =>
    (∃ seen, st n = .pending op seen ∧ Seen P op ctx seen) ∧ CtxRel P root T op.key ctx
  | .refetch n op ctx =>
    (∃ seen, st n = .pending op seen ∧ Seen P op ctx seen) ∧ CtxRel P root T op.key ctx
  | .locked n op ctx =>
    (∃ seen, st n = .pending op seen ∧ Seen P op ctx seen) ∧ HeldRel P root T op ctx
      ∧ ((bucketAt ctx.curr.buckets ctx.bucket).base ≠ .null →
          T.slot ctx.parent ctx.bucket = .leaf (bucketAt ctx.curr.buckets ctx.bucket).base)
      ∧ ((bucketAt ctx.curr.buckets ctx.bucket).base = .null → op.isInsert = true →
          T.slot ctx.parent ctx.bucket = .empty)
      ∧ ∀ q, T.slot ctx.parent ctx.bucket ≠ .node q
  | .write n op ctx e r =>
    (∃ seen, st n = .pending op seen) ∧ HeldRel P root T op ctx
      ∧ T.slot ctx.parent ctx.bucket = .leaf (bucketAt ctx.curr.buckets ctx.bucket).base
      ∧ apply P op (some (T.elems (bucketAt ctx.curr.buckets ctx.bucket).base)) = .write e r
  | .rehash n op ctx =>
    (∃ seen, st n = .pending op seen) ∧ HeldRel P root T op ctx
      ∧ T.slot ctx.parent ctx.bucket = .leaf (bucketAt ctx.curr.buckets ctx.bucket).base
      ∧ op.isInsert = true
  | .link n op ctx ptr status =>
    (∃ seen, st n = .pending op seen) ∧ HeldRel P root T op ctx ∧ op.isInsert = true
      ∧ (status = eUnlocked ∧ T.slot ctx.parent ctx.bucket = .empty ∧ ptr ≠ .null
          ∧ (∃ v, op = .insert op.key v ∧ h.elist ptr = some [(op.key, v)])
          ∧ (∀ p b, T.slot p b ≠ .leaf ptr)
        ∨ status = pUnlocked ∧ T.slot ctx.parent ctx.bucket = .node ptr
          ∧ (h.bucket ctx.parent ctx.bucket).base ≠ .null)
  | .unlock n op ctx status r =>
    HeldRel P root T op ctx
      ∧ (status = eUnlocked ∧ st n = .taken op r ∧ (∀ q, T.slot ctx.parent ctx.bucket ≠ .node q)
        ∨ status = pUnlocked ∧ (∃ seen, st n = .pending op seen) ∧ op.isInsert = true
          ∧ ∃ q, T.slot ctx.parent ctx.bucket = .node q)
  | .ret n op r => st n = .taken op r

end PhaseRel

section Mono

variable [DecidableEq K] {P : IhtParams K} {root : RemotePtr} {h h' : Heap K V}
  {T T' : Trie RemotePtr K V} {st st' : ℕ → Status (Op K V) (Option V)}

omit [DecidableEq K] in
theorem CtxRel.mono {key : K} {ctx : Ctx} (H : CtxRel P root T key ctx) (hT : T.Le T') :
    CtxRel P root T' key ctx where
  path := H.path.mono hT
  count := H.count
  length := H.length
  down b hb := by
    have := hT ctx.parent b
    rw [H.down b hb] at this
    exact this
  up b hb := by
    have hle := hT ctx.parent b
    rcases H.up b hb with h1 | h1 | ⟨q, h1⟩
    · exact .inl h1
    · rw [h1] at hle
      exact .inr hle
    · rw [h1] at hle
      exact .inr (.inr ⟨q, hle⟩)

omit [DecidableEq K] in
theorem HeldRel.mono {op : Op K V} {ctx : Ctx} (H : HeldRel P root T op ctx) (hT : T.Le T') :
    HeldRel P root T' op ctx :=
  ⟨H.rel.mono hT, H.bucket⟩

/-- What a client knows stays true while the trie grows elsewhere than in its bucket, and the
E-List it has made stays its own. -/
theorem PhaseRel.mono {ph : Phase K V} (H : PhaseRel P root h T st ph) (hT : T.Le T')
    (hheld : ∀ p b, ph.held = some (p, b) →
      T'.slot p b = T.slot p b ∧ (h'.bucket p b).base = (h.bucket p b).base)
    (helems : ∀ p b e, ph.held = some (p, b) → T.slot p b = .leaf e → T'.elems e = T.elems e)
    (hmade : ∀ ptr, ph.made = some ptr → h'.elist ptr = h.elist ptr
      ∧ ((∀ p b, T.slot p b ≠ .leaf ptr) → ∀ p b, T'.slot p b ≠ .leaf ptr))
    (hst : ∀ n, ph.call = some n → st' n = st n) : PhaseRel P root h' T' st' ph := by
  cases ph with
  | idle => trivial
  | start n op =>
    obtain ⟨seen, h1⟩ := H
    exact ⟨seen, (hst n rfl).trans h1⟩
  | head n op ctx =>
    obtain ⟨⟨seen, h1, h2⟩, h3⟩ := H
    exact ⟨⟨seen, (hst n rfl).trans h1, h2⟩, h3.mono hT⟩
  | refetch n op ctx =>
    obtain ⟨⟨seen, h1, h2⟩, h3⟩ := H
    exact ⟨⟨seen, (hst n rfl).trans h1, h2⟩, h3.mono hT⟩
  | locked n op ctx =>
    obtain ⟨⟨seen, h1, h2⟩, h3, h4⟩ := H
    refine ⟨⟨seen, (hst n rfl).trans h1, h2⟩, h3.mono hT, ?_⟩
    rw [(hheld _ _ rfl).1]
    exact h4
  | write n op ctx e r =>
    obtain ⟨⟨seen, h1⟩, h2, h3, h4⟩ := H
    refine ⟨⟨seen, (hst n rfl).trans h1⟩, h2.mono hT, ?_, ?_⟩
    · rw [(hheld _ _ rfl).1]
      exact h3
    · rw [helems _ _ _ rfl h3]
      exact h4
  | rehash n op ctx =>
    obtain ⟨⟨seen, h1⟩, h2, h3, h4⟩ := H
    refine ⟨⟨seen, (hst n rfl).trans h1⟩, h2.mono hT, ?_, h4⟩
    rw [(hheld _ _ rfl).1]
    exact h3
  | link n op ctx ptr status =>
    obtain ⟨⟨seen, h1⟩, h2, h3, h4⟩ := H
    refine ⟨⟨seen, (hst n rfl).trans h1⟩, h2.mono hT, h3, ?_⟩
    obtain ⟨hs, hb⟩ := hheld _ _ rfl
    rw [hs, hb]
    rcases h4 with ⟨rfl, h5, h6, ⟨v, h7, h8⟩, h9⟩ | h4
    · obtain ⟨hm1, hm2⟩ := hmade ptr rfl
      exact .inl ⟨rfl, h5, h6, ⟨v, h7, hm1.trans h8⟩, hm2 h9⟩
    · exact .inr h4
  | unlock n op ctx status r =>
    obtain ⟨h1, h2⟩ := H
    refine ⟨h1.mono hT, ?_⟩
    rw [(hheld _ _ rfl).1, hst n rfl]
    exact h2
  | ret n op r => exact (hst n rfl).trans H

end Mono

/-- The clients' calls are their own, and those not yet made are fresh. -/
structure CallRel (ph : ι → Phase K V) (calls : ℕ) (st : ℕ → Status (Op K V) (Option V)) : Prop
    where
  inj : ∀ i j n, (ph i).call = some n → (ph j).call = some n → i = j
  lt : ∀ i n, (ph i).call = some n → n < calls
  fresh : ∀ n, calls ≤ n → st n = .fresh

/-- The state shows the trie `T`, which stores the map `m`; the calls are at `st`. -/
structure SimAt [DecidableEq K] (C : IhtCfg ι K) (s : IhtState ι K V) (T : Trie RemotePtr K V)
    (m : K → Option V) (st : ℕ → Status (Op K V) (Option V)) : Prop where
  rep : Represents (bucketOf C.toIhtParams) C.root T m
  atomic : Atomic mapSpec (fun _ => none) s.hist m st
  heap : HeapRel C.toIhtParams C.root s.heap
    (fun p b => ∃ i, (s.client i).phase.moving = some (p, b)) T
  lock : LockRel s.heap (fun i => (s.client i).phase) s.posted T
  phase : ∀ i, PhaseRel C.toIhtParams C.root s.heap T st (s.client i).phase
  call : CallRel (fun i => (s.client i).phase) s.calls st
  made : ∀ i j ptr, (s.client i).phase.made = some ptr → (s.client j).phase.made = some ptr → i = j

end Rome

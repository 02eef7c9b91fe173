import Rome.IhtLocalThreads
import Rome.Proofs.IhtLocalSafe

/-!
# Threads on the local table take turns

A thread that has locked a bucket has it for itself, and between its steps the bucket shows less
than it will when the lock is stored again. The memory is settled when every such bucket is taken
for what its thread will leave there (`Settled`). On the settled memory each step of a thread does
nothing, or all that an iteration of the table of one thread does (`Turn`).
-/

namespace Rome.Carumap

open HashTrie

variable {ι K V : Type*}

namespace Phase

/-- The bucket a thread has locked. -/
def held (P : Params K) : Phase K V → Option (ℕ × ℕ)
  | .locked _ f => some (f.curr, f.bucket P)
  | .write _ f _ _ _ => some (f.curr, f.bucket P)
  | .rehash _ f => some (f.curr, f.bucket P)
  | .link _ f _ _ _ => some (f.curr, f.bucket P)
  | .unlock _ f _ _ => some (f.curr, f.bucket P)
  | _ => none

/-- What a thread will leave in the bucket it has locked, which is `x` now. -/
def settle (x : Bucket) : Phase K V → Bucket
  | .link _ _ base lock _ => ⟨base, lock⟩
  | .unlock _ _ lock _ => { x with lock := lock }
  | _ => { x with lock := .eUnlocked }

/-- The call a thread is in, with its result when the table has it done. -/
def work : Phase K V → Option (ℕ × Call K V × Option (Option V))
  | .idle => none
  | .load n f => some (n, f.call, none)
  | .cas n f => some (n, f.call, none)
  | .down n f => some (n, f.call, none)
  | .locked n f => some (n, f.call, none)
  | .write n f _ _ _ => some (n, f.call, none)
  | .rehash n f => some (n, f.call, none)
  | .link n f _ _ r => some (n, f.call, r)
  | .unlock n f _ r => some (n, f.call, r)
  | .ret n c r => some (n, c, some r)

end Phase

/-- The settled memory `q` of the table. -/
structure Settled (P : Params K) (h : Heap K V) (ph : ι → Phase K V) (q : Heap K V) : Prop where
  elist : q.elist = h.elist
  plist : ∀ p, (q.plist p).map List.length = (h.plist p).map List.length
  free : ∀ p b, (∀ t, (ph t).held P ≠ some (p, b)) → q.bucket p b = h.bucket p b
  held : ∀ t p b, (ph t).held P = some (p, b) →
    (h.bucket p b).lock = .eLocked ∧ q.bucket p b = (ph t).settle (h.bucket p b)
  excl : ∀ t t' x, (ph t).held P = some x → (ph t').held P = some x → t = t'

/-- The P-List `p` is the one at depth `d` on the way of `k` from the root. -/
inductive KeyPath (P : Params K) (q : Heap K V) (k : K) : ℕ → ℕ → Prop
  | root : KeyPath P q k P.root 1
  | child {p d : ℕ} (hp : KeyPath P q k p d)
      (hl : (q.bucket p (bucketOf P k d)).lock = .pUnlocked) :
    KeyPath P q k (q.bucket p (bucketOf P k d)).base (d + 1)

/-- Where a call stands is on the way of its key. -/
structure FrameOk (P : Params K) (q : Heap K V) (f : Frame K V) : Prop where
  path : KeyPath P q f.call.key f.curr f.depth
  count : f.count = P.buckets f.depth

/-- What a thread knows of the memory `h` and of the settled memory `q`. -/
def PhaseOk [DecidableEq K] (P : Params K) (h q : Heap K V) : Phase K V → Prop
  | .idle => True
  | .load _ f => FrameOk P q f
  | .cas _ f => FrameOk P q f
  | .down _ f => FrameOk P q f ∧ (h.bucket f.curr (f.bucket P)).lock = .pUnlocked
  | .locked _ f => FrameOk P q f ∧ (q.bucket f.curr (f.bucket P)).lock = .eUnlocked
  | .write _ f e l r => FrameOk P q f ∧ q.bucket f.curr (f.bucket P) = ⟨e, .eUnlocked⟩ ∧ e ≠ 0
    ∧ ∃ l₀, q.elist e = some l₀ ∧ f.call.onElist P l₀ = .store l r
  | .rehash _ f => FrameOk P q f ∧ ∃ e l₀, q.bucket f.curr (f.bucket P) = ⟨e, .eUnlocked⟩ ∧ e ≠ 0
    ∧ q.elist e = some l₀ ∧ f.call.onElist P l₀ = .full
  | .link _ f base lock r => FrameOk P q f ∧ q.bucket f.curr (f.bucket P) = ⟨base, lock⟩
    ∧ (lock = .eUnlocked ∧ r.isSome ∨ lock = .pUnlocked ∧ r = none)
  | .unlock _ f lock r => FrameOk P q f ∧ (q.bucket f.curr (f.bucket P)).lock = lock
    ∧ (lock = .eUnlocked ∧ r.isSome ∨ lock = .pUnlocked ∧ r = none)
  | .ret _ _ _ => True

/-- The memory changes from `q` to `q'` in the bucket `b` of `p`, which leads to no P-List, and what
it leads to, and nowhere else. -/
structure Local (q q' : Heap K V) (p b : ℕ) : Prop where
  lock : (q.bucket p b).lock = .eUnlocked
  bucket : ∀ p' b', ¬ (p' = p ∧ b' = b) → q.Has p' b' →
    q'.Has p' b' ∧ q'.bucket p' b' = q.bucket p' b'
  elist : ∀ p' b', ¬ (p' = p ∧ b' = b) → q.Has p' b' → (q.bucket p' b').lock = .eUnlocked →
    (q.bucket p' b').base ≠ 0 → q'.elist (q.bucket p' b').base = q.elist (q.bucket p' b').base

/-- What leads to a P-List stays as it is. -/
def Keeps (h h' : Heap K V) : Prop := ∀ p b, h.Has p b → (h.bucket p b).lock = .pUnlocked →
  h'.Has p b ∧ h'.bucket p b = h.bucket p b

theorem Keeps.refl (h : Heap K V) : Keeps h h := fun _ _ hh _ => ⟨hh, rfl⟩

section Frames

variable {P : Params K} {q q' : Heap K V} {k : K} {f : Frame K V} {p b d : ℕ}

theorem KeyPath.reached (H : Sound P q) (hp : KeyPath P q k p d) : Reached P q p d := by
  induction hp with
  | root => exact .root
  | @child p d _ hl ih =>
    obtain ⟨-, bs, h1, h2⟩ := H.reached ih
    refine .child ih ?_ hl
    rw [h1, Option.getD_some, h2]
    exact bucketOf_lt P k d

theorem KeyPath.has (H : Sound P q) (hp : KeyPath P q k p d) : q.Has p (bucketOf P k d) := by
  obtain ⟨-, bs, h1, h2⟩ := H.reached (hp.reached H)
  exact ⟨bs, h1, by rw [h2]; exact bucketOf_lt P k d⟩

/-- The way of a key stays. -/
theorem KeyPath.mono (H : Sound P q) (hL : Local q q' p b) {p' : ℕ} (hp : KeyPath P q k p' d) :
    KeyPath P q' k p' d := by
  induction hp with
  | root => exact .root
  | @child p₁ d₁ hp₁ hl ih =>
    have hne : ¬ (p₁ = p ∧ bucketOf P k d₁ = b) := by
      rintro ⟨rfl, rfl⟩
      rw [hL.lock] at hl
      cases hl
    obtain ⟨-, h1⟩ := hL.bucket _ _ hne (hp₁.has H)
    rw [← h1]
    exact .child ih (by rw [h1]; exact hl)

theorem FrameOk.bucket_eq (hf : FrameOk P q f) : f.bucket P = bucketOf P f.call.key f.depth := by
  rw [Frame.bucket, bucketOf, hf.count]

theorem FrameOk.has (H : Sound P q) (hf : FrameOk P q f) : q.Has f.curr (f.bucket P) := by
  rw [hf.bucket_eq]
  exact hf.path.has H

theorem FrameOk.mono (H : Sound P q) (hL : Local q q' p b) (hf : FrameOk P q f) :
    FrameOk P q' f :=
  ⟨hf.path.mono H hL, hf.count⟩

/-- A call that finds a P-List in its bucket goes on there. -/
theorem FrameOk.down (H : Sound P q) (hf : FrameOk P q f)
    (hl : (q.bucket f.curr (f.bucket P)).lock = .pUnlocked) :
    FrameOk P q (f.down (q.bucket f.curr (f.bucket P)).base) := by
  rw [hf.bucket_eq] at hl ⊢
  refine ⟨hf.path.child hl, ?_⟩
  change f.count * 2 = P.buckets (f.depth + 1)
  rw [hf.count, P.buckets_succ (H.reached (hf.path.reached H)).1]

end Frames

section Local

variable {P : Params K} {q : Heap K V} {p b : ℕ}

theorem Heap.setBucket_self (hb : q.Has p b) : q.setBucket p b (q.bucket p b) = q := by
  obtain ⟨bs, h1, h2⟩ := hb
  have hset : bs.set b (bucketAt bs b) = bs := by
    rw [bucketAt, List.getD_eq_getElem _ _ h2, List.set_getElem_self]
  simp only [setBucket, setPlist, bucket, h1, Option.getD_some, hset]
  rw [← h1, Function.update_eq_self]

theorem Heap.map_length_setBucket (hb : q.Has p b) (x : Bucket) (c : ℕ) :
    ((q.setBucket p b x).plist c).map List.length = (q.plist c).map List.length := by
  obtain ⟨bs, h1, -⟩ := hb
  by_cases hc : c = p
  · subst hc
    simp [setBucket, setPlist, h1]
  · simp [setBucket, setPlist, Function.update_of_ne hc]

theorem Heap.has_of_map_length {h : Heap K V}
    (hlen : ∀ p, (q.plist p).map List.length = (h.plist p).map List.length) :
    q.Has p b ↔ h.Has p b := by
  have hp := hlen p
  unfold Heap.Has
  generalize q.plist p = x at hp ⊢
  generalize h.plist p = y at hp ⊢
  cases x <;> cases y <;> simp at hp ⊢
  rw [hp]

/-- One bucket is written, and E-Lists that no other bucket has. -/
theorem Local.setBucket (hb : q.Has p b) (hl : (q.bucket p b).lock = .eUnlocked)
    {E : ℕ → Option (List (K × V))} (x : Bucket)
    (hE : ∀ p' b', ¬ (p' = p ∧ b' = b) → q.Has p' b' → (q.bucket p' b').lock = .eUnlocked →
      (q.bucket p' b').base ≠ 0 → E (q.bucket p' b').base = q.elist (q.bucket p' b').base) :
    Local q (Heap.setBucket { q with elist := E } p b x) p b where
  lock := hl
  bucket _ _ hne hh := ⟨(Heap.has_setBucket (h := { q with elist := E }) hb).2 hh,
    Heap.bucket_setBucket_ne hne⟩
  elist := hE

/-- A bucket that leads to no P-List is written. -/
theorem Keeps.setBucket {E : ℕ → Option (List (K × V))} (hb : q.Has p b)
    (hl : (q.bucket p b).lock ≠ .pUnlocked) (x : Bucket) :
    Keeps q (Heap.setBucket { q with elist := E } p b x) := by
  intro p' b' hh hl'
  have hne : ¬ (p' = p ∧ b' = b) := by
    rintro ⟨rfl, rfl⟩
    exact hl hl'
  exact ⟨(Heap.has_setBucket (h := { q with elist := E }) hb).2 hh, Heap.bucket_setBucket_ne hne⟩

end Local

section Settled

variable {P : Params K} {h h' q q' : Heap K V} {ph : ι → Phase K V} {ph' : Phase K V} {t : ι}
  {p b : ℕ}

theorem Settled.has (H : Settled P h ph q) : h.Has p b ↔ q.Has p b :=
  (Heap.has_of_map_length H.plist).symm

theorem Settled.allocatable (H : Settled P h ph q) (fresh : List ℕ) :
    q.allocatable fresh = h.allocatable fresh := by
  have hp : ∀ p, (q.plist p).isNone = (h.plist p).isNone := fun p => by
    have := congrArg Option.isNone (H.plist p)
    simpa using this
  simp only [Heap.allocatable, H.elist, hp]

/-- A bucket whose lock is not taken is no thread's. -/
theorem Settled.not_held (H : Settled P h ph q) (hl : (h.bucket p b).lock ≠ .eLocked) (t : ι) :
    (ph t).held P ≠ some (p, b) :=
  fun ht => hl (H.held t p b ht).1

theorem Settled.bucket_eq (H : Settled P h ph q) (hl : (h.bucket p b).lock ≠ .eLocked) :
    q.bucket p b = h.bucket p b :=
  H.free p b (H.not_held hl)

variable [DecidableEq ι]

/-- A thread moves without a lock. -/
theorem Settled.walk (H : Settled P h ph q) (h0 : (ph t).held P = none)
    (h1 : ph'.held P = none) : Settled P h (Function.update ph t ph') q := by
  have hheld : ∀ t', (Function.update ph t ph' t').held P = (ph t').held P := fun t' => by
    by_cases ht : t' = t
    · rw [ht, Function.update_self, h0, h1]
    · rw [Function.update_of_ne ht]
  have hsome : ∀ {t' x}, (ph t').held P = some x → t' ≠ t := by
    rintro _ x hx rfl
    rw [h0] at hx
    cases hx
  refine ⟨H.elist, H.plist, fun p b hf => H.free p b fun t' => hheld t' ▸ hf t', ?_, ?_⟩
  · intro t' p b hx
    rw [hheld] at hx
    rw [Function.update_of_ne (hsome hx)]
    exact H.held t' p b hx
  · intro t₁ t₂ x h1 h2
    rw [hheld] at h1 h2
    exact H.excl t₁ t₂ x h1 h2

/-- A thread changes its bucket, and what no thread has locked. -/
theorem Settled.own (H : Settled P h ph q) (helist : q'.elist = h'.elist)
    (hplist : ∀ c, (q'.plist c).map List.length = (h'.plist c).map List.length)
    (hin : ∀ x, (ph t).held P = some x → x = (p, b)) (hout : ∀ x, ph'.held P = some x → x = (p, b))
    (hother : ∀ t', t' ≠ t → (ph t').held P ≠ some (p, b))
    (hkeep : ∀ c d, ¬ (c = p ∧ d = b) →
      (h'.bucket c d = h.bucket c d ∧ q'.bucket c d = q.bucket c d)
        ∨ (q'.bucket c d = h'.bucket c d ∧ ∀ t', (ph t').held P ≠ some (c, d)))
    (hlocked : ph'.held P = some (p, b) →
      (h'.bucket p b).lock = .eLocked ∧ q'.bucket p b = ph'.settle (h'.bucket p b))
    (hfree : ph'.held P = none → q'.bucket p b = h'.bucket p b) :
    Settled P h' (Function.update ph t ph') q' := by
  refine ⟨helist, hplist, fun c d hf => ?_, fun t' c d hx => ?_, fun t₁ t₂ x h1 h2 => ?_⟩
  · by_cases hcd : c = p ∧ d = b
    · obtain ⟨rfl, rfl⟩ := hcd
      refine hfree (Option.eq_none_iff_forall_ne_some.2 fun x hx => ?_)
      have := hf t
      rw [Function.update_self] at this
      exact this (hout x hx ▸ hx)
    · rcases hkeep c d hcd with ⟨h1, h2⟩ | ⟨h1, -⟩
      · rw [h1, h2]
        refine H.free c d fun t' hx => ?_
        by_cases ht : t' = t
        · subst ht
          exact hcd (by simpa using hin _ hx)
        · exact hf t' (by rwa [Function.update_of_ne ht])
      · exact h1
  · by_cases ht : t' = t
    · subst ht
      rw [Function.update_self] at hx ⊢
      obtain ⟨rfl, rfl⟩ := Prod.mk.inj (hout _ hx)
      exact hlocked hx
    · rw [Function.update_of_ne ht] at hx ⊢
      have hcd : ¬ (c = p ∧ d = b) := by
        rintro ⟨rfl, rfl⟩
        exact hother t' ht hx
      rcases hkeep c d hcd with ⟨h1, h2⟩ | ⟨-, h1⟩
      · rw [h1, h2]
        exact H.held t' c d hx
      · exact absurd hx (h1 t')
  · by_cases ht1 : t₁ = t <;> by_cases ht2 : t₂ = t
    · rw [ht1, ht2]
    · subst ht1
      rw [Function.update_self] at h1
      rw [Function.update_of_ne ht2] at h2
      exact absurd (hout x h1 ▸ h2) (hother t₂ ht2)
    · subst ht2
      rw [Function.update_self] at h2
      rw [Function.update_of_ne ht1] at h1
      exact absurd (hout x h2 ▸ h1) (hother t₁ ht1)
    · rw [Function.update_of_ne ht1] at h1
      rw [Function.update_of_ne ht2] at h2
      exact H.excl t₁ t₂ x h1 h2

end Settled

end Rome.Carumap

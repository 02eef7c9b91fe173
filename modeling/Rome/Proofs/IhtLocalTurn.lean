import Rome.Proofs.IhtLocalThreads

/-!
# The turns of the threads of the local table

What an iteration of the table of one thread does to the settled memory when it is the turn of a
thread: nothing but return (`iter_done`), link an E-List (`iter_fill`), write one (`iter_store`) or
rehash one (`iter_grow`). It changes the thread's own bucket and what that leads to.
-/

namespace Rome.Carumap

variable {ι K V : Type*} [DecidableEq K] {P : Params K} {q q' h' : Heap K V} {f : Frame K V}
  {fresh : List ℕ} {e p : ℕ} {l l₀ : List (K × V)} {r : Option V}

/-- What is left of an iteration when it has locked its bucket. -/
def afterLocked (f : Frame K V) (rs : List (Call K V × Option V)) :
    Heap K V × Option (Option V) → State K V
  | (h, none) => ⟨h, some f, rs⟩
  | (h, some r) => ⟨h, none, rs ++ [(f.call, r)]⟩

theorem iter_eq (hl : q.bucket f.curr (f.bucket P) = ⟨e, .eUnlocked⟩)
    (ha : q.allocatable fresh = true) (hb : q.Has f.curr (f.bucket P))
    (rs : List (Call K V × Option V)) :
    iter P ⟨q, some f, rs⟩ f fresh
      = (locked P (q.setBucket f.curr (f.bucket P) ⟨e, .eLocked⟩) f.call f.curr f.depth f.count
          (f.bucket P) fresh).map (afterLocked f rs) := by
  have ha' : (q.setBucket f.curr (f.bucket P) ⟨e, .eLocked⟩).allocatable fresh = true := by
    rw [← ha]
    have hp : ∀ c, ((q.setBucket f.curr (f.bucket P) ⟨e, .eLocked⟩).plist c).isNone
        = (q.plist c).isNone := fun c => by
      simpa using congrArg Option.isNone (Heap.map_length_setBucket hb ⟨e, .eLocked⟩ c)
    have he : (q.setBucket f.curr (f.bucket P) ⟨e, .eLocked⟩).elist = q.elist := rfl
    simp only [Heap.allocatable, hp, he]
  unfold iter
  simp only []
  rw [show levelHash P f.call.key (f.depth + 1) f.count = f.bucket P from rfl]
  simp only [acquire, hl, Heap.setLock, ha', if_true]
  split <;> rename_i h <;> rw [h] <;> rfl

section Quiet

/-- A call that has nothing to write. -/
theorem iter_done (hb : q.Has f.curr (f.bucket P))
    (hl : q.bucket f.curr (f.bucket P) = ⟨e, .eUnlocked⟩)
    (hr : (e = 0 ∧ (∀ key val, f.call ≠ .insert key val) ∧ r = none)
      ∨ e ≠ 0 ∧ ∃ l₀, q.elist e = some l₀ ∧ f.call.onElist P l₀ = .done r)
    (rs : List (Call K V × Option V)) :
    iter P ⟨q, some f, rs⟩ f [] = some ⟨q, none, rs ++ [(f.call, r)]⟩ := by
  have hsame : q.setBucket f.curr (f.bucket P) ⟨e, .eUnlocked⟩ = q := by
    rw [← hl, Heap.setBucket_self hb]
  rw [iter_eq hl (by simp [Heap.allocatable]) hb]
  rcases hr with ⟨rfl, hc, rfl⟩ | ⟨he, l₀, h1, h2⟩
  · cases hcall : f.call with
    | get key =>
      simp [locked, get, Heap.bucket_setBucket_self hb, Heap.setLock_setBucket hb, hsame,
        afterLocked, hcall]
    | remove key =>
      simp [locked, remove, Heap.bucket_setBucket_self hb, Heap.setLock_setBucket hb, hsame,
        afterLocked, hcall]
    | insert key val => exact absurd hcall (hc key val)
  · have h1' : (q.setBucket f.curr (f.bucket P) ⟨e, .eLocked⟩).elist e = some l₀ := h1
    cases hcall : f.call with
    | get key =>
      rw [hcall, Call.onElist] at h2
      obtain rfl := OnElist.done.inj h2
      simp [locked, get, Heap.bucket_setBucket_self hb, Heap.setLock_setBucket hb, hsame,
        afterLocked, hcall, he, h1']
    | remove key =>
      rw [hcall, Call.onElist] at h2
      split at h2
      · cases h2
      · rename_i hrem
        obtain rfl := OnElist.done.inj h2
        simp [locked, remove, Heap.bucket_setBucket_self hb, Heap.setLock_setBucket hb, hsame,
          afterLocked, hcall, he, h1', hrem]
    | insert key val =>
      rw [hcall, Call.onElist] at h2
      split at h2
      · rename_i v hs
        obtain rfl := OnElist.done.inj h2
        simp [locked, insert, Heap.bucket_setBucket_self hb, Heap.setLock_setBucket hb, hsame,
          afterLocked, hcall, he, h1', hs]
      · split_ifs at h2

/-- An insert that makes the E-List of its bucket. -/
theorem iter_fill {key : K} {val : V} (hb : q.Has f.curr (f.bucket P))
    (hl : q.bucket f.curr (f.bucket P) = ⟨0, .eUnlocked⟩) (hc : f.call = .insert key val)
    (ha : q.allocatable [e] = true) (rs : List (Call K V × Option V)) :
    iter P ⟨q, some f, rs⟩ f [e]
      = some ⟨(q.setElist e (some [(key, val)])).setBucket f.curr (f.bucket P) ⟨e, .eUnlocked⟩,
          none, rs ++ [(f.call, none)]⟩ := by
  rw [iter_eq hl ha hb]
  simp only [locked, insert, hc, Heap.bucket_setBucket_self hb, if_true, Heap.setElist_setBucket,
    Option.map_some]
  rw [Heap.setBase_setBucket (by exact hb), Heap.setLock_setBucket (by exact hb)]
  simp [afterLocked, hc]

/-- A call that writes the E-List of its bucket. -/
theorem iter_store (hb : q.Has f.curr (f.bucket P))
    (hl : q.bucket f.curr (f.bucket P) = ⟨e, .eUnlocked⟩) (he : e ≠ 0)
    (h1 : q.elist e = some l₀) (h2 : f.call.onElist P l₀ = .store l r)
    (rs : List (Call K V × Option V)) :
    iter P ⟨q, some f, rs⟩ f []
      = some ⟨(q.setElist e (some l)).setBucket f.curr (f.bucket P) ⟨e, .eUnlocked⟩, none,
          rs ++ [(f.call, r)]⟩ := by
  have h1' : (q.setBucket f.curr (f.bucket P) ⟨e, .eLocked⟩).elist e = some l₀ := h1
  rw [iter_eq hl (by simp [Heap.allocatable]) hb]
  cases hcall : f.call with
  | get key => simp [hcall, Call.onElist] at h2
  | remove key =>
    rw [hcall, Call.onElist] at h2
    split at h2
    · rename_i v e' hrem
      obtain ⟨rfl, rfl⟩ := OnElist.store.inj h2
      simp only [locked, remove, Heap.bucket_setBucket_self hb, he, if_false, h1', hrem,
        Heap.setElist_setBucket, Option.map_some]
      rw [Heap.setLock_setBucket (by exact hb)]
      simp [afterLocked, hcall]
    · cases h2
  | insert key val =>
    rw [hcall, Call.onElist] at h2
    split at h2
    · cases h2
    · rename_i hs
      split_ifs at h2 with hroom
      obtain ⟨rfl, rfl⟩ := OnElist.store.inj h2
      simp only [locked, insert, Heap.bucket_setBucket_self hb, he, if_false, h1', hs, hroom,
        if_true, Heap.setElist_setBucket, Option.map_some]
      rw [Heap.setLock_setBucket (by exact hb)]
      simp [afterLocked, hcall]

end Quiet

section Grow

omit [DecidableEq K] in
/-- A rehash in two memories that have the same E-Lists, and the same one in the bucket. -/
theorem rehash_congr {h₁ : Heap K V} {parent c d i : ℕ}
    (hr : rehash P h₁ parent c d i fresh = some (h', p)) (h₂ : Heap K V)
    (he : h₂.elist = h₁.elist) (hb : (h₂.bucket parent i).base = (h₁.bucket parent i).base) :
    ∃ bs, h'.plist = Function.update h₁.plist p (some bs)
      ∧ rehash P h₂ parent c d i fresh
        = some (⟨h'.elist, Function.update h₂.plist p (some bs)⟩, p) := by
  unfold rehash at hr ⊢
  rw [hb, he]
  split at hr
  swap
  · cases hr
  rename_i x y p' fresh' source hs
  split at hr
  swap
  · cases hr
  rename_i z h₃ bs hl
  obtain ⟨rfl, rfl⟩ := Prod.mk.inj (Option.some.inj hr)
  obtain ⟨hloop, hplist⟩ := rehashLoop_eq_some.1 hl
  refine ⟨bs, ?_, ?_⟩
  · rw [← hplist]
    rfl
  · rw [← he] at hloop
    have hl₂ : rehashLoop P (d + 1) c source fresh' h₂ (makePList (c * 2))
        = some (⟨h₃.elist, h₂.plist⟩, bs) := rehashLoop_eq_some.2 ⟨hloop, rfl⟩
    simp only [hl₂]
    rfl

omit [DecidableEq K] in
theorem mem_of_rehash {parent c d i : ℕ} (hr : rehash P q parent c d i fresh = some (h', p)) :
    p ∈ fresh := by
  unfold rehash at hr
  split at hr
  · split at hr
    · obtain ⟨-, rfl⟩ := Prod.mk.inj (Option.some.inj hr)
      exact List.mem_cons_self
    · cases hr
  · cases hr

/-- An insert that rehashes the E-List of its bucket. -/
theorem iter_grow (hb : q.Has f.curr (f.bucket P))
    (hl : q.bucket f.curr (f.bucket P) = ⟨e, .eUnlocked⟩) (he : e ≠ 0)
    (h1 : q.elist e = some l₀) (h2 : f.call.onElist P l₀ = .full)
    (ha : q.allocatable fresh = true)
    (hr : rehash P q f.curr f.count f.depth (f.bucket P) fresh = some (h', p))
    (rs : List (Call K V × Option V)) :
    iter P ⟨q, some f, rs⟩ f fresh
      = some ⟨h'.setBucket f.curr (f.bucket P) ⟨p, .pUnlocked⟩, some f, rs⟩ := by
  have h1' : (q.setBucket f.curr (f.bucket P) ⟨e, .eLocked⟩).elist e = some l₀ := h1
  obtain ⟨bs, hpl, hr'⟩ := rehash_congr hr (q.setBucket f.curr (f.bucket P) ⟨e, .eLocked⟩) rfl
    (by rw [Heap.bucket_setBucket_self hb, hl])
  have hne : f.curr ≠ p := by
    obtain ⟨bs', h3, -⟩ := hb
    rintro heq
    rw [heq, ((Heap.unused ha).free _ (mem_of_rehash hr)).2.2] at h3
    cases h3
  have hcurr : h'.plist f.curr = q.plist f.curr := by rw [hpl, Function.update_of_ne hne]
  have hb' : h'.Has f.curr (f.bucket P) := by
    rw [Heap.Has, hcurr]
    exact hb
  have hset : (⟨h'.elist, Function.update (q.setBucket f.curr (f.bucket P) ⟨e, .eLocked⟩).plist p
      (some bs)⟩ : Heap K V) = h'.setBucket f.curr (f.bucket P) ⟨e, .eLocked⟩ := by
    simp only [Heap.setBucket, Heap.setPlist, hcurr, hpl]
    rw [Function.update_comm hne]
  rw [iter_eq hl ha hb]
  cases hcall : f.call with
  | get key => simp [hcall, Call.onElist] at h2
  | remove key =>
    rw [hcall, Call.onElist] at h2
    split at h2 <;> cases h2
  | insert key val =>
    rw [hcall, Call.onElist] at h2
    split at h2
    · cases h2
    rename_i hs
    split_ifs at h2 with hroom
    simp only [locked, insert, Heap.bucket_setBucket_self hb, he, if_false, h1', hs, hroom, hr',
      hset, Option.map_some, afterLocked]
    rw [Heap.setBase_setBucket hb', Heap.setLock_setBucket hb']

end Grow

end Rome.Carumap

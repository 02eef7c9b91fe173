import Rome.Proofs.IhtTable

/-!
# An insert that meets full E-Lists

An insert whose key is absent goes down to the bucket where its way ends. The E-List there may be
full; it is rehashed, and the next one may have all of its pairs again. Where the hash of some level
parts one of them from the key, the E-List that the key comes to there has room (`Ends.split`). In
calls one at a time only the unlocks that the call itself has posted are under way, for P-Lists it
has left (`Behind`); so no lock is waited for, and each step brings the call nearer to its end
(`work`).
-/

namespace Rome

open HashTrie Lin Machine

variable {ι K V : Type*}

def Phase.depth (ph : Phase K V) : ℕ := (ph.ctx.map Ctx.depth).getD 0

/-- What is posted is to show P-Lists, in P-Lists on the way of `key` down to depth `d`. -/
def Behind (C : IhtCfg ι K) (T : Trie RemotePtr K V) (key : K) (posted : List Posted) (d : ℕ) :
    Prop :=
  ∀ w ∈ posted, w.status = pUnlocked
    ∧ ∃ d' ≤ d, OnPath (bucketOf C.toIhtParams) C.root T key w.ptr d'

/-- Where a client is that inserts `key` and whose way ends at depth `d`. -/
def Inserting (P : IhtParams K) (T : Trie RemotePtr K V) (key : K) (value : V) (L d : ℕ) :
    Phase K V → Prop
  | .start _ op => op = .insert key value
  | .head _ op ctx => op = .insert key value ∧ ctx.depth ≤ d
      ∧ ∀ q, T.slot ctx.parent (bucketOf P key ctx.depth) = .node q →
        (bucketAt ctx.curr.buckets (bucketOf P key ctx.depth)).lock = pUnlocked
  | .locked _ op ctx => op = .insert key value ∧ ctx.depth = d
  | .write _ op ctx _ _ => op = .insert key value ∧ ctx.depth = d
  | .rehash _ op ctx => op = .insert key value ∧ ctx.depth = d ∧ d < L
  | .link _ op ctx _ status => op = .insert key value
      ∧ (status = pUnlocked ∧ ctx.depth + 1 = d ∨ status = eUnlocked ∧ ctx.depth = d)
  | .unlock _ op ctx status _ => op = .insert key value ∧ status = pUnlocked ∧ ctx.depth + 1 = d
      ∧ (bucketAt ctx.curr.buckets (bucketOf P key ctx.depth)).lock = pUnlocked
  | _ => False

/-- Where a client is whose pair is in its E-List. -/
def Returning (key : K) (value : V) (L : ℕ) : Phase K V → Prop
  | .unlock _ op ctx status _ => op = .insert key value ∧ status = eUnlocked ∧ ctx.depth ≤ L
  | .ret _ op _ => op = .insert key value
  | .idle => True
  | _ => False

/-- The most steps that a client which inserts has still to take. -/
def Phase.work (L d : ℕ) : Phase K V → ℕ
  | .start _ _ => 6 * (L - d) + 4 + (d + 1)
  | .head _ _ ctx => 6 * (L - d) + 4 + (d + 1 - ctx.depth)
  | .locked _ _ _ => 6 * (L - d) + 4
  | .rehash _ _ _ => 6 * (L - d) + 3
  | .link _ _ _ _ status => if status = pUnlocked then 6 * (L - d) + 8 else 3
  | .unlock _ _ _ status _ => if status = pUnlocked then 6 * (L - d) + 7 else 2
  | .write _ _ _ _ _ => 3
  | .ret _ _ _ => 1
  | .refetch _ _ _ => 0
  | .idle => 0

/-- What client `i` and the posted unlocks have still to do, at most. -/
def IhtState.work (s : IhtState ι K V) (i : ι) (L d : ℕ) : ℕ :=
  2 * (s.client i).phase.work L d + s.posted.length

/-- The E-Lists a client's next step rehashes. -/
def Phase.rehashes : Phase K V → ℕ
  | .rehash _ _ _ => 1
  | _ => 0

def rehashed (s : IhtState ι K V) : IhtEvent ι K V → ℕ
  | .step i _ => (s.client i).phase.rehashes
  | _ => 0

/-- The pair is where the way of its key ends, at depth `L` at most. -/
def EndsAt (C : IhtCfg ι K) (T : Trie RemotePtr K V) (key : K) (value : V) (L : ℕ) : Prop :=
  ∃ p d e, OnPath (bucketOf C.toIhtParams) C.root T key p d ∧ d ≤ L
    ∧ T.slot p (bucketOf C.toIhtParams key d) = .leaf e ∧ (key, value) ∈ T.elems e

variable [DecidableEq K]

/-- Client `i` inserts, its way ending at depth `d`. -/
structure Underway (C : IhtCfg ι K) (i : ι) (key : K) (value : V) (l : List (K × V)) (L : ℕ)
    (s : IhtState ι K V) (T : Trie RemotePtr K V) (p : RemotePtr) (d : ℕ) : Prop where
  sim : ∃ m st, SimAt C s T m st
  ends : Ends (bucketOf C.toIhtParams) C.root T key l L p d
  behind : Behind C T key s.posted (s.client i).phase.depth
  phase : Inserting C.toIhtParams T key value L d (s.client i).phase

/-- Client `i` has inserted. -/
structure Inserted (C : IhtCfg ι K) (i : ι) (key : K) (value : V) (L : ℕ) (s : IhtState ι K V)
    (T : Trie RemotePtr K V) : Prop where
  sim : ∃ m st, SimAt C s T m st
  placed : EndsAt C T key value L
  phase : Returning key value L (s.client i).phase

section Buckets

variable {C : IhtCfg ι K} {s : IhtState ι K V} {T : Trie RemotePtr K V} {m : K → Option V}
  {st : ℕ → Status (Op K V) (Option V)} {key : K} {p : RemotePtr} {d : ℕ}

theorem SimAt.has_bucketOf (H : SimAt C s T m st)
    (hp : OnPath (bucketOf C.toIhtParams) C.root T key p d) :
    s.heap.Has p (bucketOf C.toIhtParams key d) := by
  obtain ⟨bs, h1, h2⟩ := H.heap.len _ _ _ hp
  exact ⟨bs, h1, by rw [h2]; exact bucketOf_lt _ _ _⟩

omit [DecidableEq K] in
/-- A bucket that no client holds is locked only where an unlock is posted. -/
theorem Owned.posted (hO : Owned s) (hheld : ∀ j, (s.client j).phase.held = none) {b : ℕ}
    (hl : (s.heap.bucket p b).lock = eLocked) : ∃ w ∈ s.posted, w.ptr = p ∧ w.bucket = b := by
  rcases hO p b hl with ⟨j, hj⟩ | hw
  · rw [hheld j] at hj
    cases hj
  · exact hw

theorem SimAt.free (H : SimAt C s T m st) (hO : Owned s)
    (hheld : ∀ j, (s.client j).phase.held = none) (hB : Behind C T key s.posted d) {b : ℕ}
    (hhas : s.heap.Has p b) (hno : ∀ q, T.slot p b ≠ .node q) :
    (s.heap.bucket p b).lock = eUnlocked := by
  rcases H.heap.lock p b hhas with h1 | ⟨h1, -⟩ | ⟨-, q, h1⟩
  · obtain ⟨w, hw, rfl, rfl⟩ := hO.posted hheld h1
    rcases H.lock.status w hw with ⟨h2, -⟩ | ⟨-, q, h2⟩
    · rw [(hB w hw).1] at h2
      exact absurd h2 eUnlocked_ne_pUnlocked.symm
    · exact absurd h2 (hno q)
  · exact h1
  · exact absurd h1 (hno q)

/-- A snapshot of a P-List that is entered shows the P-Lists that its buckets lead to. -/
theorem SimAt.shows (H : SimAt C s T m st) (hO : Owned s)
    (hheld : ∀ j, (s.client j).phase.held = none) (hB : Behind C T key s.posted d)
    (hp : OnPath (bucketOf C.toIhtParams) C.root T key p (d + 1)) {bs : List PlistPair}
    (hread : bs = Rome.extendedRead C.toIhtParams s.heap p (2 ^ d)) {q : RemotePtr} {b : ℕ}
    (hs : T.slot p b = .node q) : (bucketAt bs b).lock = pUnlocked := by
  have hbs := (H.extendedRead hp).2 b
  rw [Nat.add_sub_cancel] at hbs
  rw [hread, hbs]
  rcases H.heap.lock p b (H.heap.has p b (by rw [hs]; simp)) with h1 | ⟨-, h1⟩ | ⟨h1, -⟩
  · obtain ⟨w, hw, rfl, rfl⟩ := hO.posted hheld h1
    obtain ⟨-, d', hd', hw'⟩ := hB w hw
    have := hw'.depth_eq H.rep.toShape hp
    omega
  · exact absurd hs (h1 q)
  · exact h1

omit [DecidableEq K] in
theorem Behind.mono {T' : Trie RemotePtr K V} {posted : List Posted} {d' : ℕ}
    (hB : Behind C T key posted d) (hT : T.Le T') (hd : d ≤ d') : Behind C T' key posted d' := by
  intro w hw
  obtain ⟨h1, d₁, h2, h3⟩ := hB w hw
  exact ⟨h1, d₁, h2.trans hd, h3.mono hT⟩

end Buckets

section Steps

variable [DecidableEq ι] {C : IhtCfg ι K} {i : ι} {key : K} {value : V} {l : List (K × V)}
  {L d n : ℕ} {s : IhtState ι K V} {T T' : Trie RemotePtr K V} {p p' : RemotePtr}
  {op : Op K V} {ctx : Ctx} {e : Effect K V} {fresh : List RemotePtr} {m : K → Option V}
  {st : ℕ → Status (Op K V) (Option V)}

omit [DecidableEq K] in
theorem IhtState.put_client_self (s : IhtState ι K V) (i : ι) (e : Effect K V) :
    (s.put i e).client i = e.client := by
  simp [IhtState.put]

theorem Underway.put (hsim : ∃ m st, SimAt C (s.put i e) T m st)
    (hends : Ends (bucketOf C.toIhtParams) C.root T key l L p d)
    (hB : Behind C T key (s.posted ++ e.posted.toList) e.client.phase.depth)
    (hP : Inserting C.toIhtParams T key value L d e.client.phase) :
    Underway C i key value l L (s.put i e) T p d := by
  refine ⟨hsim, hends, ?_, ?_⟩
  · rw [IhtState.put_client_self]
    exact hB
  · rw [IhtState.put_client_self]
    exact hP

omit [DecidableEq ι] in
theorem Underway.behind_nil (H : Underway C i key value l L s T p d) {ph : Phase K V}
    (hd : (s.client i).phase.depth ≤ ph.depth) :
    Behind C T key (s.posted ++ (none : Option Posted).toList) ph.depth := by
  rw [Option.toList_none, List.append_nil]
  exact H.behind.mono (Trie.Le.refl T) hd

theorem Underway.start (H : Underway C i key value l L s T p d) (hr : Reads C s i) (hO : Owned s)
    (hheld : ∀ j, (s.client j).phase.held = none) (hph : (s.client i).phase = .start n op) :
    Underway C i key value l L (s.put i (doWithStart C i s.heap (s.client i) n op)) T p d := by
  obtain ⟨m, st, hsim⟩ := H.sim
  have hP := H.phase
  have hB := H.behind
  rw [hph] at hP hB
  obtain rfl : op = .insert key value := hP
  have hread := hr C.root 0 (List.replicate 8 (-1)) (by simp only [IhtState.entering, hph])
  refine .put ⟨m, hsim.start hr hph⟩ H.ends (H.behind_nil (by rw [hph]; exact Nat.zero_le _)) ?_
  exact ⟨rfl, H.ends.path.one_le, fun q hq => hsim.shows hO hheld hB .root hread hq⟩

omit [DecidableEq ι] in
/-- A bucket that the snapshot shows to lead to a P-List is short of where the way ends. -/
theorem Underway.lt (H : Underway C i key value l L s T p d)
    (hrel : CtxRel C.toIhtParams C.root T key ctx) (hle : ctx.depth ≤ d)
    (hdown : (bucketAt ctx.curr.buckets (bucketOf C.toIhtParams key ctx.depth)).lock = pUnlocked) :
    ctx.depth < d := by
  have hs := hrel.down _ hdown
  refine Nat.lt_of_le_of_ne hle fun heq => ?_
  have hp := H.ends.path
  rw [← heq] at hp
  rw [hrel.path.eq_of_depth hp, heq] at hs
  exact H.ends.ne_node _ hs

theorem Underway.down (H : Underway C i key value l L s T p d) (hr : Reads C s i) (hO : Owned s)
    (hheld : ∀ j, (s.client j).phase.held = none) (hok : ∀ fresh, FreshLock C s (.step i fresh))
    (hph : (s.client i).phase = .head n (.insert key value) ctx) (hle : ctx.depth ≤ d)
    (hdown : (bucketAt ctx.curr.buckets (bucketOf C.toIhtParams key ctx.depth)).lock = pUnlocked) :
    ∃ ctx', ctx'.depth = ctx.depth + 1
      ∧ (doWithHead C i s.heap (s.client i) n (.insert key value) ctx).client.phase
        = .head n (.insert key value) ctx'
      ∧ Underway C i key value l L
        (s.put i (doWithHead C i s.heap (s.client i) n (.insert key value) ctx)) T p d := by
  obtain ⟨m, st, hsim⟩ := H.sim
  have hrel := hsim.phase i
  have hst := hsim.head hr hph hok
  have hB := H.behind
  rw [hph] at hrel hB
  obtain ⟨-, hrel⟩ := hrel
  have hlt := H.lt hrel hle hdown
  have hs := hrel.down _ hdown
  have hb : bucketOf C.toIhtParams key ctx.depth
      = levelHash C.toIhtParams (Op.insert key value).key ctx.depth ctx.count := by
    rw [hrel.count]
    rfl
  have hread := hr (bucketAt ctx.curr.buckets (bucketOf C.toIhtParams key ctx.depth)).base ctx.depth
    (ctx.path.set (ctx.depth - 1) (bucketOf C.toIhtParams key ctx.depth)) (by
      simp only [IhtState.entering, hph, ← hb]
      rw [if_pos hdown])
  rw [← Client.enter_buckets (Client.deallocate_cache _ ctx.curr)] at hread
  rw [doWithHead_down hb hdown] at hst ⊢
  simp only [] at hst ⊢
  generalize Client.enter C.toIhtParams (C.cacheDepth i) ((s.client i).deallocate ctx.curr) s.heap
    (bucketAt ctx.curr.buckets (bucketOf C.toIhtParams key ctx.depth)).base ctx.depth
    (ctx.path.set (ctx.depth - 1) (bucketOf C.toIhtParams key ctx.depth)) = x at hread hst ⊢
  refine ⟨_, rfl, rfl, .put ⟨m, hst⟩ H.ends (H.behind_nil ?_) ⟨rfl, hlt, fun q hq => ?_⟩⟩
  · rw [hph]
    exact Nat.le_succ _
  · exact hsim.shows hO hheld hB (.child hrel.path hs) hread hq

theorem Underway.acquire (H : Underway C i key value l L s T p d) (hr : Reads C s i) (hO : Owned s)
    (hheld : ∀ j, (s.client j).phase.held = none) (hok : ∀ fresh, FreshLock C s (.step i fresh))
    (hph : (s.client i).phase = .head n (.insert key value) ctx)
    (hshow : ∀ q, T.slot ctx.parent (bucketOf C.toIhtParams key ctx.depth) = .node q →
      (bucketAt ctx.curr.buckets (bucketOf C.toIhtParams key ctx.depth)).lock = pUnlocked)
    (hdown : (bucketAt ctx.curr.buckets (bucketOf C.toIhtParams key ctx.depth)).lock ≠ pUnlocked) :
    ctx.depth = d ∧ ∃ ctx',
      (doWithHead C i s.heap (s.client i) n (.insert key value) ctx).client.phase
        = .locked n (.insert key value) ctx'
      ∧ Underway C i key value l L
        (s.put i (doWithHead C i s.heap (s.client i) n (.insert key value) ctx)) T p d := by
  obtain ⟨m, st, hsim⟩ := H.sim
  have hrel := hsim.phase i
  have hst := hsim.head hr hph hok
  have hB := H.behind
  rw [hph] at hrel hB
  obtain ⟨-, hrel⟩ := hrel
  have hb : bucketOf C.toIhtParams key ctx.depth
      = levelHash C.toIhtParams (Op.insert key value).key ctx.depth ctx.count := by
    rw [hrel.count]
    rfl
  have hno : ∀ q, T.slot ctx.parent (bucketOf C.toIhtParams key ctx.depth) ≠ .node q :=
    fun q hq => hdown (hshow q hq)
  obtain ⟨-, hd⟩ := H.ends.path.stop_eq H.ends.ne_node hrel.path hno
  have hfree : (s.heap.bucket ctx.parent (bucketOf C.toIhtParams key ctx.depth)).lock = eUnlocked :=
    hsim.free hO hheld hB (hsim.has_bucketOf hrel.path) hno
  have hne : ¬ (s.heap.bucket ctx.parent (bucketOf C.toIhtParams key ctx.depth)).lock
      = pUnlocked := by
    rw [hfree]
    exact eUnlocked_ne_pUnlocked
  rw [doWithHead_stay hb hdown] at hst ⊢
  simp only [] at hst ⊢
  rw [if_neg hne, if_pos hfree] at hst ⊢
  refine ⟨hd, _, rfl, .put ⟨m, hst⟩ H.ends (H.behind_nil ?_) ⟨rfl, hd⟩⟩
  rw [hph]
  exact Nat.le_refl ctx.depth

omit [DecidableEq ι] [DecidableEq K] in
theorem apply_insert [DecidableEq K] {P : IhtParams K} {l : List (K × V)}
    (habs : ∀ x ∈ l, x.1 ≠ key) : apply P (.insert key value) (some l)
      = if l.length < P.elistSize then .write (l ++ [(key, value)]) none else .rehash := by
  have hsearch : search key l = none := by
    rw [search_eq, List.lookup_eq_none_iff]
    exact fun x hx => bne_iff_ne.2 (habs x hx).symm
  simp only [apply, hsearch]

theorem Underway.stay (H : Underway C i key value l L s T p d)
    (hst : ∃ st', SimAt C (s.put i e) T m st') (hctx : (s.client i).phase.ctx = some ctx)
    (hctx' : e.client.phase.ctx = some ctx) (hpo : e.posted = none)
    (hP : Inserting C.toIhtParams T key value L d e.client.phase) :
    Underway C i key value l L (s.put i e) T p d := by
  refine .put ⟨m, hst⟩ H.ends ?_ hP
  rw [hpo]
  refine H.behind_nil (le_of_eq ?_)
  unfold Phase.depth
  rw [hctx, hctx']

/-- With the lock the insert finds nothing, an E-List with room or, above `L`, a full one. -/
theorem Underway.locked (H : Underway C i key value l L s T p d) (habs : ∀ x ∈ l, x.1 ≠ key)
    (hlen : l.length = C.elistSize) (hph : (s.client i).phase = .locked n (.insert key value) ctx)
    (hd : ctx.depth = d)
    (he : doWithLocked C i s.heap (s.client i) n (.insert key value) ctx fresh = some e) :
    Underway C i key value l L (s.put i e) T p d
      ∧ e.client.phase.work L d < (s.client i).phase.work L d ∧ e.posted = none := by
  obtain ⟨m, st, hsim⟩ := H.sim
  have hrel := hsim.phase i
  have hst := hsim.locked hph he
  have hctx : (s.client i).phase.ctx = some ctx := by
    rw [hph]
    rfl
  rw [hph] at hrel ⊢
  obtain ⟨-, ⟨hrel, hbk⟩, hleaf, -, -⟩ := hrel
  simp only [doWithLocked] at he
  by_cases hb : (bucketAt ctx.curr.buckets ctx.bucket).base = .null
  · simp only [hb, true_or, if_true] at he
    rcases fresh with _ | ⟨ptr, _ | ⟨q, fresh⟩⟩
    · cases he
    · simp only [apply] at he
      split_ifs at he with ha
      obtain rfl := Option.some.inj he
      refine ⟨H.stay hst hctx rfl rfl ⟨rfl, .inr ⟨rfl, hd⟩⟩, ?_, rfl⟩
      simp [Phase.work, eUnlocked_ne_pUnlocked]
    · cases he
  · have hs := hleaf hb
    have hl := (hsim.heap.leaf _ _ _ hs).2
    obtain ⟨hsub, hcase⟩ := H.ends.leaf (by rw [← hd]; exact hrel.path) (by rw [← hd]; exact hbk) hs
    have happ : apply C.toIhtParams (.insert key value) (some (T.elems _)) = _ :=
      apply_insert fun x hx => habs x (hsub hx)
    by_cases hroom : (T.elems (bucketAt ctx.curr.buckets ctx.bucket).base).length < C.elistSize
    · rw [if_pos hroom] at happ
      simp only [hb, hl, Option.isSome_some, or_true, if_true, if_false, happ] at he
      obtain rfl := Option.some.inj he
      refine ⟨H.stay hst hctx rfl rfl ⟨rfl, hd⟩, ?_, rfl⟩
      simp only [Phase.work]
      omega
    · rw [if_neg hroom] at happ
      simp only [hb, hl, Option.isSome_some, or_true, if_true, if_false, happ] at he
      obtain rfl := Option.some.inj he
      have hdL : d < L := (hcase.resolve_left (by rw [hlen]; exact hroom)).1
      refine ⟨H.stay hst hctx rfl rfl ⟨rfl, hd, hdL⟩, ?_, rfl⟩
      simp only [Phase.work]
      omega

theorem Underway.rehash (H : Underway C i key value l L s T p d) {x : K × V} (hx : x ∈ l)
    (hsep : bucketOf C.toIhtParams x.1 L ≠ bucketOf C.toIhtParams key L)
    (hph : (s.client i).phase = .rehash n (.insert key value) ctx) (hd : ctx.depth = d)
    (hdL : d < L)
    (ha : s.heap.allocatable (C.self i) fresh = true) {h' : Heap K V} {newP : RemotePtr}
    (hr : Rome.rehash C.toIhtParams (C.self i) s.heap (bucketAt ctx.curr.buckets ctx.bucket).base
      ctx.count ctx.depth fresh = some (h', newP)) :
    ∃ T', Underway C i key value l L (s.put i { heap := h', client :=
      { s.client i with phase := .link n (.insert key value) ctx newP pUnlocked } }) T' newP
        (d + 1) := by
  obtain ⟨m, st, hsim⟩ := H.sim
  have hrel := hsim.phase i
  have hB := H.behind
  obtain ⟨bs, c, hspread, hq, hst⟩ := hsim.rehash hph ha hr
  rw [hph] at hrel hB
  obtain ⟨-, ⟨hrel, hbk⟩, hs, -⟩ := hrel
  have hpath : OnPath (bucketOf C.toIhtParams) C.root T key ctx.parent d := by
    rw [← hd]
    exact hrel.path
  rw [hd] at hspread
  refine ⟨_, .put ⟨m, st, hst⟩
    (H.ends.split hpath (by rw [← hd]; exact hbk) hs hdL hspread hq hx hsep)
    (fun w hw => ?_) ⟨rfl, .inl ⟨rfl, by rw [hd]⟩⟩⟩
  rw [Option.toList_none, List.append_nil] at hw
  obtain ⟨h1, d', h2, h3⟩ := hB w hw
  exact ⟨h1, d', h2, h3.split hq hs⟩

theorem Underway.link (H : Underway C i key value l L s T p d) {ptr : RemotePtr}
    (hph : (s.client i).phase = .link n (.insert key value) ctx ptr pUnlocked)
    (hd : ctx.depth + 1 = d) :
    ∃ ctx', (doWithLink s.heap (s.client i) n (.insert key value) ctx ptr pUnlocked).client.phase
        = .unlock n (.insert key value) ctx' pUnlocked none
      ∧ Underway C i key value l L
        (s.put i (doWithLink s.heap (s.client i) n (.insert key value) ctx ptr pUnlocked))
        T p d := by
  obtain ⟨m, st, hsim⟩ := H.sim
  have hrel := hsim.phase i
  have hst := hsim.link_plist hph
  rw [hph] at hrel
  obtain ⟨-, ⟨hrel, hbk⟩, -⟩ := hrel
  have hlt : ctx.bucket < ctx.curr.buckets.length := by
    rw [hrel.length, hrel.count, hbk]
    exact bucketOf_lt _ _ _
  have hbk' : bucketOf C.toIhtParams key ctx.depth = ctx.bucket := hbk.symm
  simp only [doWithLink, if_true] at hst ⊢
  refine ⟨_, rfl, .put ⟨m, st, hst⟩ H.ends (H.behind_nil ?_) ⟨rfl, rfl, hd, ?_⟩⟩
  · rw [hph]
    exact Nat.le_refl ctx.depth
  · simp only [hbk', bucketAt_set_self hlt]

theorem Underway.unlock (H : Underway C i key value l L s T p d) {r : Option V}
    (hph : (s.client i).phase = .unlock n (.insert key value) ctx pUnlocked r)
    (hd : ctx.depth + 1 = d)
    (hdown : (bucketAt ctx.curr.buckets (bucketOf C.toIhtParams key ctx.depth)).lock = pUnlocked) :
    Underway C i key value l L
      (s.put i (doWithUnlock s.heap (s.client i) n (.insert key value) ctx pUnlocked r)) T p d := by
  obtain ⟨m, st, hsim⟩ := H.sim
  have hrel := hsim.phase i
  have hst := hsim.unlock hph
  have hB := H.behind
  rw [hph] at hrel hB
  obtain ⟨⟨hrel, -⟩, -⟩ := hrel
  simp only [doWithUnlock, eUnlocked_ne_pUnlocked.symm, if_false] at hst ⊢
  refine .put ⟨m, st, hst⟩ H.ends (fun w hw => ?_) ⟨rfl, by omega, fun _ _ => hdown⟩
  rcases List.mem_append.1 hw with hw | hw
  · exact hB w hw
  · rw [List.mem_singleton.1 hw]
    exact ⟨rfl, ctx.depth, Nat.le_refl ctx.depth, hrel.path⟩

theorem Underway.fill (H : Underway C i key value l L s T p d) {ptr : RemotePtr}
    (hph : (s.client i).phase = .link n (.insert key value) ctx ptr eUnlocked)
    (hd : ctx.depth = d) :
    ∃ T', Inserted C i key value L
      (s.put i (doWithLink s.heap (s.client i) n (.insert key value) ctx ptr eUnlocked)) T' := by
  obtain ⟨m, st, hsim⟩ := H.sim
  have hrel := hsim.phase i
  obtain ⟨v, m', st', hop, hst⟩ := hsim.link_elist hph
  rw [hph] at hrel
  obtain ⟨-, ⟨hrel, hbk⟩, -, ⟨-, hs, -⟩ | ⟨h1, -⟩⟩ := hrel
  swap
  · exact absurd h1 eUnlocked_ne_pUnlocked
  obtain rfl : v = value := ((Op.insert.injEq _ _ _ _).mp hop).2.symm
  have hne := eUnlocked_ne_pUnlocked
  refine ⟨_, ⟨m', st', hst⟩, ⟨ctx.parent, ctx.depth, ptr, ?_, ?_, ?_, ?_⟩, ?_⟩
  · rw [onPath_setSlot_leaf (by exact hs), onPath_setElems]
    exact hrel.path
  · rw [hd]
    exact H.ends.le
  · rw [show bucketOf C.toIhtParams key ctx.depth = ctx.bucket from hbk.symm,
      Trie.setSlot_slot_self]
  · rw [Trie.setSlot_elems, Trie.setElems_elems, Function.update_self]
    exact List.mem_singleton_self _
  · rw [IhtState.put_client_self]
    simp only [doWithLink, hne, if_false]
    exact ⟨rfl, rfl, by rw [hd]; exact H.ends.le⟩

omit [DecidableEq ι] in
theorem apply_insert_write {P : IhtParams K} {l l' : List (K × V)} {r : Option V}
    (h : apply P (.insert key value) (some l) = .write l' r) : (key, value) ∈ l' := by
  simp only [apply] at h
  split at h
  · cases h
  · split_ifs at h
    cases h
    simp

theorem Underway.store (H : Underway C i key value l L s T p d) {l' : List (K × V)} {r : Option V}
    (hph : (s.client i).phase = .write n (.insert key value) ctx l' r) (hd : ctx.depth = d) :
    ∃ T', Inserted C i key value L (s.put i
      { heap := s.heap.setElist (bucketAt ctx.curr.buckets ctx.bucket).base (some l')
        client := { s.client i with phase := .unlock n (.insert key value) ctx eUnlocked r } })
        T' := by
  obtain ⟨m, st, hsim⟩ := H.sim
  have hrel := hsim.phase i
  have hst := hsim.write hph
  rw [hph] at hrel
  obtain ⟨-, ⟨hrel, hbk⟩, hs, happ⟩ := hrel
  refine ⟨_, hst, ⟨ctx.parent, ctx.depth, (bucketAt ctx.curr.buckets ctx.bucket).base,
    onPath_setElems.2 hrel.path, ?_, ?_, ?_⟩, ?_⟩
  · rw [hd]
    exact H.ends.le
  · rw [Trie.setElems_slot, show bucketOf C.toIhtParams key ctx.depth = ctx.bucket from hbk.symm]
    exact hs
  · rw [Trie.setElems_elems, Function.update_self]
    exact apply_insert_write happ
  · rw [IhtState.put_client_self]
    exact ⟨rfl, rfl, by rw [hd]; exact H.ends.le⟩

theorem Inserted.unlock (H : Inserted C i key value L s T) {r : Option V}
    (hph : (s.client i).phase = .unlock n (.insert key value) ctx eUnlocked r) :
    Inserted C i key value L
      (s.put i (doWithUnlock s.heap (s.client i) n (.insert key value) ctx eUnlocked r)) T := by
  obtain ⟨m, st, hsim⟩ := H.sim
  refine ⟨⟨m, st, hsim.unlock hph⟩, H.placed, ?_⟩
  rw [IhtState.put_client_self]
  simp [doWithUnlock, Returning]

theorem Inserted.ret (H : Inserted C i key value L s T) {r : Option V}
    (hph : (s.client i).phase = .ret n op r) :
    Inserted C i key value L
      (s.put i { heap := s.heap, client := { s.client i with phase := .idle },
                 result := some (n, r) }) T := by
  obtain ⟨m, st, hsim⟩ := H.sim
  refine ⟨⟨m, _, hsim.ret hph⟩, H.placed, ?_⟩
  rw [IhtState.put_client_self]
  trivial

omit [DecidableEq K] in
theorem IhtState.work_put (s : IhtState ι K V) (i : ι) (e : Effect K V) (L d : ℕ) :
    (s.put i e).work i L d
      = 2 * e.client.phase.work L d + (s.posted.length + e.posted.toList.length) := by
  unfold IhtState.work
  rw [IhtState.put_client_self]
  simp [IhtState.put]

/-- Client `i` inserts or has inserted, the way of its key ending at depth `d`. -/
def Stage (C : IhtCfg ι K) (i : ι) (key : K) (value : V) (l : List (K × V)) (L : ℕ)
    (s : IhtState ι K V) (d : ℕ) : Prop :=
  (∃ T p, Underway C i key value l L s T p d) ∨ ∃ T, Inserted C i key value L s T

theorem Inserted.step (H : Inserted C i key value L s T)
    (he : stepClient C i s.heap (s.client i) fresh = some e) :
    Inserted C i key value L (s.put i e) T ∧ (s.client i).phase.rehashes = 0
      ∧ (s.put i e).work i L d < s.work i L d := by
  have hP := H.phase
  rw [IhtState.work_put,
    show s.work i L d = 2 * (s.client i).phase.work L d + s.posted.length from rfl]
  rcases hph : (s.client i).phase with _ | ⟨n, op⟩ | ⟨n, op, ctx⟩ | ⟨n, op, ctx⟩ | ⟨n, op, ctx⟩ |
    ⟨n, op, ctx, l, r⟩ | ⟨n, op, ctx⟩ | ⟨n, op, ctx, ptr, status⟩ | ⟨n, op, ctx, status, r⟩ |
    ⟨n, op, r⟩ <;> rw [hph] at hP <;> simp only [Returning] at hP <;>
    simp only [stepClient, hph, Option.some.injEq, reduceCtorEq] at he <;> subst he
  · obtain ⟨rfl, rfl, -⟩ := hP
    refine ⟨H.unlock hph, rfl, ?_⟩
    simp [doWithUnlock, Phase.work, eUnlocked_ne_pUnlocked]
    omega
  · refine ⟨H.ret hph, rfl, ?_⟩
    simp [Phase.work]

theorem Underway.step (H : Underway C i key value l L s T p d) (habs : ∀ x ∈ l, x.1 ≠ key)
    (hlen : l.length = C.elistSize) {x : K × V} (hx : x ∈ l)
    (hsep : bucketOf C.toIhtParams x.1 L ≠ bucketOf C.toIhtParams key L) (hr : Reads C s i)
    (hO : Owned s) (hothers : ∀ j, j ≠ i → (s.client j).phase.held = none)
    (hok : ∀ fresh, FreshLock C s (.step i fresh))
    (he : stepClient C i s.heap (s.client i) fresh = some e) :
    ∃ d', d' ≤ L ∧ Stage C i key value l L (s.put i e) d' ∧ d' = d + (s.client i).phase.rehashes
      ∧ (s.put i e).work i L d' < s.work i L d := by
  have hP := H.phase
  have hheld : (s.client i).phase.held = none → ∀ j, (s.client j).phase.held = none := by
    intro hi j
    by_cases hj : j = i
    · rw [hj, hi]
    · exact hothers j hj
  rw [show s.work i L d = 2 * (s.client i).phase.work L d + s.posted.length from rfl]
  simp only [IhtState.work_put]
  rcases hph : (s.client i).phase with _ | ⟨n, op⟩ | ⟨n, op, ctx⟩ | ⟨n, op, ctx⟩ | ⟨n, op, ctx⟩ |
    ⟨n, op, ctx, l', r⟩ | ⟨n, op, ctx⟩ | ⟨n, op, ctx, ptr, status⟩ | ⟨n, op, ctx, status, r⟩ |
    ⟨n, op, r⟩ <;> rw [hph] at hP <;>
    simp only [stepClient, hph, Option.some.injEq, reduceCtorEq] at he
  · subst he
    refine ⟨d, H.ends.le, .inl ⟨T, p, H.start hr hO (hheld (by rw [hph]; rfl)) hph⟩, rfl, ?_⟩
    simp [doWithStart, Phase.work]
  · split_ifs at he
    cases he
    obtain ⟨rfl, hle, hshow⟩ := hP
    have hpo : (doWithHead C i s.heap (s.client i) n (.insert key value) ctx).posted = none := by
      unfold doWithHead
      simp only []
      split_ifs <;> rfl
    rw [hpo, Option.toList_none, List.length_nil]
    by_cases hdown : (bucketAt ctx.curr.buckets (bucketOf C.toIhtParams key ctx.depth)).lock
        = pUnlocked
    · obtain ⟨ctx', h1, h2, h3⟩ := H.down hr hO (hheld (by rw [hph]; rfl)) hok hph hle hdown
      have hle' := h3.phase
      rw [IhtState.put_client_self, h2] at hle'
      refine ⟨d, H.ends.le, .inl ⟨T, p, h3⟩, rfl, ?_⟩
      rw [h2]
      simp only [Phase.work]
      have := hle'.2.1
      omega
    · obtain ⟨h1, ctx', h2, h3⟩ := H.acquire hr hO (hheld (by rw [hph]; rfl)) hok hph hshow hdown
      refine ⟨d, H.ends.le, .inl ⟨T, p, h3⟩, rfl, ?_⟩
      rw [h2]
      simp only [Phase.work]
      omega
  · cases hP
  · obtain ⟨rfl, hd⟩ := hP
    obtain ⟨h1, h2, h3⟩ := H.locked habs hlen hph hd he
    refine ⟨d, H.ends.le, .inl ⟨T, p, h1⟩, rfl, ?_⟩
    rw [hph] at h2
    rw [h3, Option.toList_none, List.length_nil]
    omega
  · subst he
    obtain ⟨rfl, hd⟩ := hP
    refine ⟨d, H.ends.le, .inr (H.store hph hd), rfl, ?_⟩
    simp [Phase.work, eUnlocked_ne_pUnlocked]
  · split_ifs at he with ha
    obtain ⟨⟨h', newP⟩, hr', rfl⟩ := Option.map_eq_some_iff.1 he
    obtain ⟨rfl, hd, hdL⟩ := hP
    obtain ⟨T', hT'⟩ := H.rehash hx hsep hph hd hdL ha hr'
    refine ⟨d + 1, hdL, .inl ⟨T', newP, hT'⟩, rfl, ?_⟩
    simp [Phase.work]
    omega
  · subst he
    obtain ⟨rfl, ⟨rfl, hd⟩ | ⟨rfl, hd⟩⟩ := hP
    · obtain ⟨ctx', h1, h2⟩ := H.link hph hd
      refine ⟨d, H.ends.le, .inl ⟨T, p, h2⟩, rfl, ?_⟩
      rw [h1]
      simp [Phase.work, doWithLink]
    · refine ⟨d, H.ends.le, .inr (H.fill hph hd), rfl, ?_⟩
      simp [Phase.work, doWithLink, eUnlocked_ne_pUnlocked]
  · subst he
    obtain ⟨rfl, rfl, hd, hdown⟩ := hP
    refine ⟨d, H.ends.le, .inl ⟨T, p, H.unlock hph hd hdown⟩, rfl, ?_⟩
    simp [Phase.work, doWithUnlock, eUnlocked_ne_pUnlocked.symm]
    omega
  · cases hP

omit [DecidableEq ι] in
theorem Stage.deliver (H : Stage C i key value l L s d) {k : ℕ} {w : Posted}
    (hw : s.posted[k]? = some w) :
    Stage C i key value l L { s with
      heap := s.heap.setBucket w.ptr w.bucket { s.heap.bucket w.ptr w.bucket with lock := w.status }
      posted := s.posted.eraseIdx k } d := by
  rcases H with ⟨T, p, H⟩ | ⟨T, H⟩
  · obtain ⟨m, st, hsim⟩ := H.sim
    refine .inl ⟨T, p, ⟨m, st, hsim.deliver hw⟩, H.ends, fun w' hw' => ?_, H.phase⟩
    exact H.behind w' ((List.eraseIdx_sublist s.posted k).subset hw')
  · obtain ⟨m, st, hsim⟩ := H.sim
    exact .inr ⟨T, ⟨m, st, hsim.deliver hw⟩, H.placed, H.phase⟩

omit [DecidableEq ι] in
theorem SimAt.locked_isSome (H : SimAt C s T m st) (hph : (s.client i).phase = .locked n op ctx)
    {ptr : RemotePtr} (ha : s.heap.allocatable (C.self i) [ptr] = true) :
    (doWithLocked C i s.heap (s.client i) n op ctx [ptr]).isSome := by
  have hP := H.phase i
  rw [hph] at hP
  obtain ⟨-, -, hleaf, -⟩ := hP
  have hbase : (bucketAt ctx.curr.buckets ctx.bucket).base = .null
      ∨ (s.heap.elist (bucketAt ctx.curr.buckets ctx.bucket).base).isSome := by
    by_cases hb : (bucketAt ctx.curr.buckets ctx.bucket).base = .null
    · exact .inl hb
    · rw [(H.heap.leaf _ _ _ (hleaf hb)).2]
      exact .inr rfl
  simp only [doWithLocked, if_pos hbase]
  generalize apply C.toIhtParams op _ = a
  rcases a with r | l | ⟨l, r⟩ | _
  · rfl
  · simp only [ha, if_true, Option.isSome_some]
  · rfl
  · rfl

omit [DecidableEq ι] in
theorem SimAt.rehash_isSome (H : SimAt C s T m st) (hph : (s.client i).phase = .rehash n op ctx)
    (hlen : fresh.length = (T.elems (bucketAt ctx.curr.buckets ctx.bucket).base).length + 1) :
    (Rome.rehash C.toIhtParams (C.self i) s.heap (bucketAt ctx.curr.buckets ctx.bucket).base
      ctx.count ctx.depth fresh).isSome := by
  have hP := H.phase i
  rw [hph] at hP
  obtain ⟨-, -, hs, -⟩ := hP
  rcases fresh with _ | ⟨newP, fresh⟩
  · cases hlen
  · rw [List.length_cons, Nat.add_right_cancel_iff] at hlen
    simp only [Rome.rehash, (H.heap.leaf _ _ _ hs).2]
    have hloop : (rehashLoop C.toIhtParams (ctx.depth + 1) (ctx.count * 2)
        (T.elems (bucketAt ctx.curr.buckets ctx.bucket).base) fresh s.heap
        (initPList C.toIhtParams (ctx.count * 2 / C.plistSize))).isSome := by
      rw [rehashLoop_eq, Option.isSome_map]
      exact spreadLoop_isSome _ fresh _ _ hlen.ge
    obtain ⟨⟨h', bs⟩, hloop⟩ := Option.isSome_iff_exists.1 hloop
    rw [hloop]
    rfl

/-- A client in a call, at a depth that the bucket path has an entry for, can take its next step,
given so many blocks. -/
theorem SimAt.enabled (H : SimAt C s T m st) (hph : (s.client i).phase ≠ .idle)
    (hdepth : ∀ ctx, (s.client i).phase.ctx = some ctx → ctx.depth ≤ 8) :
    ∃ N, ∀ fresh : List RemotePtr, fresh.length = N → s.heap.allocatable (C.self i) fresh = true →
      (Rome.ihtStep C s (.step i fresh)).isSome := by
  suffices h : ∃ N, ∀ fresh : List RemotePtr, fresh.length = N →
      s.heap.allocatable (C.self i) fresh = true →
      (Rome.stepClient C i s.heap (s.client i) fresh).isSome by
    obtain ⟨N, hN⟩ := h
    refine ⟨N, fun fresh h1 h2 => ?_⟩
    simp only [Rome.ihtStep, Option.isSome_map]
    exact hN fresh h1 h2
  unfold Rome.stepClient
  rcases hc : (s.client i).phase with _ | ⟨n, op⟩ | ⟨n, op, ctx⟩ | ⟨n, op, ctx⟩ | ⟨n, op, ctx⟩ |
    ⟨n, op, ctx, l', r⟩ | ⟨n, op, ctx⟩ | ⟨n, op, ctx, ptr, status⟩ | ⟨n, op, ctx, status, r⟩ |
    ⟨n, op, r⟩
  · exact absurd hc hph
  · exact ⟨0, fun _ _ _ => rfl⟩
  · refine ⟨0, fun _ _ _ => ?_⟩
    simp only [if_pos (hdepth ctx (by rw [hc]; rfl)), Option.isSome_some]
  · exact ⟨0, fun _ _ _ => rfl⟩
  · refine ⟨1, fun fresh hlen ha => ?_⟩
    obtain ⟨ptr, rfl⟩ := List.length_eq_one_iff.1 hlen
    exact H.locked_isSome hc ha
  · exact ⟨0, fun _ _ _ => rfl⟩
  · refine ⟨(T.elems (bucketAt ctx.curr.buckets ctx.bucket).base).length + 1,
      fun fresh hlen ha => ?_⟩
    simp only [if_pos ha, Option.isSome_map]
    exact H.rehash_isSome hc hlen
  · exact ⟨0, fun _ _ _ => rfl⟩
  · exact ⟨0, fun _ _ _ => rfl⟩
  · exact ⟨0, fun _ _ _ => rfl⟩

end Steps

section Runs

variable [DecidableEq ι] {C : IhtCfg ι K} {i : ι} {key : K} {value : V} {l : List (K × V)} {L d : ℕ}
  {s s' : IhtState ι K V}

def OfCall (i : ι) : IhtEvent ι K V → Prop
  | .invoke _ _ => False
  | .step j _ => j = i
  | .deliver _ => True

instance (i : ι) : (ev : IhtEvent ι K V) → Decidable (OfCall i ev)
  | .invoke _ _ => .isFalse id
  | .step j _ => inferInstanceAs (Decidable (j = i))
  | .deliver _ => .isTrue trivial

/-- What holds in the call: client `i` alone is in one, and its way ends at depth `d`. -/
structure InsertAt (C : IhtCfg ι K) (i : ι) (key : K) (value : V) (l : List (K × V)) (L : ℕ)
    (s : IhtState ι K V) (d : ℕ) : Prop extends TableAt C s where
  others : ∀ j, j ≠ i → (s.client j).phase.call = none
  le : d ≤ L
  stage : Stage C i key value l L s d

theorem InsertAt.ihtStep {ev : IhtEvent ι K V} (H : InsertAt C i key value l L s d)
    (habs : ∀ x ∈ l, x.1 ≠ key) (hlen : l.length = C.elistSize)
    (hsep : ∃ x ∈ l, bucketOf C.toIhtParams x.1 L ≠ bucketOf C.toIhtParams key L)
    (hev : OfCall i ev) (hna : NoAlias C s ev) (hs : Rome.ihtStep C s ev = some s') :
    ∃ d', InsertAt C i key value l L s' d' ∧ d' = d + rehashed s ev
      ∧ s'.work i L d' < s.work i L d := by
  have hal : Alone s ev := by
    cases ev with
    | invoke j op => cases hev
    | step j fresh => trivial
    | deliver n => trivial
  have htable := H.toTableAt.ihtStep hal hna hs
  rcases ihtStep_cases hs with ⟨j, op, rfl, -, -⟩ | ⟨j, fresh, e, rfl, he, rfl⟩ |
    ⟨k, w, rfl, hw, rfl⟩
  · cases hev
  · obtain rfl : j = i := hev
    have hothers : ∀ k, k ≠ j → ((s.put j e).client k).phase.call = none := by
      intro k hk
      simp only [IhtState.put, Function.update_of_ne hk]
      exact H.others k hk
    rcases H.stage with ⟨T, p, hU⟩ | ⟨T, hI⟩
    · obtain ⟨x, hx, hsep⟩ := hsep
      obtain ⟨d', h1, h2, h3, h4⟩ := hU.step habs hlen hx hsep
        (reads_of_noAlias H.cache H.sizes hna) H.owned
        (fun k hk => by rw [Phase.eq_idle (H.others k hk)]; rfl)
        (fun f => H.seq.freshLock (.step j f)) he
      exact ⟨d', ⟨htable, hothers, h1, h2⟩, h3, h4⟩
    · obtain ⟨h1, h2, h3⟩ := hI.step he
      refine ⟨d, ⟨htable, hothers, H.le, .inr ⟨T, h1⟩⟩, ?_, h3⟩
      simp only [rehashed, h2, Nat.add_zero]
  · refine ⟨d, ⟨htable, H.others, H.le, H.stage.deliver hw⟩, rfl, ?_⟩
    have hlt := (List.getElem?_eq_some_iff.1 hw).1
    simp only [IhtState.work, List.length_eraseIdx_of_lt hlt]
    omega

/-- In memory the way of `key` ends at depth `d`, at a full E-List that has the pairs `l`. -/
structure EndsFull (P : IhtParams K) (root : RemotePtr) (h : Heap K V) (key : K) (d : ℕ)
    (l : List (K × V)) : Prop where
  one_le : 1 ≤ d
  elist : ∃ p, h.down root (hashes P key (d - 1)) = some p
    ∧ (h.bucket p (bucketOf P key d)).lock = eUnlocked
    ∧ h.elist (h.bucket p (bucketOf P key d)).base = some l
  full : l.length = P.elistSize

/-- No pair of the table has the key. -/
def Heap.Absent (h : Heap K V) (root : RemotePtr) (key : K) : Prop :=
  ∀ ns b j x, h.StoredAt root ns b j x → x.1 ≠ key

omit [DecidableEq K] in
theorem EndsFull.absent {P : IhtParams K} {root : RemotePtr} {h : Heap K V}
    (H : EndsFull P root h key d l) (habs : h.Absent root key) : ∀ x ∈ l, x.1 ≠ key := by
  intro x hx
  obtain ⟨p, h1, h2, h3⟩ := H.elist
  obtain ⟨j, hj⟩ := List.mem_iff_getElem?.1 hx
  exact habs _ _ j x ⟨p, l, h1, h2, h3, hj⟩

omit [DecidableEq ι] in
theorem SimAt.onPath_of_down {T : Trie RemotePtr K V} {m : K → Option V}
    {st : ℕ → Status (Op K V) (Option V)} (H : SimAt C s T m st) {n : ℕ} : ∀ {p : RemotePtr},
    s.heap.down C.root (hashes C.toIhtParams key n) = some p →
      OnPath (bucketOf C.toIhtParams) C.root T key p (n + 1) := by
  induction n with
  | zero =>
    intro p hd
    obtain rfl := Option.some.inj hd
    exact .root
  | succ n ih =>
    intro p hd
    rw [hashes_succ] at hd
    obtain ⟨q, h1, h2, h3⟩ := down_snoc_some hd
    have hs := (H.bucket q (bucketOf C.toIhtParams key (n + 1))).1 h2
    rw [h3] at hs
    exact .child (ih h1) hs

theorem TableAt.invoke (H : TableAt C s) (hc : Complete s)
    (hfull : EndsFull C.toIhtParams C.root s.heap key d l) (hL : d < L)
    (hs : Rome.ihtStep C s (.invoke i (.insert key value)) = some s') :
    InsertAt C i key value l L s' d ∧ (s'.client i).phase = .start s.calls (.insert key value)
      ∧ s'.posted = [] := by
  have htable := H.ihtStep (e := .invoke i (.insert key value)) hc.1 trivial hs
  obtain ⟨T, m, st, hsim⟩ := H.seq.sim
  obtain ⟨p, h1, h2, h3⟩ := hfull.elist
  have hpath := hsim.onPath_of_down h1
  rw [Nat.sub_add_cancel hfull.one_le] at hpath
  obtain ⟨h4, h5⟩ := H.leaf hc hsim h2 h3
  rcases ihtStep_cases hs with ⟨j, op, he, hph, rfl⟩ | ⟨j, fresh, e, he, -⟩ | ⟨k, w, he, -⟩
  swap
  · cases he
  swap
  · cases he
  obtain ⟨rfl, rfl⟩ := IhtEvent.invoke.inj he
  have hclient : ∀ k, k ≠ i → Function.update s.client i
      { s.client i with phase := .start s.calls (.insert key value) } k = s.client k :=
    fun k hk => Function.update_of_ne hk _ _
  have hends : Ends (bucketOf C.toIhtParams) C.root T key l L p d := by
    refine ⟨hpath, hL.le, .inr ⟨_, h4, ?_⟩⟩
    rw [h5]
    exact ⟨List.Subset.refl l, .inr ⟨hL, List.Subset.refl l⟩⟩
  refine ⟨⟨htable, fun k hk => ?_, hL.le,
    .inl ⟨T, p, ⟨m, _, hsim.invoke hph⟩, hends, fun w hw => ?_, ?_⟩⟩, ?_, hc.2⟩
  · simp only [hclient k hk]
    exact hc.1 k
  · rw [show _ = [] from hc.2] at hw
    cases hw
  · simp only [Function.update_self]
    rfl
  · simp only [Function.update_self]

omit [DecidableEq ι] in
/-- Between calls a pair that the trie has where the way of its key ends is stored there. -/
theorem TableAt.stored (H : TableAt C s) (hc : Complete s) {T : Trie RemotePtr K V}
    {m : K → Option V} {st : ℕ → Status (Op K V) (Option V)} (hsim : SimAt C s T m st)
    (hpl : EndsAt C T key value L) : ∃ d j, d ≤ L ∧ s.heap.StoredAt C.root
      (hashes C.toIhtParams key (d - 1)) (bucketOf C.toIhtParams key d) j (key, value) := by
  obtain ⟨p, d, e, h1, h2, h3, h4⟩ := hpl
  obtain ⟨j, hj⟩ := List.mem_iff_getElem?.1 h4
  have hbase := (hsim.bucket p (bucketOf C.toIhtParams key d)).2.2.2 (H.unlocked hc _ _)
  rw [h3] at hbase
  refine ⟨d, j, h2, p, T.elems e, H.down_of_onPath hc hsim h1, ?_, ?_, hj⟩
  · rcases hsim.heap.lock _ _ (hsim.has_bucketOf h1) with h5 | ⟨h5, -⟩ | ⟨-, q, h5⟩
    · exact absurd h5 (H.unlocked hc _ _)
    · exact h5
    · rw [h3] at h5
      cases h5
  · rw [hbase]
    exact (hsim.heap.leaf _ _ _ h3).2

omit [DecidableEq K] [DecidableEq ι] in
theorem TableWf.absent {P : IhtParams K} {root : RemotePtr} {h : Heap K V} (H : TableWf P root h)
    (hfull : EndsFull P root h key d l) (habs : ∀ x ∈ l, x.1 ≠ key) : h.Absent root key := by
  rintro ns b j x hx rfl
  obtain ⟨hns, hb⟩ := hashes_of_way (H.way ns b j x hx)
  obtain ⟨p, e, h1, h2, h3, h4⟩ := hx
  obtain ⟨p', h5, h6, h7⟩ := hfull.elist
  obtain ⟨d, rfl⟩ : ∃ n, d = n + 1 := ⟨d - 1, (Nat.sub_add_cancel hfull.one_le).symm⟩
  rw [Nat.add_sub_cancel] at h5
  rcases Nat.lt_trichotomy ns.length d with hlt | heq | hlt
  · obtain ⟨q, h8, h9⟩ := down_hashes_lt h5 hlt
    rw [← hns, h1, Option.some.injEq] at h8
    rw [← h8, ← hb, h2] at h9
    exact absurd h9 eUnlocked_ne_pUnlocked
  · rw [← heq, ← hns, h1, Option.some.injEq] at h5
    rw [← h5, ← heq, ← hb, h3, Option.some.injEq] at h7
    exact habs x (by rw [← h7]; exact List.mem_of_getElem? h4) rfl
  · rw [hns] at h1
    obtain ⟨q, h8, h9⟩ := down_hashes_lt h1 hlt
    rw [h5, Option.some.injEq] at h8
    rw [← h8, h6] at h9
    exact absurd h9 eUnlocked_ne_pUnlocked

/-- What the steps of the call keep, and how many they are. -/
theorem InsertAt.run {fs : List (IhtEvent ι K V)} (H : InsertAt C i key value l L s d)
    (habs : ∀ x ∈ l, x.1 ≠ key) (hlen : l.length = C.elistSize)
    (hsep : ∃ x ∈ l, bucketOf C.toIhtParams x.1 L ≠ bucketOf C.toIhtParams key L)
    (hr : Machine.run (Rome.ihtStep C) s fs = some s') (hfs : ∀ ev ∈ fs, OfCall i ev)
    (hna : Meets (Rome.ihtStep C) (NoAlias C) s fs) :
    cost (Rome.ihtStep C) rehashed s fs ≤ L - d ∧ fs.length ≤ s.work i L d
      ∧ ∃ d', InsertAt C i key value l L s' d' := by
  have hstep : ∀ s d ev s', InsertAt C i key value l L s d → (NoAlias C s ev ∧ OfCall i ev) →
      Rome.ihtStep C s ev = some s' → ∃ d', InsertAt C i key value l L s' d'
        ∧ d' = d + rehashed s ev ∧ s'.work i L d' < s.work i L d :=
    fun s d ev s' H h hs => H.ihtStep habs hlen hsep h.2 h.1 hs
  have hm : Meets (Rome.ihtStep C) (fun s ev => NoAlias C s ev ∧ OfCall i ev) s fs :=
    meets_and hna (meets_of_inv (J := fun _ => True) (fun _ _ _ h => h)
      (fun _ _ _ _ _ _ => trivial) hfs trivial)
  obtain ⟨d₁, h1, h2⟩ := run_cost (c := rehashed) (μ := fun _ d => L - d)
    (fun s d ev s' H h hs => by
      obtain ⟨d', h4, h5, -⟩ := hstep s d ev s' H h hs
      have := h4.le
      exact ⟨d', h4, by omega⟩) hr hm H
  obtain ⟨d₂, -, h3⟩ := run_cost (c := fun _ _ => 1) (μ := fun s d => s.work i L d)
    (fun s d ev s' H h hs => by
      obtain ⟨d', h4, -, h5⟩ := hstep s d ev s' H h hs
      exact ⟨d', h4, by omega⟩) hr hm H
  rw [cost_one hr] at h3
  exact ⟨by omega, by omega, d₁, h1⟩

/-- The client of the call is never stuck in a table of P-Lists that `bucket_path` has entries
for. -/
theorem InsertAt.enabled (H : InsertAt C i key value l L s d) (hB : Bounded C s)
    (hne : (s.client i).phase ≠ .idle) :
    ∃ N, ∀ fresh : List RemotePtr, fresh.length = N → s.heap.allocatable (C.self i) fresh = true →
      (Rome.ihtStep C s (.step i fresh)).isSome := by
  have hdepth : ∀ ctx, (s.client i).phase.ctx = some ctx → ctx.depth ≤ 8 := fun ctx hctx =>
    hB _ _ ((H.sizes.client i).ctx ctx hctx).parent
  rcases H.stage with ⟨T, p, H⟩ | ⟨T, H⟩
  · obtain ⟨m, st, hsim⟩ := H.sim
    exact hsim.enabled hne hdepth
  · obtain ⟨m, st, hsim⟩ := H.sim
    exact hsim.enabled hne hdepth

theorem InsertAt.stored (H : InsertAt C i key value l L s d) (hidle : (s.client i).phase = .idle)
    (hpo : s.posted = []) : ∃ d' j, d' ≤ L ∧ s.heap.StoredAt C.root
      (hashes C.toIhtParams key (d' - 1)) (bucketOf C.toIhtParams key d') j (key, value) := by
  have hc : Complete s := by
    refine ⟨fun j => ?_, hpo⟩
    by_cases hj : j = i
    · rw [hj, hidle]
      rfl
    · exact H.others j hj
  rcases H.stage with ⟨T, p, H'⟩ | ⟨T, H'⟩
  · have hP := H'.phase
    rw [hidle] at hP
    cases hP
  · obtain ⟨m, st, hsim⟩ := H'.sim
    exact H.toTableAt.stored hc hsim H'.placed

/-- An event of a call of client `i` after its start, or of an unlock, or a store of this client
behind `bucket_path`. -/
def TableEvent.OfCall (i : ι) (a : TableEvent ι K V) : Prop :=
  Sum.elim (Rome.OfCall i) (fun x => x.1 = i) a

def TableEvent.rehashed (s : IhtState ι K V) (a : TableEvent ι K V) : ℕ :=
  Sum.elim (Rome.rehashed s) (fun _ => 0) a

end Runs

end Rome

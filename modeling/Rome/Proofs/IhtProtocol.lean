import Rome.Proofs.IhtCache

/-!
# The lock protocol and calcification

The lock words are only ever written with the three values of the protocol (`LockWords`), a bucket
is between its lock and the effect of its unlock for one client at most (`Locks`), and a bucket that
is permanently unlocked is never written again, through whole runs. A copy that `try_cache` stores
is of a P-List all of whose buckets but the last are permanently unlocked; it agrees with that
P-List from then on, whatever else the cache holds.
-/

namespace Rome

open Machine

variable {ι K V : Type*}

def Heap.LockWords (h : Heap K V) : Prop :=
  ∀ p bs, h.plist p = some bs → ∀ x ∈ bs, IsLock x.lock

/-- Every lock word, and every value that is to be written to one, is one of the protocol's. -/
structure LockWords (s : IhtState ι K V) : Prop where
  heap : s.heap.LockWords
  posted : ∀ w ∈ s.posted, IsUnlock w.status
  status : ∀ i l, (s.client i).phase.status = some l → IsUnlock l

section LockWords

variable {C : IhtCfg ι K} {h h' : Heap K V}

theorem Heap.LockWords.setBucket (H : h.LockWords) {p : RemotePtr} {b : ℕ} {x : PlistPair}
    (hx : IsLock x.lock) : (h.setBucket p b x).LockWords := by
  intro p' bs hp y hy
  unfold Heap.setBucket Heap.setPlist at hp
  by_cases hpp : p' = p
  · subst hpp
    simp only [Function.update_self, Option.some.injEq] at hp
    rw [← hp] at hy
    rcases List.mem_or_eq_of_mem_set hy with hy | rfl
    · rcases hp' : h.plist p' with _ | bs'
      · simp [hp'] at hy
      · rw [hp'] at hy
        exact H p' bs' hp' y hy
    · exact hx
  · simp only [Function.update_of_ne hpp] at hp
    exact H p' bs hp y hy

/-- A step writes none but the protocol's values. -/
theorem BucketEffect.lockWords {ph ph' : Phase K V} {w : Option Posted}
    (hE : BucketEffect h ph h' ph' w) (H : h.LockWords) (hL : ∀ p b, ph.held = some (p, b) →
      (h.bucket p b).lock = eLocked) : h'.LockWords := by
  cases hE with
  | same hp hh hc hs =>
    intro p bs hb
    rw [hp] at hb
    exact H p bs hb
  | acquire hl hh hp hh' hs =>
    rw [hp]
    exact H.setBucket (.inl rfl)
  | @link p b ptr _ _ hh hc hp hh' hs =>
    rw [hp]
    exact H.setBucket (.inl (hL p b hh))
  | @grow newP bs _ _ hn hc hp hh hb hs =>
    intro p bs' hp'
    rw [hp] at hp'
    by_cases hpp : p = newP
    · subst hpp
      simp only [Function.update_self, Option.some.injEq] at hp'
      rw [← hp']
      exact fun x hx => .inr (.inl (hb x hx))
    · rw [Function.update_of_ne hpp] at hp'
      exact H p bs' hp'
  | post hh hp hh' hc hw hs =>
    rw [hp]
    exact H

theorem BucketEffect.keeps {ph ph' : Phase K V} {w : Option Posted}
    (hE : BucketEffect h ph h' ph' w) : ph.Keeps ph' := by
  cases hE with
  | same hp hh hc hs => exact hs
  | acquire hl hh hp hh' hs => exact hs
  | link hh hc hp hh' hs => exact hs
  | grow hn hc hp hh hb hs => exact hs
  | post hh hp hh' hc hw hs => exact hs

theorem BucketEffect.posted {ph ph' : Phase K V} {w : Posted}
    (hE : BucketEffect h ph h' ph' (some w)) : ph.status = some w.status := by
  cases hE with
  | post hh hp hh' hc hw hs => exact hw

variable [DecidableEq ι] [DecidableEq K] {s s' : IhtState ι K V} {e : IhtEvent ι K V}

theorem LockWords.ihtStep (hL : s.Locks) (H : LockWords s) (hs : Rome.ihtStep C s e = some s') :
    LockWords s' := by
  rcases ihtStep_cases hs with ⟨i, op, -, hph, rfl⟩ | ⟨i, fresh, eff, -, h1, rfl⟩ |
    ⟨n, w, -, hw, rfl⟩
  · refine ⟨H.heap, H.posted, fun j l hj => ?_⟩
    by_cases hji : j = i
    · subst hji
      simp [Phase.status] at hj
    · simp only [Function.update_of_ne hji] at hj
      exact H.status j l hj
  · have heff := stepClient_effect h1
    refine ⟨heff.lockWords H.heap (hL.held i), fun w hw => ?_, fun j l hj => ?_⟩
    · simp only [IhtState.put, List.mem_append] at hw
      rcases hw with hw | hw
      · exact H.posted w hw
      · rw [Option.mem_toList] at hw
        rw [hw] at heff
        exact H.status i _ heff.posted
    · by_cases hji : j = i
      · subst hji
        simp only [IhtState.put, Function.update_self] at hj
        rcases heff.keeps l hj with h2 | h2
        · exact h2
        · exact H.status j l h2
      · simp only [IhtState.put, Function.update_of_ne hji] at hj
        exact H.status j l hj
  · have hmem := List.mem_of_getElem? hw
    exact ⟨H.heap.setBucket (.inr (H.posted w hmem)),
      fun w' hw' => H.posted w' ((List.eraseIdx_sublist s.posted n).subset hw'), H.status⟩

end LockWords

/-- The path of a context is that of a descent along `ns`. -/
structure PathInv (ns : List ℕ) (ctx : Ctx) : Prop where
  depth : ctx.depth = ns.length + 1
  path : ∀ b : ℕ, ctx.path.set ns.length b = Cache.bucketPath (ns ++ [b])

section Copies

variable {C : IhtCfg ι K} {s s' : IhtState ι K V}

theorem PathInv.stay {ns : List ℕ} {ctx ctx' : Ctx} {b : ℕ} (H : PathInv ns ctx)
    (hd : ctx'.depth = ctx.depth) (hp : ctx'.path = ctx.path.set (ctx.depth - 1) b) :
    PathInv ns ctx' where
  depth := hd.trans H.depth
  path b' := by
    rw [hp, H.depth, Nat.add_sub_cancel, List.set_set, H.path]

theorem PathInv.congr {ns : List ℕ} {ctx ctx' : Ctx} (H : PathInv ns ctx)
    (hd : ctx'.depth = ctx.depth) (hp : ctx'.path = ctx.path) : PathInv ns ctx' where
  depth := hd.trans H.depth
  path b := by rw [hp, H.path]

/-- Every client's path is that of a descent. -/
def Paths (s : IhtState ι K V) : Prop :=
  ∀ i ctx, (s.client i).phase.ctx = some ctx → ∃ ns, PathInv ns ctx

/-- The P-List a client enters is at the end of its path. -/
theorem Paths.entering {i : ι} (H : Paths s) {ptr : RemotePtr} {d : ℕ} {path : List ℤ}
    (he : s.entering C i = some (ptr, d, path)) :
    ∃ ns, d = ns.length ∧ path = Cache.bucketPath ns := by
  unfold IhtState.entering at he
  split at he
  next n op hph =>
    simp only [Option.some.injEq, Prod.mk.injEq] at he
    exact ⟨[], he.2.1.symm, he.2.2.symm.trans (by simp [Cache.bucketPath])⟩
  next n op ctx hph =>
    generalize levelHash C.toIhtParams op.key ctx.depth ctx.count = b at he
    simp only [] at he
    split_ifs at he with hdown
    simp only [Option.some.injEq, Prod.mk.injEq] at he
    obtain ⟨-, rfl, rfl⟩ := he
    obtain ⟨ns, hns⟩ := H i ctx (by rw [hph]; rfl)
    refine ⟨ns ++ [b], by simp [hns.depth], ?_⟩
    rw [hns.depth, Nat.add_sub_cancel, hns.path]
  next => cases he

theorem Client.enter_cache (P : IhtParams K) (depth : CacheDepth) (c : Client K V) (h : Heap K V)
    (ptr : RemotePtr) (d : ℕ) (path : List ℤ) :
    (c.enter P depth h ptr d path).2.cache = c.cache
      ∨ (c.enter P depth h ptr d path).2.cache
        = (c.cache.tryCache P.plistSize depth (extendedRead P h ptr (2 ^ d)) path).2 := by
  unfold Client.enter
  split
  · exact .inl rfl
  · exact .inr rfl

/-- What a step does to a client's cache and context: it enters a P-List, or it keeps its cache and
where it is. -/
def Descends (C : IhtCfg ι K) (s : IhtState ι K V) (i : ι) (c : Client K V) : Prop :=
  (∃ ptr d path, s.entering C i = some (ptr, d, path)
    ∧ (∀ ctx, c.phase.ctx = some ctx → ctx.depth = d + 1 ∧ ctx.path = path)
    ∧ (c.cache = (s.client i).cache ∨ c.cache = ((s.client i).cache.tryCache
      C.plistSize (C.cacheDepth i) (extendedRead C.toIhtParams s.heap ptr (2 ^ d)) path).2))
  ∨ c.cache = (s.client i).cache
    ∧ ∀ ctx', c.phase.ctx = some ctx' → ∃ ctx, (s.client i).phase.ctx = some ctx
      ∧ ctx'.depth = ctx.depth ∧ (ctx'.path = ctx.path
        ∨ ∃ b : ℕ, ctx'.path = ctx.path.set (ctx.depth - 1) b)

theorem Descends.of_ctx {i : ι} {c : Client K V} {ctx' : Ctx} (ctx : Ctx)
    (hc : c.cache = (s.client i).cache) (h : (s.client i).phase.ctx = some ctx)
    (h' : c.phase.ctx = some ctx') (hd : ctx'.depth = ctx.depth) (hp : ctx'.path = ctx.path) :
    Descends C s i c := by
  refine .inr ⟨hc, fun ctx'' hctx => ⟨ctx, h, ?_⟩⟩
  rw [h', Option.some.injEq] at hctx
  rw [← hctx]
  exact ⟨hd, .inl hp⟩

theorem Descends.head {i : ι} {n : ℕ} {op : Op K V} {ctx : Ctx}
    (hph : (s.client i).phase = .head n op ctx) :
    Descends C s i (doWithHead C i s.heap (s.client i) n op ctx).client := by
  obtain ⟨b, hb⟩ : ∃ b, b = levelHash C.toIhtParams op.key ctx.depth ctx.count := ⟨_, rfl⟩
  by_cases hdown : (bucketAt ctx.curr.buckets b).lock = pUnlocked
  · refine .inl ⟨(bucketAt ctx.curr.buckets b).base, ctx.depth, ctx.path.set (ctx.depth - 1) b,
      ?_, ?_, ?_⟩
    · simp only [IhtState.entering, hph, ← hb]
      rw [if_pos hdown]
    · intro ctx' hctx
      rw [doWithHead_down hb hdown] at hctx
      simp only [Phase.ctx, Option.some.injEq] at hctx
      rw [← hctx]
      exact ⟨rfl, rfl⟩
    · rw [doWithHead_down hb hdown, ← Client.deallocate_cache (s.client i) ctx.curr]
      exact Client.enter_cache C.toIhtParams (C.cacheDepth i) _ s.heap _ ctx.depth _
  · rw [doWithHead_stay hb hdown]
    simp only []
    have hstay : ∀ c : Client K V, c.cache = (s.client i).cache →
        c.phase.ctx = some { ctx with bucket := b, path := ctx.path.set (ctx.depth - 1) b } →
        Descends C s i c := by
      intro c hc hctx
      refine .inr ⟨hc, fun ctx' h' => ⟨ctx, by rw [hph]; rfl, ?_⟩⟩
      rw [hctx, Option.some.injEq] at h'
      rw [← h']
      exact ⟨rfl, .inr ⟨b, rfl⟩⟩
    split_ifs
    · exact hstay _ rfl rfl
    · exact hstay _ rfl rfl
    · exact hstay _ rfl rfl

variable [DecidableEq K]

theorem Descends.locked {i : ι} {n : ℕ} {op : Op K V} {ctx : Ctx} {fresh : List RemotePtr}
    {eff : Effect K V} (hph : (s.client i).phase = .locked n op ctx)
    (hs : doWithLocked C i s.heap (s.client i) n op ctx fresh = some eff) :
    Descends C s i eff.client := by
  have hctx : (s.client i).phase.ctx = some ctx := by rw [hph]; rfl
  cases doWithLocked_cases hs with
  | finish | link | write | rehash => exact .of_ctx ctx rfl hctx rfl rfl rfl

theorem stepClient_descends {i : ι} {fresh : List RemotePtr} {eff : Effect K V}
    (hs : stepClient C i s.heap (s.client i) fresh = some eff) : Descends C s i eff.client := by
  unfold stepClient at hs
  split at hs
  next => cases hs
  next n op hph =>
    cases hs
    refine .inl ⟨C.root, 0, List.replicate 8 (-1), by simp only [IhtState.entering, hph], ?_, ?_⟩
    · intro ctx hctx
      simp only [doWithStart, Phase.ctx, Option.some.injEq] at hctx
      rw [← hctx]
      exact ⟨rfl, rfl⟩
    · exact Client.enter_cache C.toIhtParams (C.cacheDepth i) _ s.heap _ 0 _
  next n op ctx hph =>
    split_ifs at hs
    cases hs
    exact .head hph
  next n op ctx hph =>
    cases hs
    exact .of_ctx ctx (Client.deallocate_cache _ _) (by rw [hph]; rfl) rfl rfl rfl
  next n op ctx hph => exact .locked hph hs
  next n op ctx l r hph =>
    cases hs
    exact .of_ctx ctx rfl (by rw [hph]; rfl) rfl rfl rfl
  next n op ctx hph =>
    split_ifs at hs
    obtain ⟨⟨h', newP⟩, -, rfl⟩ := Option.map_eq_some_iff.1 hs
    exact .of_ctx ctx rfl (by rw [hph]; rfl) rfl rfl rfl
  next n op ctx ptr status hph =>
    cases hs
    exact .of_ctx ctx rfl (by rw [hph]; rfl) rfl rfl rfl
  next n op ctx status r hph =>
    cases hs
    unfold doWithUnlock
    simp only []
    split_ifs
    · exact .inr ⟨Client.deallocate_cache _ _, fun ctx' h => by cases h⟩
    · exact .of_ctx ctx rfl (by rw [hph]; rfl) rfl rfl rfl
  next n op r hph =>
    cases hs
    exact .inr ⟨rfl, fun ctx' h => by cases h⟩

variable [DecidableEq ι] {e : IhtEvent ι K V}

theorem Paths.ihtStep (H : Paths s) (hs : Rome.ihtStep C s e = some s') : Paths s' := by
  intro j ctx hctx
  rcases ihtStep_cases hs with ⟨i, op, -, hph, rfl⟩ | ⟨i, fresh, eff, -, h1, rfl⟩ |
    ⟨n, w, -, hw, rfl⟩
  · by_cases hji : j = i
    · subst hji
      simp [Phase.ctx] at hctx
    · simp only [Function.update_of_ne hji] at hctx
      exact H j ctx hctx
  · by_cases hji : j = i
    · subst hji
      simp only [IhtState.put, Function.update_self] at hctx
      rcases stepClient_descends h1 with ⟨ptr, d, path, he, h2, -⟩ | ⟨-, h2⟩
      · obtain ⟨h3, h4⟩ := h2 ctx hctx
        obtain ⟨ns, rfl, rfl⟩ := H.entering he
        exact ⟨ns, h3, fun b => by rw [h4, Cache.set_bucketPath]⟩
      · obtain ⟨ctx₀, h3, h4, h5⟩ := h2 ctx hctx
        obtain ⟨ns, hns⟩ := H j ctx₀ h3
        rcases h5 with h5 | ⟨b, h5⟩
        · exact ⟨ns, hns.congr h4 h5⟩
        · exact ⟨ns, hns.stay h4 h5⟩
    · simp only [IhtState.put, Function.update_of_ne hji] at hctx
      exact H j ctx hctx
  · exact H j ctx hctx

/-- A copy that a step stores is of the P-List the step enters, all of whose buckets but the last
are permanently unlocked. -/
theorem Paths.stored {i : ι} {fresh : List RemotePtr} {x : List ℤ × List PlistPair} (H : Paths s)
    (hs : Rome.ihtStep C s (.step i fresh) = some s') (hx : x ∈ (s'.client i).cache.stored)
    (hx' : x ∉ (s.client i).cache.stored) :
    ∃ ptr d, s.entering C i = some (ptr, d, x.1) ∧ ∀ b, b < C.plistSize * 2 ^ d - 1 →
      bucketAt x.2 b = s.heap.bucket ptr b ∧ (s.heap.bucket ptr b).lock = pUnlocked := by
  obtain ⟨eff, h1, h2⟩ := Option.map_eq_some_iff.1 hs
  have hcl : s'.client i = eff.client := by rw [← h2]; simp
  rw [hcl] at hx
  rcases stepClient_descends h1 with ⟨ptr, d, path, he, -, h3⟩ | ⟨h3, -⟩
  · obtain ⟨ns, rfl, rfl⟩ := H.entering he
    have hc : eff.client.cache ≠ (s.client i).cache := by
      intro hc
      rw [hc] at hx
      exact hx' hx
    rcases h3 with h3 | h3
    · exact absurd h3 hc
    rw [h3] at hx hc
    rcases Cache.tryCache_cases C.plistSize (C.cacheDepth i) (s.client i).cache
      (extendedRead C.toIhtParams s.heap ptr (2 ^ ns.length)) ns with h4 | ⟨-, -, hcal, h4⟩
    · exact absurd h4 hc
    rw [h4, List.mem_append, List.mem_singleton] at hx
    rcases hx with hx | rfl
    · exact absurd hx hx'
    refine ⟨ptr, ns.length, he, fun b hb => ?_⟩
    have hb' : b < C.plistSize * 2 ^ ns.length := by omega
    have hread := bucketAt_extendedRead C.toIhtParams s.heap ptr hb'
    simp only [Cache.calcified, List.all_eq_true, List.mem_range, beq_iff_eq] at hcal
    rw [bucketAt_take hb', hread, ← hread]
    exact ⟨rfl, hcal b hb⟩
  · rw [h3] at hx
    exact absurd hx hx'

end Copies

end Rome

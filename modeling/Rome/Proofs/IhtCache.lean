import Rome.Proofs.IhtCacheSlots
import Rome.Proofs.IhtLock

/-!
# The cache and the descents

A P-List is cached once all its buckets but the last lead to P-Lists. They do so for good, hence a
copy agrees with the P-List in shared memory from then on (`CacheSim.copy`). A client comes to a
P-List along buckets that lead to it, and its path says which (`CtxInv`); so a fetch that answers
with the copy stored for its path answers with the buckets that a read would return.
-/

namespace Rome

open Machine

variable {ι K V : Type*}

/-- The buckets `ns` lead from the root to the P-List. -/
inductive Leads (s : IhtState ι K V) (root : RemotePtr) : List ℕ → RemotePtr → Prop
  | root : Leads s root [] root
  | child {ns : List ℕ} {p q : RemotePtr} {b : ℕ} (h : Leads s root ns p)
    (hb : s.Calcified p b q) : Leads s root (ns ++ [b]) q

/-- The context of a descent to `ctx.parent` along `ns`. -/
structure CtxInv (C : IhtCfg ι K) (s : IhtState ι K V) (ns : List ℕ) (ctx : Ctx) : Prop where
  depth : ctx.depth = ns.length + 1
  count : ctx.count = C.plistSize * 2 ^ ns.length
  valid : Cache.Valid C.plistSize ns
  leads : Leads s C.root ns ctx.parent
  path : ∀ b : ℕ, ctx.path.set ns.length b = Cache.bucketPath (ns ++ [b])
  down : ∀ b, b < ctx.count - 1 → (bucketAt ctx.curr.buckets b).lock = pUnlocked →
    s.Calcified ctx.parent b (bucketAt ctx.curr.buckets b).base

/-- The context of a descent. -/
def Phase.ctx : Phase K V → Option Ctx
  | .head _ _ ctx => some ctx
  | .refetch _ _ ctx => some ctx
  | .locked _ _ ctx => some ctx
  | .write _ _ ctx _ _ => some ctx
  | .rehash _ _ ctx => some ctx
  | .link _ _ ctx _ _ => some ctx
  | .unlock _ _ ctx _ _ => some ctx
  | _ => none

/-- The stored copies agree with shared memory, where they will not change. -/
def Copies (C : IhtCfg ι K) (s : IhtState ι K V) (stored : List (List ℤ × List PlistPair)) : Prop :=
  ∀ x ∈ stored, ∃ ns p, x.1 = Cache.bucketPath ns ∧ Leads s C.root ns p
    ∧ ∀ b, b < C.plistSize * 2 ^ ns.length - 1 →
      bucketAt x.2 b = s.heap.bucket p b ∧ (s.heap.bucket p b).lock = pUnlocked

/-- What is known of a client's cache and descent. -/
structure ClientInv (C : IhtCfg ι K) (s : IhtState ι K V) (i : ι) (c : Client K V) : Prop where
  slots : Cache.CacheInv C.toIhtParams (C.cacheDepth i) c.cache
  copies : Copies C s c.cache.stored
  ctx : ∀ ctx, c.phase.ctx = some ctx → ∃ ns, CtxInv C s ns ctx

structure CacheSim (C : IhtCfg ι K) (s : IhtState ι K V) : Prop where
  locks : s.Locks
  client : ∀ i, ClientInv C s i (s.client i)

section Leads

variable {C : IhtCfg ι K} {s s' : IhtState ι K V}

theorem Leads.unique {root p : RemotePtr} {ns : List ℕ} (H : Leads s root ns p) :
    ∀ {p' : RemotePtr}, Leads s root ns p' → p = p' := by
  induction H with
  | root =>
    intro p' H'
    generalize hn : ([] : List ℕ) = ns at H'
    cases H' with
    | root => rfl
    | child => simp at hn
  | @child ns p q b h hb ih =>
    intro p' H'
    generalize hn : ns ++ [b] = ms at H'
    cases H' with
    | root => simp at hn
    | @child ns' p' q' b' h' hb' =>
      obtain ⟨rfl, hbb⟩ := List.append_inj' hn rfl
      simp only [List.cons.injEq, and_true] at hbb
      subst hbb
      rw [← ih h'] at hb'
      exact hb.1.symm.trans hb'.1

variable [DecidableEq ι] [DecidableEq K] {e : IhtEvent ι K V}

theorem Leads.ihtStep {root p : RemotePtr} {ns : List ℕ} (hL : s.Locks) (H : Leads s root ns p)
    (hs : Rome.ihtStep C s e = some s') : Leads s' root ns p := by
  induction H with
  | root => exact .root
  | child _ hb ih => exact .child ih (hb.ihtStep hL hs)

theorem CtxInv.ihtStep {ns : List ℕ} {ctx : Ctx} (hL : s.Locks) (H : CtxInv C s ns ctx)
    (hs : Rome.ihtStep C s e = some s') : CtxInv C s' ns ctx :=
  { H with
    leads := H.leads.ihtStep hL hs
    down := fun b hb hl => (H.down b hb hl).ihtStep hL hs }

theorem Copies.ihtStep {stored : List (List ℤ × List PlistPair)} (hL : s.Locks)
    (H : Copies C s stored) (hs : Rome.ihtStep C s e = some s') : Copies C s' stored := by
  intro x hx
  obtain ⟨ns, p, h1, h2, h3⟩ := H x hx
  refine ⟨ns, p, h1, h2.ihtStep hL hs, fun b hb => ?_⟩
  obtain ⟨h4, h5⟩ := h3 b hb
  rw [ihtStep_bucket hL h5 hs]
  exact ⟨h4, h5⟩

/-- What is known of a client stays so while others step. -/
theorem ClientInv.ihtStep {i : ι} {c : Client K V} (hL : s.Locks) (H : ClientInv C s i c)
    (hs : Rome.ihtStep C s e = some s') : ClientInv C s' i c where
  slots := H.slots
  copies := H.copies.ihtStep hL hs
  ctx ctx hc := by
    obtain ⟨ns, h⟩ := H.ctx ctx hc
    exact ⟨ns, h.ihtStep hL hs⟩

end Leads

section Enter

variable {C : IhtCfg ι K} {s : IhtState ι K V}

theorem bucketAt_extendedRead (P : IhtParams K) (h : Heap K V) (ptr : RemotePtr) {size b : ℕ}
    (hb : b < P.plistSize * size) : bucketAt (extendedRead P h ptr size) b = h.bucket ptr b := by
  rw [extendedRead, Heap.bucket, bucketAt_take hb]

/-- A client enters the P-List `ns` leads to: the buckets are those of shared memory, and the copies
still agree with it. -/
theorem ClientInv.enter {i : ι} {c : Client K V}
    (H : ClientInv C s i c) {ns : List ℕ} {ptr : RemotePtr} (hv : Cache.Valid C.plistSize ns)
    (hl : Leads s C.root ns ptr)
    (hna : ¬ Cache.Aliased C.plistSize c.cache.stored (Cache.bucketPath ns)) :
    (∀ b, b < C.plistSize * 2 ^ ns.length - 1 →
        bucketAt (c.enter C.toIhtParams (C.cacheDepth i) s.heap ptr ns.length
          (Cache.bucketPath ns)).1.buckets b = s.heap.bucket ptr b)
      ∧ Cache.CacheInv C.toIhtParams (C.cacheDepth i) (c.enter C.toIhtParams (C.cacheDepth i)
          s.heap ptr ns.length (Cache.bucketPath ns)).2.cache
      ∧ Copies C s (c.enter C.toIhtParams (C.cacheDepth i) s.heap ptr ns.length
          (Cache.bucketPath ns)).2.cache.stored := by
  rw [Client.enter]
  rcases hf : c.cache.fetch C.plistSize (C.cacheDepth i) (Cache.bucketPath ns) with _ | bs
  · have hread : ∀ b, b < C.plistSize * 2 ^ ns.length →
        bucketAt (c.read C.toIhtParams s.heap ptr ns.length).1.buckets b = s.heap.bucket ptr b :=
      fun b hb => bucketAt_extendedRead C.toIhtParams s.heap ptr hb
    refine ⟨fun b hb => hread b (by omega), H.slots.tryCache hv _, ?_⟩
    simp only [Client.read] at hread ⊢
    rcases Cache.tryCache_cases C.plistSize (C.cacheDepth i) c.cache
      (extendedRead C.toIhtParams s.heap ptr (2 ^ ns.length)) ns with h1 | ⟨-, -, hcal, h1⟩
    · rw [h1]
      exact H.copies
    · rw [h1]
      intro x hx
      rcases List.mem_append.1 hx with hx | hx
      · exact H.copies x hx
      · rw [List.mem_singleton.1 hx]
        refine ⟨ns, ptr, rfl, hl, fun b hb => ?_⟩
        have hb' : b < C.plistSize * 2 ^ ns.length := by omega
        rw [bucketAt_take hb', hread b hb']
        refine ⟨rfl, ?_⟩
        simp only [Cache.calcified, List.all_eq_true, List.mem_range, beq_iff_eq] at hcal
        rw [← hread b hb']
        exact hcal b hb
  · refine ⟨fun b hb => ?_, H.slots, H.copies⟩
    have hmem := (H.slots.fetch_stored_iff ns).2 hna bs hf
    obtain ⟨ms, p, h1, h2, h3⟩ := H.copies _ hmem
    have hlen : ns.length < (C.cacheDepth i).toNat := by
      rw [Cache.fetch_bucketPath] at hf
      split_ifs at hf with hlen
      exact hlen
    have h4 := Cache.length_lt_three hlen
    obtain rfl := Cache.bucketPath_inj (by omega) h1
    rw [hl.unique h2]
    exact (h3 b hb).1

/-- What a client knows of the P-List it has entered. -/
theorem CtxInv.of_buckets {ns : List ℕ} {ctx : Ctx} (hd : ctx.depth = ns.length + 1)
    (hc : ctx.count = C.plistSize * 2 ^ ns.length) (hv : Cache.Valid C.plistSize ns)
    (hl : Leads s C.root ns ctx.parent) (hp : ctx.path = Cache.bucketPath ns)
    (hb : ∀ b, b < ctx.count - 1 → bucketAt ctx.curr.buckets b = s.heap.bucket ctx.parent b) :
    CtxInv C s ns ctx where
  depth := hd
  count := hc
  valid := hv
  leads := hl
  path b := by rw [hp, Cache.set_bucketPath]
  down b hlt hlock := by
    rw [hb b hlt] at hlock ⊢
    exact ⟨rfl, .inl hlock⟩

theorem CtxInv.stay {ns : List ℕ} {ctx : Ctx} (H : CtxInv C s ns ctx) (b : ℕ) :
    CtxInv C s ns { ctx with bucket := b, path := ctx.path.set (ctx.depth - 1) b } where
  depth := H.depth
  count := H.count
  valid := H.valid
  leads := H.leads
  path b' := by
    simp only [H.depth, Nat.add_sub_cancel]
    rw [List.set_set, H.path]
  down := H.down

theorem CtxInv.read {ns : List ℕ} {ctx : Ctx} {curr : CachedPList} (H : CtxInv C s ns ctx)
    (hb : ∀ b, b < ctx.count - 1 → bucketAt curr.buckets b = s.heap.bucket ctx.parent b) :
    CtxInv C s ns { ctx with curr := curr } where
  depth := H.depth
  count := H.count
  valid := H.valid
  leads := H.leads
  path := H.path
  down b hlt hlock := by
    rw [hb b hlt] at hlock ⊢
    exact ⟨rfl, .inl hlock⟩

theorem valid_snoc {plistSize : ℕ} {ns : List ℕ} {b : ℕ} (hv : Cache.Valid plistSize ns)
    (hb : b < plistSize * 2 ^ ns.length - 1) : Cache.Valid plistSize (ns ++ [b]) := by
  intro i hi
  rw [List.length_append, List.length_singleton] at hi
  by_cases hlt : i < ns.length
  · rw [List.getElem_append_left hlt]
    exact hv i hlt
  · obtain rfl : i = ns.length := by omega
    simpa using hb

end Enter

section Step

variable {C : IhtCfg ι K} {s s' : IhtState ι K V}

/-- The P-List a client's next step enters, its depth and its path. -/
def IhtState.entering (C : IhtCfg ι K) (s : IhtState ι K V) (i : ι) :
    Option (RemotePtr × ℕ × List ℤ) :=
  match (s.client i).phase with
  | .start _ _ => some (C.root, 0, List.replicate 8 (-1))
  | .head _ op ctx =>
    let b := levelHash C.toIhtParams op.key ctx.depth ctx.count
    if (bucketAt ctx.curr.buckets b).lock = pUnlocked then
      some ((bucketAt ctx.curr.buckets b).base, ctx.depth, ctx.path.set (ctx.depth - 1) b)
    else none
  | _ => none

/-- No P-List is entered whose place in the cache another has. -/
def NoAlias (C : IhtCfg ι K) (s : IhtState ι K V) : IhtEvent ι K V → Prop
  | .step i _ => ∀ x ∈ s.entering C i,
    ¬ Cache.Aliased C.plistSize (s.client i).cache.stored x.2.2
  | _ => True

instance (C : IhtCfg ι K) (s : IhtState ι K V) : (e : IhtEvent ι K V) → Decidable (NoAlias C s e)
  | .step i _ => inferInstanceAs (Decidable (∀ x ∈ s.entering C i, _))
  | .invoke _ _ => .isTrue trivial
  | .deliver _ => .isTrue trivial

/-- A client enters a P-List its path leads to. -/
theorem ClientInv.entering {i : ι} (H : ClientInv C s i (s.client i)) {ptr : RemotePtr} {d : ℕ}
    {path : List ℤ} (he : s.entering C i = some (ptr, d, path)) :
    ∃ ns, d = ns.length ∧ path = Cache.bucketPath ns ∧ Cache.Valid C.plistSize ns
      ∧ Leads s C.root ns ptr := by
  rw [IhtState.entering] at he
  split at he
  next n op hph =>
    simp only [Option.some.injEq, Prod.mk.injEq] at he
    obtain ⟨rfl, rfl, rfl⟩ := he
    exact ⟨[], rfl, by simp [Cache.bucketPath], fun i hi => by simp at hi, .root⟩
  next n op ctx hph =>
    generalize hb : levelHash C.toIhtParams op.key ctx.depth ctx.count = b at he
    simp only [] at he
    split_ifs at he with hdown
    simp only [Option.some.injEq, Prod.mk.injEq] at he
    obtain ⟨rfl, rfl, rfl⟩ := he
    obtain ⟨ns, hns⟩ := H.ctx ctx (by rw [hph]; rfl)
    have hlt : b < ctx.count - 1 := by
      rw [← hb]
      refine levelHash_lt C.toIhtParams op.key ctx.depth ?_
      rw [hns.count]
      exact C.four_le.trans (Nat.le_mul_of_pos_right _ (Nat.two_pow_pos _))
    refine ⟨ns ++ [b], by simp [hns.depth], ?_, ?_, hns.leads.child (hns.down b hlt hdown)⟩
    · rw [hns.depth, Nat.add_sub_cancel, hns.path]
    · rw [hns.count] at hlt
      exact valid_snoc hns.valid hlt
  next => cases he

/-- A client after it entered a P-List. -/
theorem ClientInv.entered {i : ι} {c : Client K V} {ptr : RemotePtr} {ns : List ℕ} {count : ℕ}
    (H : ClientInv C s i c) (n b : ℕ) (op : Op K V) (hv : Cache.Valid C.plistSize ns)
    (hl : Leads s C.root ns ptr)
    (hna : ¬ Cache.Aliased C.plistSize c.cache.stored (Cache.bucketPath ns))
    (hc : count = C.plistSize * 2 ^ ns.length) :
    ClientInv C s i
      (let (curr, c) := c.enter C.toIhtParams (C.cacheDepth i) s.heap ptr ns.length
        (Cache.bucketPath ns)
      { c with
        phase := .head n op ⟨ns.length + 1, count, b, ptr, curr, Cache.bucketPath ns⟩ }) := by
  obtain ⟨h1, h2, h3⟩ := H.enter hv hl hna
  refine ⟨h2, h3, fun ctx hctx => ⟨ns, ?_⟩⟩
  simp only [Phase.ctx, Option.some.injEq] at hctx
  rw [← hctx]
  refine .of_buckets rfl hc hv hl rfl fun b hb => h1 b ?_
  rw [hc] at hb
  exact hb

theorem ClientInv.deallocate {i : ι} {c : Client K V} (H : ClientInv C s i c)
    (curr : CachedPList) : ClientInv C s i (c.deallocate curr) := by
  rw [Client.deallocate]
  split_ifs
  · exact H
  · exact ⟨H.slots, H.copies, H.ctx⟩

theorem ClientInv.head {i : ι} {n : ℕ} {op : Op K V} {ctx : Ctx}
    (H : ClientInv C s i (s.client i)) (hph : (s.client i).phase = .head n op ctx)
    (hna : ∀ x ∈ s.entering C i, ¬ Cache.Aliased C.plistSize (s.client i).cache.stored x.2.2) :
    ClientInv C s i (doWithHead C i s.heap (s.client i) n op ctx).client := by
  obtain ⟨b, hb⟩ : ∃ b, b = levelHash C.toIhtParams op.key ctx.depth ctx.count := ⟨_, rfl⟩
  obtain ⟨ns, hns⟩ := H.ctx ctx (by rw [hph]; rfl)
  by_cases hdown : (bucketAt ctx.curr.buckets b).lock = pUnlocked
  · have he : s.entering C i =
        some ((bucketAt ctx.curr.buckets b).base, ctx.depth, ctx.path.set (ctx.depth - 1) b) := by
      simp only [IhtState.entering, hph, ← hb]
      rw [if_pos hdown]
    obtain ⟨ms, h1, h2, h3, h4⟩ := H.entering he
    have hna := hna _ he
    rw [doWithHead_down hb hdown]
    simp only [] at hna ⊢
    rw [h2] at hna ⊢
    have hcount : ctx.count * 2 = C.plistSize * 2 ^ ms.length := by
      rw [hns.count, ← h1, hns.depth, pow_succ, Nat.mul_assoc]
    have hna' : ¬ Cache.Aliased C.plistSize ((s.client i).deallocate ctx.curr).cache.stored
        (Cache.bucketPath ms) := by
      rw [Client.deallocate]
      split_ifs <;> exact hna
    have h5 := (H.deallocate ctx.curr).entered n b op h3 h4 hna' hcount
    rw [← h1] at h5
    exact h5
  · rw [doWithHead_stay hb hdown]
    simp only []
    have hstay : ∀ c' : Client K V, c'.cache = (s.client i).cache →
        c'.phase.ctx = some { ctx with bucket := b, path := ctx.path.set (ctx.depth - 1) b } →
        ClientInv C s i c' := by
      intro c' hc hctx
      refine ⟨by rw [hc]; exact H.slots, by rw [hc]; exact H.copies, fun ctx' h' => ⟨ns, ?_⟩⟩
      rw [hctx, Option.some.injEq] at h'
      rw [← h']
      exact hns.stay b
    split_ifs
    · exact hstay _ rfl rfl
    · exact hstay _ rfl rfl
    · exact hstay _ rfl rfl

/-- A client that keeps its cache and its context. -/
theorem ClientInv.congr {i : ι} {c c' : Client K V} (H : ClientInv C s i c)
    (hc : c'.cache = c.cache) (hctx : ∀ ctx, c'.phase.ctx = some ctx → c.phase.ctx = some ctx) :
    ClientInv C s i c' :=
  ⟨by rw [hc]; exact H.slots, by rw [hc]; exact H.copies, fun ctx h => H.ctx ctx (hctx ctx h)⟩

variable [DecidableEq K]

theorem ClientInv.locked {i : ι} {n : ℕ} {op : Op K V} {ctx : Ctx} {fresh : List RemotePtr}
    {eff : Effect K V} (H : ClientInv C s i (s.client i))
    (hph : (s.client i).phase = .locked n op ctx)
    (hs : doWithLocked C i s.heap (s.client i) n op ctx fresh = some eff) :
    ClientInv C s i eff.client := by
  have hctx : (s.client i).phase.ctx = some ctx := by rw [hph]; rfl
  cases doWithLocked_cases hs with
  | finish | link | write | rehash => exact H.congr rfl fun _ h => by rw [hctx]; exact h

/-- A step of a client that links nothing leaves it with what is known, as of the state before. -/
theorem ClientInv.stepClient {i : ι} {fresh : List RemotePtr} {eff : Effect K V}
    (H : ClientInv C s i (s.client i)) (hna : NoAlias C s (.step i fresh))
    (hs : Rome.stepClient C i s.heap (s.client i) fresh = some eff)
    (hnl : ∀ n op ctx ptr status, (s.client i).phase ≠ .link n op ctx ptr status) :
    ClientInv C s i eff.client := by
  rw [Rome.stepClient] at hs
  split at hs
  next => cases hs
  next n op hph =>
    cases hs
    have he : s.entering C i = some (C.root, 0, List.replicate 8 (-1)) := by
      simp only [IhtState.entering, hph]
    obtain ⟨ns, h1, h2, h3, h4⟩ := H.entering he
    have hna := hna _ he
    obtain rfl := List.length_eq_zero_iff.1 h1.symm
    simp only [] at hna
    rw [h2] at hna
    simp only [doWithStart]
    rw [h2]
    exact H.entered n 0 op h3 h4 hna (by simp)
  next n op ctx hph =>
    split_ifs at hs
    cases hs
    exact H.head hph hna
  next n op ctx hph =>
    cases hs
    obtain ⟨ns, hns⟩ := (H.deallocate ctx.curr).ctx ctx
      (by rw [Client.deallocate_phase, hph]; rfl)
    refine ⟨(H.deallocate ctx.curr).slots, (H.deallocate ctx.curr).copies, fun ctx' h => ⟨ns, ?_⟩⟩
    simp only [doWithRefetch, Phase.ctx, Option.some.injEq] at h
    rw [← h]
    refine hns.read fun b hb => bucketAt_extendedRead C.toIhtParams s.heap ctx.parent ?_
    rw [hns.count] at hb
    rw [hns.depth, Nat.add_sub_cancel]
    omega
  next n op ctx hph => exact H.locked hph hs
  next n op ctx l r hph =>
    cases hs
    exact H.congr rfl fun _ h => by rw [hph]; exact h
  next n op ctx hph =>
    split_ifs at hs
    obtain ⟨⟨h', newP⟩, -, rfl⟩ := Option.map_eq_some_iff.1 hs
    exact H.congr rfl fun _ h => by rw [hph]; exact h
  next n op ctx ptr status hph => exact absurd hph (hnl n op ctx ptr status)
  next n op ctx status r hph =>
    cases hs
    simp only [doWithUnlock]
    split_ifs
    · exact (H.deallocate ctx.curr).congr rfl fun _ h => by cases h
    · exact H.congr rfl fun _ h => by rw [hph]; exact h
  next n op r hph =>
    cases hs
    exact H.congr rfl fun _ h => by cases h

variable [DecidableEq ι]

/-- The snapshot after its client has written the pointer of a bucket. -/
theorem ClientInv.link {i : ι} {n : ℕ} {op : Op K V} {ctx : Ctx} {ptr : RemotePtr}
    {status : UInt64} {fresh : List RemotePtr} (hL : s.Locks) (H : ClientInv C s i (s.client i))
    (hph : (s.client i).phase = .link n op ctx ptr status)
    (hs : Rome.ihtStep C s (.step i fresh) = some s') : ClientInv C s' i (s'.client i) := by
  have hstep : s' = s.put i (doWithLink s.heap (s.client i) n op ctx ptr status) := by
    simp only [Rome.ihtStep, Rome.stepClient, hph, Option.map_some, Option.some.injEq] at hs
    exact hs.symm
  have hhas : s.heap.Has ctx.parent ctx.bucket :=
    Heap.has_of_isLock (.inl (hL.held i ctx.parent ctx.bucket (by rw [hph]; rfl)))
  have hcl : s'.client i = (doWithLink s.heap (s.client i) n op ctx ptr status).client := by
    rw [hstep]
    simp [IhtState.put]
  obtain ⟨ns, hns⟩ := H.ctx ctx (by rw [hph]; rfl)
  have hns := hns.ihtStep hL hs
  rw [hcl]
  refine ⟨H.slots, H.copies.ihtStep hL hs, fun ctx' hctx => ⟨ns, ?_⟩⟩
  simp only [doWithLink, Phase.ctx, Option.some.injEq] at hctx
  rw [← hctx]
  refine { hns with down := fun b hlt hl => ?_ }
  simp only [] at hl hlt ⊢
  by_cases hst : status = pUnlocked
  · simp only [if_pos hst] at hl ⊢
    by_cases hb : ctx.bucket = b ∧ b < ctx.curr.buckets.length
    · obtain ⟨rfl, hlen⟩ := hb
      rw [bucketAt_set_self hlen]
      refine ⟨?_, .inr (.inr ⟨i, ?_⟩)⟩
      · rw [hstep]
        simp only [IhtState.put, doWithLink]
        rw [Heap.bucket_setBucket_self hhas]
      · rw [hcl]
        simp only [doWithLink, Phase.calcifying, hst, if_true]
    · have hset : bucketAt (ctx.curr.buckets.set ctx.bucket ⟨ptr, pUnlocked⟩) b =
          bucketAt ctx.curr.buckets b := by
        by_cases heq : ctx.bucket = b
        · rw [List.set_eq_of_length_le]
          rw [heq]
          exact not_lt.1 fun h => hb ⟨heq, h⟩
        · exact bucketAt_set_ne heq _
      rw [hset] at hl ⊢
      exact hns.down b hlt hl
  · simp only [if_neg hst] at hl ⊢
    exact hns.down b hlt hl

/-- Every event that enters no P-List whose place another has keeps the copies true. -/
theorem CacheSim.ihtStep {e : IhtEvent ι K V} (H : CacheSim C s) (hna : NoAlias C s e)
    (hs : Rome.ihtStep C s e = some s') : CacheSim C s' := by
  refine ⟨H.locks.ihtStep hs, fun j => ?_⟩
  have hold := (H.client j).ihtStep H.locks hs
  rcases ihtStep_cases hs with ⟨i, op, -, hph, rfl⟩ | ⟨i, fresh, eff, rfl, h1, rfl⟩ |
    ⟨n, w, -, hw, rfl⟩
  · by_cases hji : j = i
    · subst hji
      simp only [Function.update_self]
      exact hold.congr rfl fun _ h => by cases h
    · simpa only [Function.update_of_ne hji] using hold
  · by_cases hji : j = i
    · subst hji
      by_cases hlink : ∃ n op ctx ptr status, (s.client j).phase = .link n op ctx ptr status
      · obtain ⟨n, op, ctx, ptr, status, hph⟩ := hlink
        exact (H.client j).link H.locks hph hs
      · have h2 := (H.client j).stepClient hna h1 fun n op ctx ptr status hph =>
          hlink ⟨n, op, ctx, ptr, status, hph⟩
        simpa only [IhtState.put, Function.update_self] using h2.ihtStep H.locks hs
    · simpa only [IhtState.put, Function.update_of_ne hji] using hold
  · exact hold

/-- The insert of a key into an empty bucket. -/
def insertSteps (key : ℕ) (e : RemotePtr) : List (IhtEvent Unit ℕ ℕ) :=
  .invoke () (.insert key key) :: .step () [] :: .step () [] :: .step () [e]
    :: List.replicate 3 (.step () []) ++ [.deliver 0]

end Step

end Rome

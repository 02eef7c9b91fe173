import Rome.Proofs.IhtProtocol

/-!
# The depths of the P-Lists

A P-List has twice as many buckets as the one that leads to it, so the number of its buckets says
its depth (`Heap.IsPList`), whatever the path a client came along. A client is at the depth its
context says, also where a cached copy has led it away from its path (`CtxSizes`). The last bucket
of a P-List is one no key hashes to, and stays as `InitPList` made it.

`bucket_path` has eight entries, and nothing in the loop of `do_with` compares the depth with them:
it is left once an E-List of a P-List at depth 8 has been rehashed.
-/

namespace Rome

open Machine

variable {ι K V : Type*}

theorem IhtParams.buckets_inj (P : IhtParams K) {d d' : ℕ} (hd : 1 ≤ d) (hd' : 1 ≤ d')
    (h : P.buckets d = P.buckets d') : d = d' := by
  unfold IhtParams.buckets at h
  have := Nat.pow_right_injective le_rfl (Nat.eq_of_mul_eq_mul_left P.plistSize_pos h)
  omega

/-- The P-List `p` is allocated, is one of depth `d` and its last bucket is unused. -/
def Heap.IsPList (P : IhtParams K) (h : Heap K V) (p : RemotePtr) (d : ℕ) : Prop :=
  1 ≤ d ∧ ∃ bs, h.plist p = some bs ∧ bs.length = P.buckets d
    ∧ bucketAt bs (P.buckets d - 1) = ⟨.null, eUnlocked⟩

/-- The bucket `b` of the P-List `p` is one that keys hash to. -/
def Heap.Inner (P : IhtParams K) (h : Heap K V) (p : RemotePtr) (b : ℕ) : Prop :=
  ∃ d, h.IsPList P p d ∧ b < P.buckets d - 1

/-- The buckets are a copy of a P-List of depth `d`. -/
structure Formed (P : IhtParams K) (h : Heap K V) (d : ℕ) (bs : List PlistPair) : Prop where
  length : bs.length = P.buckets d
  last : bucketAt bs (P.buckets d - 1) = ⟨.null, eUnlocked⟩
  down : ∀ b, (bucketAt bs b).lock = pUnlocked → h.IsPList P (bucketAt bs b).base (d + 1)

section Heap

variable {P : IhtParams K} {h h' : Heap K V} {p p' : RemotePtr} {b d d' : ℕ} {x : PlistPair}

theorem Heap.IsPList.unique (H : h.IsPList P p d) (H' : h.IsPList P p d') : d = d' := by
  obtain ⟨hd, bs, h1, h2, -⟩ := H
  obtain ⟨hd', bs', h3, h4, -⟩ := H'
  rw [h1, Option.some.injEq] at h3
  subst h3
  exact P.buckets_inj hd hd' (h2.symm.trans h4)

theorem Heap.IsPList.congr (H : h.IsPList P p d) (hp : h'.plist p = h.plist p) :
    h'.IsPList P p d := by
  unfold Heap.IsPList
  rw [hp]
  exact H

/-- A P-List stays one of its depth when a bucket that keys hash to is written. -/
theorem Heap.IsPList.setBucket (H : h.IsPList P p' d') (hb : h.Inner P p b) :
    (h.setBucket p b x).IsPList P p' d' := by
  obtain ⟨d, hp, hlt⟩ := hb
  by_cases hpp : p' = p
  · subst hpp
    obtain rfl := hp.unique H
    obtain ⟨hd, bs, h1, h2, h3⟩ := H
    refine ⟨hd, bs.set b x, ?_, by rw [List.length_set, h2], ?_⟩
    · simp only [Heap.setBucket, Heap.setPlist, Function.update_self, h1, Option.getD_some]
    · rw [bucketAt_set_ne (by omega), h3]
  · refine H.congr ?_
    simp only [Heap.setBucket, Heap.setPlist, Function.update_of_ne hpp]

theorem Heap.setBucket_plist_none (hb : h.Has p b) (hp : h.plist p' = none) :
    (h.setBucket p b x).plist p' = none := by
  by_contra hne
  obtain ⟨bs, h1⟩ := Option.ne_none_iff_exists'.1 hne
  obtain ⟨bs', h2, -⟩ := Heap.setBucket_plist hb h1
  rw [hp] at h2
  cases h2

theorem Heap.Inner.mono (hle : ∀ p d, h.IsPList P p d → h'.IsPList P p d) (H : h.Inner P p b) :
    h'.Inner P p b := by
  obtain ⟨d, h1, h2⟩ := H
  exact ⟨d, hle p d h1, h2⟩

theorem Formed.mono {bs : List PlistPair} (hle : ∀ p d, h.IsPList P p d → h'.IsPList P p d)
    (H : Formed P h d bs) : Formed P h' d bs :=
  ⟨H.length, H.last, fun b hb => hle _ _ (H.down b hb)⟩

end Heap

/-- A client at a P-List knows its depth. -/
structure CtxSizes (C : IhtCfg ι K) (h : Heap K V) (ctx : Ctx) : Prop where
  path : ∃ ns, PathInv ns ctx ∧ Cache.Valid C.plistSize ns
  count : ctx.count = C.buckets ctx.depth
  parent : h.IsPList C.toIhtParams ctx.parent ctx.depth
  curr : Formed C.toIhtParams h ctx.depth ctx.curr.buckets

/-- The copies in a client's cache, the P-List it is at, the bucket it has locked and the P-List it
is about to link are of the depths they should be. -/
structure ClientSizes (C : IhtCfg ι K) (h : Heap K V) (i : ι) (c : Client K V) : Prop where
  slots : Cache.CacheInv C.toIhtParams (C.cacheDepth i) c.cache
  copies : ∀ x ∈ c.cache.stored, ∃ ns, x.1 = Cache.bucketPath ns
    ∧ Formed C.toIhtParams h (ns.length + 1) x.2
  ctx : ∀ ctx, c.phase.ctx = some ctx → CtxSizes C h ctx
  held : ∀ p b, c.phase.held = some (p, b) → h.Inner C.toIhtParams p b
  moved : ∀ n op ctx ptr, c.phase = .link n op ctx ptr pUnlocked →
    h.IsPList C.toIhtParams ptr (ctx.depth + 1)

/-- Every P-List has a depth, one more than the one that leads to it. -/
structure Sizes (C : IhtCfg ι K) (s : IhtState ι K V) : Prop where
  locks : s.Locks
  root : s.heap.IsPList C.toIhtParams C.root 1
  lists : ∀ p, s.heap.plist p ≠ none → ∃ d, s.heap.IsPList C.toIhtParams p d
  down : ∀ p b q d, s.Calcified p b q → s.heap.IsPList C.toIhtParams p d →
    s.heap.IsPList C.toIhtParams q (d + 1)
  sent : ∀ w ∈ s.posted, s.heap.Inner C.toIhtParams w.ptr w.bucket
  client : ∀ i, ClientSizes C s.heap i (s.client i)

section Rehash

variable {P : IhtParams K} {h h' : Heap K V}

/-- The loop of `rehash` leaves a bucket to which no pair hashes as it is. -/
theorem rehashLoop_buckets {level count : ℕ} {src : List (K × V)} {fresh : List RemotePtr}
    {bs bs' : List PlistPair} (hr : rehashLoop P level count src fresh h bs = some (h', bs')) :
    bs'.length = bs.length
      ∧ ∀ b, (∀ x ∈ src, levelHash P x.1 level count ≠ b) → bucketAt bs' b = bucketAt bs b := by
  refine (rehashLoop_rule (I := fun todo _ bs' => todo ⊆ src ∧ bs'.length = bs.length
    ∧ ∀ b, (∀ x ∈ src, levelHash P x.1 level count ≠ b) → bucketAt bs' b = bucketAt bs b) hr
    ⟨fun _ hx => hx, rfl, fun _ _ => rfl⟩ ?_ ?_).2
  · rintro x todo _ bs₁ e ⟨hsub, hlen, hbs⟩ _
    rw [List.cons_subset] at hsub
    refine ⟨hsub.2, by rw [List.length_set, hlen], fun b hb => ?_⟩
    rw [bucketAt_set_ne (hb x hsub.1), hbs b hb]
  · rintro x todo _ _ ⟨hsub, H⟩ _
    exact ⟨(List.cons_subset.1 hsub).2, H⟩

theorem rehash_isPList {self : UInt16} {base newP : RemotePtr} {d : ℕ} {fresh : List RemotePtr}
    (hd : 1 ≤ d) (hr : rehash P self h base (P.buckets d) d fresh = some (h', newP)) :
    h'.IsPList P newP (d + 1) := by
  have h4 := P.four_le_buckets (d + 1)
  have hmult := P.mul_buckets_div (d + 1)
  obtain ⟨blocks, source, h₁, bs, -, -, hl, rfl⟩ := rehash_cases hr
  rw [← P.buckets_succ hd] at hl
  obtain ⟨h1, h2⟩ := rehashLoop_buckets hl
  refine ⟨by omega, bs, ?_, by rw [h1, initPList_length, hmult], ?_⟩
  · split_ifs <;> simp [Heap.setPlist, Heap.setElist]
  · rw [h2, bucketAt_initPList P (by omega)]
    intro x _ hx
    have := levelHash_lt P x.1 (d + 1) h4
    omega

end Rehash

section Step

variable {C : IhtCfg ι K} {s s' : IhtState ι K V} {i : ι}

theorem Sizes.formed (H : Sizes C s) {p : RemotePtr} {d : ℕ}
    (hp : s.heap.IsPList C.toIhtParams p d) :
    ∃ bs, s.heap.plist p = some bs ∧ Formed C.toIhtParams s.heap d bs := by
  obtain ⟨hd, bs, h1, h2, h3⟩ := id hp
  refine ⟨bs, h1, h2, h3, fun b hb => H.down p b _ d ?_ hp⟩
  have hbucket : s.heap.bucket p b = bucketAt bs b := by
    simp only [Heap.bucket, h1, Option.getD_some]
  rw [← hbucket] at hb ⊢
  exact ⟨rfl, .inl hb⟩

theorem CtxSizes.mono {h h' : Heap K V} {ctx : Ctx} (H : CtxSizes C h ctx)
    (hle : ∀ p d, h.IsPList C.toIhtParams p d → h'.IsPList C.toIhtParams p d) :
    CtxSizes C h' ctx :=
  ⟨H.path, H.count, hle _ _ H.parent, H.curr.mono hle⟩

theorem CtxSizes.lt {h : Heap K V} {ctx : Ctx} (H : CtxSizes C h ctx) (key : K) :
    levelHash C.toIhtParams key ctx.depth ctx.count < ctx.count - 1 := by
  refine levelHash_lt C.toIhtParams key ctx.depth ?_
  rw [H.count]
  exact C.four_le_buckets ctx.depth

theorem ClientSizes.mono {h h' : Heap K V} {c : Client K V} (H : ClientSizes C h i c)
    (hle : ∀ p d, h.IsPList C.toIhtParams p d → h'.IsPList C.toIhtParams p d) :
    ClientSizes C h' i c where
  slots := H.slots
  copies x hx := by
    obtain ⟨ns, h1, h2⟩ := H.copies x hx
    exact ⟨ns, h1, h2.mono hle⟩
  ctx ctx hc := (H.ctx ctx hc).mono hle
  held p b hb := (H.held p b hb).mono hle
  moved n op ctx ptr hph := hle _ _ (H.moved n op ctx ptr hph)

/-- A read of a P-List of its depth reads all of it. -/
theorem extendedRead_eq (P : IhtParams K) {h : Heap K V} {p : RemotePtr} {bs : List PlistPair}
    {d : ℕ} (h1 : h.plist p = some bs) (h2 : bs.length = P.buckets d) :
    extendedRead P h p (2 ^ (d - 1)) = bs := by
  unfold extendedRead
  rw [h1, Option.getD_some]
  exact List.take_of_length_le (by rw [h2]; rfl)

/-- A client enters a P-List one depth below: what it acts on from then on is one of that depth. -/
theorem ClientSizes.enter {h : Heap K V} {c : Client K V} (H : ClientSizes C h i c) {ns : List ℕ}
    {ptr : RemotePtr} (hv : Cache.Valid C.plistSize ns)
    (hf : ∃ bs, h.plist ptr = some bs ∧ Formed C.toIhtParams h (ns.length + 1) bs) :
    Formed C.toIhtParams h (ns.length + 1) (c.enter C.toIhtParams (C.cacheDepth i) h ptr ns.length
        (Cache.bucketPath ns)).1.buckets
      ∧ Cache.CacheInv C.toIhtParams (C.cacheDepth i) (c.enter C.toIhtParams (C.cacheDepth i) h ptr
        ns.length (Cache.bucketPath ns)).2.cache
      ∧ ∀ x ∈ (c.enter C.toIhtParams (C.cacheDepth i) h ptr ns.length
        (Cache.bucketPath ns)).2.cache.stored, ∃ ms, x.1 = Cache.bucketPath ms
          ∧ Formed C.toIhtParams h (ms.length + 1) x.2 := by
  obtain ⟨bs, h1, h2⟩ := hf
  have hread : extendedRead C.toIhtParams h ptr (2 ^ ns.length) = bs :=
    extendedRead_eq C.toIhtParams h1 h2.length
  unfold Client.enter
  rcases hf : c.cache.fetch C.plistSize (C.cacheDepth i) (Cache.bucketPath ns) with _ | bs'
  · simp only [Client.read, hread]
    refine ⟨h2, H.slots.tryCache hv _, ?_⟩
    rcases Cache.tryCache_cases C.plistSize (C.cacheDepth i) c.cache bs ns with h3 | ⟨-, -, -, h3⟩
    · rw [h3]
      exact H.copies
    · rw [h3, List.take_of_length_le (by rw [h2.length]; rfl)]
      intro x hx
      rcases List.mem_append.1 hx with hx | hx
      · exact H.copies x hx
      · rw [List.mem_singleton.1 hx]
        exact ⟨ns, rfl, h2⟩
  · refine ⟨?_, H.slots, H.copies⟩
    rw [Cache.fetch_bucketPath] at hf
    split_ifs at hf with hlen
    obtain ⟨ms, h3, -, h4⟩ := H.slots.filled _ _ bs' hf
    obtain ⟨ls, h5, h6⟩ := H.copies _ h4
    have h7 := Cache.length_lt_three hlen
    obtain rfl := Cache.bucketPath_inj (by omega) h5
    rw [← h3]
    exact h6

theorem ClientSizes.entered {h : Heap K V} {c : Client K V} {ptr : RemotePtr} {ns : List ℕ}
    {count : ℕ} (H : ClientSizes C h i c) (n b : ℕ) (op : Op K V)
    (hv : Cache.Valid C.plistSize ns) (hp : h.IsPList C.toIhtParams ptr (ns.length + 1))
    (hf : ∃ bs, h.plist ptr = some bs ∧ Formed C.toIhtParams h (ns.length + 1) bs)
    (hc : count = C.buckets (ns.length + 1)) :
    ClientSizes C h i
      (let (curr, c) := c.enter C.toIhtParams (C.cacheDepth i) h ptr ns.length
        (Cache.bucketPath ns)
      { c with
        phase := .head n op ⟨ns.length + 1, count, b, ptr, curr, Cache.bucketPath ns⟩ }) := by
  obtain ⟨h1, h2, h3⟩ := H.enter hv hf
  refine ⟨h2, h3, fun ctx hctx => ?_, fun p b hb => ?_, fun n op ctx ptr hph => ?_⟩
  · simp only [Phase.ctx, Option.some.injEq] at hctx
    rw [← hctx]
    exact ⟨⟨ns, ⟨rfl, Cache.set_bucketPath ns⟩, hv⟩, hc, hp, h1⟩
  · cases hb
  · cases hph

/-- A client that keeps its cache and links no P-List. -/
theorem ClientSizes.congr {h : Heap K V} {c c' : Client K V} (H : ClientSizes C h i c)
    (hc : c'.cache = c.cache) (hctx : ∀ ctx, c'.phase.ctx = some ctx → CtxSizes C h ctx)
    (hheld : ∀ p b, c'.phase.held = some (p, b) → h.Inner C.toIhtParams p b)
    (hmoved : ∀ n op ctx ptr, c'.phase ≠ .link n op ctx ptr pUnlocked) :
    ClientSizes C h i c' where
  slots := by rw [hc]; exact H.slots
  copies := by rw [hc]; exact H.copies
  ctx := hctx
  held := hheld
  moved n op ctx ptr hph := absurd hph (hmoved n op ctx ptr)

theorem CtxSizes.stay {h : Heap K V} {ctx : Ctx} (H : CtxSizes C h ctx) (b : ℕ) :
    CtxSizes C h { ctx with bucket := b, path := ctx.path.set (ctx.depth - 1) b } := by
  obtain ⟨ns, h1, h2⟩ := H.path
  exact ⟨⟨ns, h1.stay rfl rfl, h2⟩, H.count, H.parent, H.curr⟩

theorem CtxSizes.read {h : Heap K V} {ctx : Ctx} {curr : CachedPList} (H : CtxSizes C h ctx)
    (hc : Formed C.toIhtParams h ctx.depth curr.buckets) :
    CtxSizes C h { ctx with curr := curr } := by
  obtain ⟨ns, h1, h2⟩ := H.path
  exact ⟨⟨ns, h1.congr rfl rfl, h2⟩, H.count, H.parent, hc⟩

theorem CtxSizes.linked {h : Heap K V} {ctx : Ctx} {ptr : RemotePtr} (H : CtxSizes C h ctx)
    (hb : h.Inner C.toIhtParams ctx.parent ctx.bucket)
    (hp : h.IsPList C.toIhtParams ptr (ctx.depth + 1)) :
    Formed C.toIhtParams h ctx.depth (ctx.curr.buckets.set ctx.bucket ⟨ptr, pUnlocked⟩) := by
  obtain ⟨d, h1, h2⟩ := hb
  obtain rfl := h1.unique H.parent
  have hlen := H.curr.length
  refine ⟨by rw [List.length_set, hlen], ?_, fun b hb => ?_⟩
  · rw [bucketAt_set_ne (by omega), H.curr.last]
  · by_cases hbb : ctx.bucket = b
    · subst hbb
      rw [bucketAt_set_self (by omega)]
      exact hp
    · rw [bucketAt_set_ne hbb] at hb ⊢
      exact H.curr.down b hb

section Client

variable {h : Heap K V} {c : Client K V} {n : ℕ} {op : Op K V} {ctx : Ctx} {b : ℕ}

/-- Where the snapshot leads to a P-List, the client goes on to it. -/
theorem ClientSizes.head_down (H : ClientSizes C h i c) (hph : c.phase = .head n op ctx)
    (hform : ∀ {p : RemotePtr} {d : ℕ}, h.IsPList C.toIhtParams p d →
      ∃ bs, h.plist p = some bs ∧ Formed C.toIhtParams h d bs)
    (hb : b = levelHash C.toIhtParams op.key ctx.depth ctx.count)
    (hdown : (bucketAt ctx.curr.buckets b).lock = pUnlocked) :
    ClientSizes C h i (doWithHead C i h c n op ctx).client := by
  have hctx := H.ctx ctx (by rw [hph]; rfl)
  obtain ⟨ns, h1, h2⟩ := hctx.path
  have hlt := hctx.lt op.key
  have hlen : (ns ++ [b]).length = ctx.depth := by
    rw [List.length_append, h1.depth]
    rfl
  rw [← hb, hctx.count, h1.depth] at hlt
  have hchild := hctx.curr.down b hdown
  have hfree : ClientSizes C h i (c.deallocate ctx.curr) := by
    refine H.congr (Client.deallocate_cache _ _) ?_ ?_ ?_ <;> rw [Client.deallocate_phase]
    · exact H.ctx
    · exact H.held
    · rw [hph]
      exact fun _ _ _ _ => by simp
  have h3 := hfree.entered n b op (valid_snoc h2 hlt) (by rw [hlen]; exact hchild)
    (by rw [hlen]; exact hform hchild) (show ctx.count * 2 = _ by
      rw [hlen, C.buckets_succ hctx.parent.1, hctx.count])
  rw [doWithHead_down hb hdown]
  simp only [hlen] at h3
  have hpath := h1.path b
  rw [show ns.length = ctx.depth - 1 by rw [h1.depth]; rfl] at hpath
  simp only [hpath]
  exact h3

/-- Elsewhere it stays at its P-List, with the bucket it has locked if any. -/
theorem ClientSizes.head_stay {eff : Effect K V} (heff : eff = doWithHead C i h c n op ctx)
    (H : ClientSizes C eff.heap i c) (hph : c.phase = .head n op ctx)
    (hheld : ∀ p b, eff.client.phase.held = some (p, b) → eff.heap.Inner C.toIhtParams p b)
    (hb : b = levelHash C.toIhtParams op.key ctx.depth ctx.count)
    (hdown : (bucketAt ctx.curr.buckets b).lock ≠ pUnlocked) :
    ClientSizes C eff.heap i eff.client := by
  have hctx := (H.ctx ctx (by rw [hph]; rfl)).stay b
  rw [doWithHead_stay hb hdown] at heff
  subst heff
  simp only [] at H hheld hctx ⊢
  split_ifs at H hheld hctx ⊢
  all_goals
    refine H.congr rfl (fun ctx' h3 => ?_) hheld fun _ _ _ _ => by simp
    simp only [Phase.ctx, Option.some.injEq] at h3
    rw [← h3]
    exact hctx

theorem ClientSizes.refetch (H : ClientSizes C h i c) (hph : c.phase = .refetch n op ctx)
    (hform : ∀ {p : RemotePtr} {d : ℕ}, h.IsPList C.toIhtParams p d →
      ∃ bs, h.plist p = some bs ∧ Formed C.toIhtParams h d bs) :
    ClientSizes C h i (doWithRefetch C h c n op ctx).client := by
  have hctx := H.ctx ctx (by rw [hph]; rfl)
  obtain ⟨bs, h1, h2⟩ := hform hctx.parent
  refine H.congr (Client.deallocate_cache _ _) (fun ctx' h3 => ?_) (fun _ _ h3 => by cases h3)
    fun _ _ _ _ => by simp [doWithRefetch]
  simp only [doWithRefetch, Phase.ctx, Option.some.injEq] at h3
  rw [← h3]
  refine hctx.read ?_
  simp only [Client.read, extendedRead_eq C.toIhtParams h1 h2.length]
  exact h2

/-- The snapshot is changed with the bucket that `change_bucket_pointer` writes. -/
theorem ClientSizes.link {ptr : RemotePtr} {status : UInt64} {h' : Heap K V}
    (H : ClientSizes C h' i c) (hph : c.phase = .link n op ctx ptr status) :
    ClientSizes C h' i (doWithLink h c n op ctx ptr status).client := by
  have hctx := H.ctx ctx (by rw [hph]; rfl)
  refine H.congr rfl (fun ctx' h3 => ?_) (fun p b h3 => H.held p b ?_)
    fun _ _ _ _ => by simp [doWithLink]
  · simp only [doWithLink, Phase.ctx, Option.some.injEq] at h3
    rw [← h3]
    refine hctx.read ?_
    split_ifs with hst
    · subst hst
      exact hctx.linked (H.held _ _ (by rw [hph]; rfl)) (H.moved n op ctx ptr hph)
    · exact hctx.curr
  · rw [hph]
    exact h3

/-- The call ends with the unlock, or goes on at the head of the loop. -/
theorem ClientSizes.unlock {status : UInt64} {r : Option V} (H : ClientSizes C h i c)
    (hph : c.phase = .unlock n op ctx status r) :
    ClientSizes C h i (doWithUnlock h c n op ctx status r).client := by
  unfold doWithUnlock
  simp only []
  split_ifs
  · exact H.congr (Client.deallocate_cache _ _) (fun _ h1 => by cases h1)
      (fun _ _ h1 => by cases h1) fun _ _ _ _ => by simp
  · refine H.congr rfl (fun ctx' h1 => H.ctx ctx' ?_) (fun _ _ h1 => by cases h1)
      fun _ _ _ _ => by simp
    rw [hph]
    exact h1

end Client

variable [DecidableEq K]

/-- A step locks no bucket but that of the key at the P-List the client is at. -/
theorem stepClient_locks {h : Heap K V} {c : Client K V} {fresh : List RemotePtr} {e : Effect K V}
    (hs : stepClient C i h c fresh = some e) {x : RemotePtr × ℕ}
    (hx : e.client.phase.held = some x) :
    c.phase.held = some x ∨ ∃ n op ctx, c.phase = .head n op ctx
      ∧ x = (ctx.parent, levelHash C.toIhtParams op.key ctx.depth ctx.count) := by
  have heff := stepClient_effect hs
  generalize e.posted = w at heff
  cases heff with
  | same hp hh => exact .inl (hh ▸ hx)
  | grow hn hc hp hh => exact .inl (hh ▸ hx)
  | link hh hc hp hh' => exact .inl (hh.trans (hh'.symm.trans hx))
  | post hh hp hh' =>
    rw [hh'] at hx
    cases hx
  | acquire hl hh hp hh' =>
    right
    rcases hph : c.phase with _ | ⟨n, op⟩ | ⟨n, op, ctx⟩ | ⟨n, op, ctx⟩ | _ | _ | _ | _ | _ |
      ⟨n, op, r⟩ <;>
      simp only [hph, Phase.held, reduceCtorEq] at hh <;>
      simp only [stepClient, hph, Option.some.injEq, reduceCtorEq] at hs
    · subst hs
      cases hx
    · split_ifs at hs
      cases hs
      refine ⟨n, op, ctx, rfl, ?_⟩
      obtain ⟨b, hb⟩ : ∃ b, b = levelHash C.toIhtParams op.key ctx.depth ctx.count := ⟨_, rfl⟩
      by_cases hdown : (bucketAt ctx.curr.buckets b).lock = pUnlocked
      · rw [doWithHead_down hb hdown] at hx
        cases hx
      · rw [doWithHead_stay hb hdown] at hx
        simp only [] at hx
        split_ifs at hx
        · cases hx
        · rw [← hb]
          exact (Option.some.inj hx).symm
        · cases hx
    · subst hs
      cases hx
    · subst hs
      cases hx

/-- A client posts the unlock of the bucket it has done with, and nothing else. -/
theorem stepClient_posted {h : Heap K V} {c : Client K V} {fresh : List RemotePtr} {e : Effect K V}
    {w : Posted} (hs : stepClient C i h c fresh = some e) (hw : e.posted = some w) :
    e.heap = h ∧ ∃ n op ctx r, c.phase = .unlock n op ctx w.status r
      ∧ w.ptr = ctx.parent ∧ w.bucket = ctx.bucket := by
  have heff := stepClient_effect hs
  rw [hw] at heff
  cases heff with
  | post hh hp hh' hc hst =>
    refine ⟨hp, ?_⟩
    rcases hph : c.phase with _ | _ | _ | _ | _ | _ | _ | ⟨n, op, ctx, ptr, status⟩ |
      ⟨n, op, ctx, status, r⟩ | _ <;>
      simp only [hph, Phase.status, Option.some.injEq, reduceCtorEq] at hst <;>
      simp only [stepClient, hph, Option.some.injEq] at hs
    · subst hs
      cases hw
    · subst hs
      cases hw
      exact ⟨n, op, ctx, r, rfl, rfl, rfl⟩

/-- A client is about to unlock a bucket that leads to a P-List after it has written its pointer. -/
theorem stepClient_calcifying {h : Heap K V} {c : Client K V} {fresh : List RemotePtr}
    {e : Effect K V} {x : RemotePtr × ℕ} (hs : stepClient C i h c fresh = some e)
    (hx : e.client.phase.calcifying = some x) :
    ∃ n op ctx ptr, c.phase = .link n op ctx ptr pUnlocked ∧ x = (ctx.parent, ctx.bucket)
      ∧ e.heap = h.setBucket ctx.parent ctx.bucket
        { h.bucket ctx.parent ctx.bucket with base := ptr } := by
  have hne := eUnlocked_ne_pUnlocked
  unfold stepClient at hs
  split at hs
  next => cases hs
  next n op hph =>
    cases hs
    cases hx
  next n op ctx hph =>
    split_ifs at hs
    cases hs
    unfold doWithHead at hx
    simp only [] at hx
    split_ifs at hx <;> cases hx
  next n op ctx hph =>
    cases hs
    cases hx
  next n op ctx hph =>
    cases doWithLocked_cases hs with
    | finish r => simp [Phase.calcifying, hne] at hx
    | link | write | rehash => cases hx
  next n op ctx l r hph =>
    cases hs
    simp [Phase.calcifying, hne] at hx
  next n op ctx hph =>
    split_ifs at hs
    obtain ⟨⟨h', newP⟩, -, rfl⟩ := Option.map_eq_some_iff.1 hs
    cases hx
  next n op ctx ptr status hph =>
    cases hs
    simp only [doWithLink, Phase.calcifying] at hx
    split_ifs at hx with hst
    subst hst
    exact ⟨n, op, ctx, ptr, hph, (Option.some.inj hx).symm, rfl⟩
  next n op ctx status r hph =>
    cases hs
    simp only [doWithUnlock] at hx
    split_ifs at hx <;> cases hx
  next n op r hph =>
    cases hs
    cases hx

omit [DecidableEq K] in
/-- A client's step makes no bucket's lock say that it leads to a P-List. -/
theorem BucketEffect.lock_eq {h h' : Heap K V} {ph ph' : Phase K V} {w : Option Posted}
    {p : RemotePtr} {b : ℕ} (H : BucketEffect h ph h' ph' w)
    (hL : ∀ p b, ph.held = some (p, b) → (h.bucket p b).lock = eLocked)
    (hl : (h'.bucket p b).lock = pUnlocked) : h'.bucket p b = h.bucket p b := by
  cases H with
  | same hp hh hc => simp only [Heap.bucket, hp]
  | @acquire p' b' _ _ hl' hh hp hh' =>
    by_cases heq : p = p' ∧ b = b'
    · obtain ⟨rfl, rfl⟩ := heq
      rw [hp, Heap.bucket_setBucket_self (Heap.has_of_isLock (.inr (.inl hl')))] at hl
      exact absurd hl eLocked_ne_pUnlocked
    · rw [hp, Heap.bucket_setBucket_ne heq]
  | @link p' b' ptr _ _ hh hc hp hh' =>
    by_cases heq : p = p' ∧ b = b'
    · obtain ⟨rfl, rfl⟩ := heq
      have hlock := hL p b hh
      rw [hp, Heap.bucket_setBucket_self (Heap.has_of_isLock (.inl hlock))] at hl
      exact absurd (hlock.symm.trans hl) eLocked_ne_pUnlocked
    · rw [hp, Heap.bucket_setBucket_ne heq]
  | @grow newP bs _ _ hn hc hp hh hb hs =>
    by_cases hpp : p = newP
    · subst hpp
      simp only [Heap.bucket, hp, Function.update_self, Option.getD_some] at hl
      exact absurd hl (bucketAt_lock_ne hb (.inr (.inr rfl)) eUnlocked_ne_pUnlocked b)
    · simp only [Heap.bucket, hp, Function.update_of_ne hpp]
  | post hh hp hh' hc => rw [hp]

variable [DecidableEq ι] {e : IhtEvent ι K V}

/-- A bucket that leads to a P-List after a step did so before it, or the step wrote its pointer. -/
theorem IhtState.Calcified.of_ihtStep {p q : RemotePtr} {b : ℕ} (hL : s.Locks)
    (hs : Rome.ihtStep C s e = some s') (H : s'.Calcified p b q) :
    s.Calcified p b q ∨ ∃ i n op ctx, (s.client i).phase = .link n op ctx q pUnlocked
      ∧ ctx.parent = p ∧ ctx.bucket = b := by
  obtain ⟨hbase, hcal⟩ := H
  rcases ihtStep_cases hs with ⟨i, op, -, hph, rfl⟩ | ⟨i, fresh, eff, -, h1, rfl⟩ |
    ⟨n, w, -, hw, rfl⟩
  · refine .inl ⟨hbase, hcal.imp_right (Or.imp_right ?_)⟩
    rintro ⟨j, hj⟩
    refine ⟨j, ?_⟩
    have hji : j ≠ i := by
      rintro rfl
      simp [Phase.calcifying] at hj
    simpa [Function.update_of_ne hji] using hj
  · have heff := stepClient_effect h1
    have hkeep : (s.heap.bucket p b).lock = eLocked → (s.client i).phase.held ≠ some (p, b) →
        (s.heap.bucket p b).base = q := by
      intro hl hne
      rw [← hbase]
      simp only [IhtState.put]
      rw [(heff.bucket (.inl hl)).2 fun h => absurd h hne]
    rcases hcal with h2 | h2 | ⟨j, hj⟩
    · simp only [IhtState.put] at h2 hbase
      have h3 := heff.lock_eq (hL.held i) h2
      rw [h3] at h2 hbase
      exact .inl ⟨hbase, .inl h2⟩
    · rcases List.mem_append.1 h2 with h2 | h2
      · exact .inl ⟨hkeep (hL.sent _ h2) (hL.apart i _ h2), .inr (.inl h2)⟩
      · rw [Option.mem_toList] at h2
        obtain ⟨h3, n, op, ctx, r, h4, h5, h6⟩ := stepClient_posted h1 h2
        simp only [] at h4 h5 h6
        refine .inl ⟨?_, .inr (.inr ⟨i, ?_⟩)⟩
        · rw [← hbase]
          simp only [IhtState.put, h3]
        · rw [h4, h5, h6]
          simp [Phase.calcifying]
    · by_cases hji : j = i
      · subst hji
        simp only [IhtState.put, Function.update_self] at hj hbase
        obtain ⟨n, op, ctx, ptr, h3, h4, h5⟩ := stepClient_calcifying h1 hj
        simp only [Prod.mk.injEq] at h4
        obtain ⟨rfl, rfl⟩ := h4
        have hlock := hL.held j ctx.parent ctx.bucket (by rw [h3]; rfl)
        rw [h5, Heap.bucket_setBucket_self (Heap.has_of_isLock (.inl hlock))] at hbase
        simp only [] at hbase
        subst hbase
        exact .inr ⟨j, n, op, ctx, h3, rfl, rfl⟩
      · simp only [IhtState.put, Function.update_of_ne hji] at hj
        have hheld := Phase.held_of_calcifying hj
        exact .inl ⟨hkeep (hL.held j p b hheld) fun h => hji (hL.excl j i p b hheld h),
          .inr (.inr ⟨j, hj⟩)⟩
  · have hmem := List.mem_of_getElem? hw
    have hhas : s.heap.Has w.ptr w.bucket := Heap.has_of_isLock (.inl (hL.sent w hmem))
    have hb : (s.heap.bucket p b).base = q := by
      by_cases heq : p = w.ptr ∧ b = w.bucket
      · simp only [heq, Heap.bucket_setBucket_self hhas] at hbase
        rw [heq.1, heq.2]
        exact hbase
      · rwa [Heap.bucket_setBucket_ne heq] at hbase
    rcases hcal with h2 | h2 | h2
    · by_cases heq : p = w.ptr ∧ b = w.bucket
      · obtain ⟨rfl, rfl⟩ := heq
        rw [Heap.bucket_setBucket_self hhas] at h2
        refine .inl ⟨hb, .inr (.inl ?_)⟩
        rw [← show w.status = pUnlocked from h2]
        exact hmem
      · rw [Heap.bucket_setBucket_ne heq] at h2
        exact .inl ⟨hb, .inl h2⟩
    · exact .inl ⟨hb, .inr (.inl ((List.eraseIdx_sublist s.posted n).subset h2))⟩
    · exact .inl ⟨hb, .inr (.inr h2)⟩

theorem Sizes.grows (H : Sizes C s) (hs : Rome.ihtStep C s e = some s') {p : RemotePtr} {d : ℕ}
    (hp : s.heap.IsPList C.toIhtParams p d) : s'.heap.IsPList C.toIhtParams p d := by
  rcases ihtStep_cases hs with ⟨i, op, -, -, rfl⟩ | ⟨i, fresh, eff, -, h1, rfl⟩ |
    ⟨n, w, -, hw, rfl⟩
  · exact hp
  · have heff := stepClient_effect h1
    have hinner : ∀ p b, eff.client.phase.held = some (p, b) →
        s.heap.Inner C.toIhtParams p b := by
      intro p b hb
      rcases stepClient_locks h1 hb with h2 | ⟨n, op, ctx, hph, h2⟩
      · exact (H.client i).held p b h2
      · have hctx := (H.client i).ctx ctx (by rw [hph]; rfl)
        have hlt := hctx.lt op.key
        cases h2
        rw [hctx.count] at hlt ⊢
        exact ⟨_, hctx.parent, hlt⟩
    simp only [IhtState.put]
    generalize eff.posted = w at heff
    cases heff with
    | same hp' => exact hp.congr (by rw [hp'])
    | acquire hl hh hp' hh' =>
      rw [hp']
      exact hp.setBucket (hinner _ _ hh')
    | link hh hc hp' hh' =>
      rw [hp']
      exact hp.setBucket (hinner _ _ hh')
    | @grow newP bs _ _ hn hc hp' hh hb hst =>
      refine hp.congr ?_
      obtain ⟨-, bs', h2, -⟩ := hp
      have hne : p ≠ newP := by
        rintro rfl
        rw [hn] at h2
        cases h2
      rw [hp', Function.update_of_ne hne]
    | post hh hp' =>
      rw [hp']
      exact hp
  · exact hp.setBucket (H.sent w (List.mem_of_getElem? hw))

omit [DecidableEq ι] in
theorem ClientSizes.stepClient {fresh : List RemotePtr} {eff : Effect K V} (H : Sizes C s)
    (hs : Rome.stepClient C i s.heap (s.client i) fresh = some eff)
    (hle : ∀ p d, s.heap.IsPList C.toIhtParams p d → eff.heap.IsPList C.toIhtParams p d) :
    ClientSizes C eff.heap i eff.client := by
  have hc := H.client i
  have hold := hc.mono hle
  have hheld : ∀ p b, eff.client.phase.held = some (p, b) →
      eff.heap.Inner C.toIhtParams p b := by
    intro p b hb
    rcases stepClient_locks hs hb with h2 | ⟨n, op, ctx, hph, h2⟩
    · exact hold.held p b h2
    · have hctx := hold.ctx ctx (by rw [hph]; rfl)
      have hlt := hctx.lt op.key
      cases h2
      rw [hctx.count] at hlt ⊢
      exact ⟨_, hctx.parent, hlt⟩
  -- a step that leaves the client at its P-List
  have hstay : ∀ {ctx : Ctx}, (s.client i).phase.ctx = some ctx → eff.client.cache =
      (s.client i).cache → eff.client.phase.ctx = some ctx →
      (∀ n op ctx ptr, eff.client.phase ≠ .link n op ctx ptr pUnlocked) →
      ClientSizes C eff.heap i eff.client := by
    intro ctx h1 h2 h3 h4
    refine hold.congr h2 (fun ctx' h5 => ?_) hheld h4
    rw [h3, Option.some.injEq] at h5
    rw [← h5]
    exact hold.ctx ctx h1
  unfold Rome.stepClient at hs
  split at hs
  next => cases hs
  next n op hph =>
    cases hs
    have hroot : s.heap.IsPList C.toIhtParams C.root 1 := H.root
    have h1 := hc.entered n 0 op
      (show Cache.Valid C.plistSize [] from fun j hj => by simp at hj) hroot (H.formed hroot)
      C.buckets_one.symm
    simp only [Cache.bucketPath, List.map_nil, List.nil_append, List.take_replicate] at h1
    exact h1
  next n op ctx hph =>
    split_ifs at hs
    cases hs
    by_cases hdown : (bucketAt ctx.curr.buckets
        (levelHash C.toIhtParams op.key ctx.depth ctx.count)).lock = pUnlocked
    · have h1 := hc.head_down hph H.formed rfl hdown
      rw [doWithHead_down rfl hdown] at h1 ⊢
      exact h1
    · exact .head_stay rfl hold hph hheld rfl hdown
  next n op ctx hph =>
    cases hs
    exact hc.refetch hph H.formed
  next n op ctx hph =>
    have hctx : (s.client i).phase.ctx = some ctx := by rw [hph]; rfl
    cases doWithLocked_cases hs with
    | link => exact hstay hctx rfl rfl fun _ _ _ _ => by simp [eUnlocked_ne_pUnlocked]
    | finish | write | rehash => exact hstay hctx rfl rfl fun _ _ _ _ => by simp
  next n op ctx l r hph =>
    cases hs
    exact hstay (by rw [hph]; rfl) rfl rfl fun _ _ _ _ => by simp
  next n op ctx hph =>
    have hctx := hc.ctx ctx (by rw [hph]; rfl)
    split_ifs at hs
    obtain ⟨⟨h', newP⟩, hr, rfl⟩ := Option.map_eq_some_iff.1 hs
    refine ⟨hold.slots, hold.copies, fun ctx' h3 => ?_, hheld, fun n' op' ctx' ptr h3 => ?_⟩
    · simp only [Phase.ctx, Option.some.injEq] at h3
      rw [← h3]
      exact hold.ctx ctx (by rw [hph]; rfl)
    · cases h3
      rw [hctx.count] at hr
      exact rehash_isPList hctx.parent.1 hr
  next n op ctx ptr status hph =>
    cases hs
    exact hold.link hph
  next n op ctx status r hph =>
    cases hs
    exact hold.unlock hph
  next n op r hph =>
    cases hs
    exact hold.congr rfl (fun ctx' h3 => by cases h3) hheld fun _ _ _ _ => by simp

omit [DecidableEq ι] [DecidableEq K] in
theorem sizes_init (C : IhtCfg ι K) : Sizes C (ihtInit C : IhtState ι K V) := by
  have hroot : (ihtInit C : IhtState ι K V).heap.IsPList C.toIhtParams C.root 1 := by
    have h4 := C.four_le
    refine ⟨le_rfl, initPList C.toIhtParams 1, by simp [ihtInit], ?_, ?_⟩
    · rw [initPList_length, C.buckets_one, Nat.mul_one]
    · rw [bucketAt_initPList]
      rw [C.buckets_one]
      omega
  refine ⟨locks_init C, hroot, fun p hp => ⟨1, ?_⟩, fun p b q d hcal _ => ?_,
    fun w hw => by simp [ihtInit] at hw, fun i => ?_⟩
  · by_cases hpp : p = C.root
    · rw [hpp]
      exact hroot
    · simp [ihtInit, Function.update_of_ne hpp] at hp
  · obtain ⟨-, h1 | h1 | ⟨i, h1⟩⟩ := hcal
    · rw [(ihtInit_bucket (Heap.has_of_isLock (.inr (.inr h1)))).2] at h1
      exact absurd h1 eUnlocked_ne_pUnlocked
    · simp [ihtInit] at h1
    · simp [ihtInit, Phase.calcifying] at h1
  · refine ⟨Cache.cacheInv_init C.toIhtParams (C.cacheDepth i), fun x hx => ?_,
      fun ctx h => ?_, fun p b h => ?_, fun n op ctx ptr h => ?_⟩
    · simp [ihtInit, Cache.init] at hx
    · simp [ihtInit, Phase.ctx] at h
    · simp [ihtInit, Phase.held] at h
    · simp [ihtInit] at h

omit [DecidableEq ι] in
/-- A P-List that a step allocates is the one a client's rehash makes. -/
theorem stepClient_plist {h : Heap K V} {c : Client K V} {fresh : List RemotePtr} {eff : Effect K V}
    {p : RemotePtr} (hs : Rome.stepClient C i h c fresh = some eff)
    (hL : ∀ p b, c.phase.held = some (p, b) → (h.bucket p b).lock = eLocked)
    (hp : h.plist p = none) (hp' : eff.heap.plist p ≠ none) :
    ∃ n op ctx, c.phase = .rehash n op ctx ∧ eff.client.phase = .link n op ctx p pUnlocked := by
  unfold Rome.stepClient at hs
  split at hs
  next => cases hs
  next n op hph =>
    cases hs
    exact absurd hp hp'
  next n op ctx hph =>
    split_ifs at hs
    cases hs
    obtain ⟨b, hb⟩ : ∃ b, b = levelHash C.toIhtParams op.key ctx.depth ctx.count := ⟨_, rfl⟩
    by_cases hdown : (bucketAt ctx.curr.buckets b).lock = pUnlocked
    · rw [doWithHead_down hb hdown] at hp'
      exact absurd hp hp'
    · rw [doWithHead_stay hb hdown] at hp'
      simp only [] at hp'
      split_ifs at hp' with h1 h2
      · exact absurd hp hp'
      · exact absurd (Heap.setBucket_plist_none (Heap.has_of_isLock (.inr (.inl h2))) hp) hp'
      · exact absurd hp hp'
  next n op ctx hph =>
    cases hs
    exact absurd hp hp'
  next n op ctx hph =>
    cases doWithLocked_cases hs with
    | finish | link | write | rehash => exact absurd hp hp'
  next n op ctx l r hph =>
    cases hs
    exact absurd hp hp'
  next n op ctx hph =>
    split_ifs at hs
    obtain ⟨⟨h', newP⟩, hr, rfl⟩ := Option.map_eq_some_iff.1 hs
    obtain ⟨-, bs, h1, -⟩ := rehash_plist hr
    have hpp : p = newP := by
      by_contra hne
      simp only [h1, Function.update_of_ne hne] at hp'
      exact hp' hp
    rw [hpp]
    exact ⟨n, op, ctx, hph, rfl⟩
  next n op ctx ptr status hph =>
    cases hs
    have hlock := hL ctx.parent ctx.bucket (by rw [hph]; rfl)
    exact absurd (Heap.setBucket_plist_none (Heap.has_of_isLock (.inl hlock)) hp) hp'
  next n op ctx status r hph =>
    cases hs
    exact absurd hp hp'
  next n op r hph =>
    cases hs
    exact absurd hp hp'

theorem Sizes.ihtStep (H : Sizes C s) (hs : Rome.ihtStep C s e = some s') : Sizes C s' := by
  have hle : ∀ p d, s.heap.IsPList C.toIhtParams p d → s'.heap.IsPList C.toIhtParams p d :=
    fun _ _ => H.grows hs
  have hclient : ∀ i, ClientSizes C s'.heap i (s'.client i) := by
    intro j
    have hold := (H.client j).mono hle
    rcases ihtStep_cases hs with ⟨i, op, -, hph, rfl⟩ | ⟨i, fresh, eff, -, h1, rfl⟩ |
      ⟨n, w, -, hw, rfl⟩
    · by_cases hji : j = i
      · subst hji
        simp only [Function.update_self]
        exact hold.congr rfl (fun _ h => by cases h) (fun _ _ h => by cases h)
          fun _ _ _ _ => by simp
      · simpa only [Function.update_of_ne hji] using hold
    · by_cases hji : j = i
      · subst hji
        simp only [IhtState.put, Function.update_self]
        exact ClientSizes.stepClient H h1 hle
      · simpa only [IhtState.put, Function.update_of_ne hji] using hold
    · exact hold
  have hback : ∀ p d, s.heap.plist p ≠ none → s'.heap.IsPList C.toIhtParams p d →
      s.heap.IsPList C.toIhtParams p d := by
    intro p d hp hp'
    obtain ⟨d', hd'⟩ := H.lists p hp
    obtain rfl := (hle p d' hd').unique hp'
    exact hd'
  refine ⟨H.locks.ihtStep hs, hle _ _ H.root, fun p hp => ?_, fun p b q d hcal hp => ?_,
    fun w hw => ?_, hclient⟩
  · by_cases hpn : s.heap.plist p = none
    · rcases ihtStep_cases hs with ⟨i, op, -, -, rfl⟩ | ⟨i, fresh, eff, -, h1, rfl⟩ |
        ⟨n, w, -, hw, rfl⟩
      · exact absurd hpn hp
      · obtain ⟨n, op, ctx, -, h2⟩ := stepClient_plist h1 (H.locks.held i) hpn hp
        have h3 := hclient i
        simp only [IhtState.put, Function.update_self] at h3
        exact ⟨_, h3.moved n op ctx p h2⟩
      · have hlock := H.locks.sent w (List.mem_of_getElem? hw)
        exact absurd (Heap.setBucket_plist_none (Heap.has_of_isLock (.inl hlock)) hpn) hp
    · obtain ⟨d, hd⟩ := H.lists p hpn
      exact ⟨d, hle p d hd⟩
  · rcases hcal.of_ihtStep H.locks hs with h1 | ⟨i, n, op, ctx, hph, rfl, rfl⟩
    · obtain ⟨bs, h2, -⟩ := Heap.has_of_isLock ((h1.lock H.locks).imp_right .inr)
      exact hle _ _ (H.down p b q d h1 (hback p d (by rw [h2]; simp) hp))
    · have hctx := (H.client i).ctx ctx (by rw [hph]; rfl)
      obtain rfl := (hle _ _ hctx.parent).unique hp
      exact hle _ _ ((H.client i).moved n op ctx q hph)
  · refine Heap.Inner.mono hle ?_
    rcases ihtStep_cases hs with ⟨i, op, -, -, rfl⟩ | ⟨i, fresh, eff, -, h1, rfl⟩ |
      ⟨n, w', -, -, rfl⟩
    · exact H.sent w hw
    · rcases List.mem_append.1 hw with hw | hw
      · exact H.sent w hw
      · rw [Option.mem_toList] at hw
        obtain ⟨-, n, op, ctx, r, hph, h2, h3⟩ := stepClient_posted h1 hw
        rw [h2, h3]
        exact (H.client i).held _ _ (by rw [hph]; rfl)
    · exact H.sent w ((List.eraseIdx_sublist s.posted n).subset hw)

end Step

section Main

variable {C : IhtCfg ι K} {s s' : IhtState ι K V}

/-- The depth of the P-List whose E-List a client's next step rehashes. -/
def Phase.rehashDepth : Phase K V → Option ℕ
  | .rehash _ _ ctx => some ctx.depth
  | _ => none

/-- No E-List of a P-List at depth 8 is rehashed. -/
def Shallow (s : IhtState ι K V) : IhtEvent ι K V → Prop
  | .step i _ => (s.client i).phase.rehashDepth ≠ some 8
  | _ => True

instance (s : IhtState ι K V) : (e : IhtEvent ι K V) → Decidable (Shallow s e)
  | .step i _ => inferInstanceAs (Decidable ((s.client i).phase.rehashDepth ≠ some 8))
  | .invoke _ _ => .isTrue trivial
  | .deliver _ => .isTrue trivial

/-- The table's P-Lists are of depth 8 at most. -/
def Bounded (C : IhtCfg ι K) (s : IhtState ι K V) : Prop :=
  ∀ p d, s.heap.IsPList C.toIhtParams p d → d ≤ 8

theorem bounded_init (C : IhtCfg ι K) : Bounded C (ihtInit C : IhtState ι K V) := by
  intro p d hp
  have hroot := (sizes_init (V := V) C).root
  by_cases hpp : p = C.root
  · subst hpp
    rw [hp.unique hroot]
    omega
  · obtain ⟨-, bs, h1, -⟩ := hp
    simp [ihtInit, Function.update_of_ne hpp] at h1

variable [DecidableEq ι] [DecidableEq K] {e : IhtEvent ι K V}

theorem Bounded.ihtStep (hS : Sizes C s) (H : Bounded C s) (hsh : Shallow s e)
    (hs : Rome.ihtStep C s e = some s') : Bounded C s' := by
  intro p d hp
  have hp' := hp
  obtain ⟨-, bs, h1, -⟩ := hp'
  by_cases hpn : s.heap.plist p = none
  swap
  · obtain ⟨d', hd'⟩ := hS.lists p hpn
    rw [hp.unique (hS.grows hs hd')]
    exact H p d' hd'
  rcases ihtStep_cases hs with ⟨i, op, -, -, rfl⟩ | ⟨i, fresh, eff, rfl, h2, rfl⟩ |
    ⟨n, w, -, hw, rfl⟩
  · rw [hpn] at h1
    cases h1
  · obtain ⟨n, op, ctx, hph, h3⟩ := stepClient_plist h2 (hS.locks.held i) hpn
      (by simp only [IhtState.put] at h1; rw [h1]; simp)
    have hctx := (hS.client i).ctx ctx (by rw [hph]; rfl)
    have h4 := ((hS.ihtStep hs).client i).moved n op ctx p
      (by simp only [IhtState.put, Function.update_self]; exact h3)
    have h5 := H _ _ hctx.parent
    have h6 : ctx.depth ≠ 8 := by
      rintro h7
      refine hsh ?_
      rw [hph]
      simp only [Phase.rehashDepth, h7]
    rw [hp.unique h4]
    omega
  · have hlock := hS.locks.sent w (List.mem_of_getElem? hw)
    rw [Heap.setBucket_plist_none (Heap.has_of_isLock (.inl hlock)) hpn] at h1
    cases h1

omit [DecidableEq K] in
/-- A client at the head of the loop is at a depth that `bucket_path` has an entry for. -/
theorem Bounded.overrun (hS : Sizes C s) (H : Bounded C s) (x : ι × Phase K V) :
    Rome.overrun s x = none := by
  unfold Rome.overrun Client.overrun
  rcases hph : (s.client x.1).phase with _ | _ | ⟨n, op, ctx⟩ | _ | _ | _ | _ | _ | _ | _
  case head =>
    have hctx := (hS.client x.1).ctx ctx (by rw [hph]; rfl)
    simp only [if_pos (H _ _ hctx.parent), Option.map_none]
  all_goals rfl

theorem run_tableStep (es : List (IhtEvent ι K V)) :
    run (tableStep C) s (es.map .inl) = run (Rome.ihtStep C) s es :=
  run_inl es

/-- While no E-List of a P-List at depth 8 is rehashed, no client stores behind `bucket_path`. -/
theorem run_shallow {as : List (TableEvent ι K V)}
    (hr : run (tableStep C) s as = some s')
    (hsh : Meets (tableStep C) (onDefined Shallow) s as) (hS : Sizes C s) (H : Bounded C s) :
    ∃ es : List (IhtEvent ι K V), as = es.map .inl ∧ run (Rome.ihtStep C) s es = some s'
      ∧ Meets (Rome.ihtStep C) Shallow s es :=
  run_defined (J := fun s => Sizes C s ∧ Bounded C s)
    (fun _ _ _ ⟨h1, h2⟩ hsh hs => ⟨h1.ihtStep hs, h2.ihtStep h1 hsh hs⟩)
    (fun _ x ⟨h1, h2⟩ => h2.overrun h1 x) hr hsh ⟨hS, H⟩

theorem run_shallow_init {as : List (TableEvent ι K V)}
    (hr : run (tableStep C) (ihtInit C) as = some s)
    (hsh : Meets (tableStep C) (onDefined Shallow) (ihtInit C) as) :
    ∃ es : List (IhtEvent ι K V), as = es.map .inl ∧ run (Rome.ihtStep C) (ihtInit C) es = some s
      ∧ Meets (Rome.ihtStep C) Shallow (ihtInit C) es :=
  run_shallow hr hsh (sizes_init C) (bounded_init C)

/-- A table all of whose keys have one hash. -/
def oneHash : IhtCfg Unit ℕ where
  elistSize := 1
  plistSize := 4
  hash _ := 0
  elistSize_pos := Nat.one_pos
  plistSize_pos := Nat.succ_pos 3
  plistSize_aligned := rfl
  root := .of 0 64
  root_ne := smallRoot_ne
  self _ := 0
  cacheDepth _ := .none

/-- Two keys are inserted; the second finds the first in its bucket at every depth. -/
def deepRun : List (IhtEvent Unit ℕ ℕ) :=
  insertSteps 0 (.of 0 128) ++ .invoke () (.insert 1 1) :: .step () []
    :: (List.range 8).flatMap fun d =>
      [.step () [], .step () [], .step () [.of 0 (.ofNat (192 + 128 * d)),
        .of 0 (.ofNat (256 + 128 * d))], .step () [], .step () [], .step () []]

/-- The second insert stores behind `bucket_path`, after which it is anywhere. -/
def strayRun (phase : Phase ℕ ℕ) : List (TableEvent Unit ℕ ℕ) :=
  deepRun.map .inl ++ [.inr ((), phase)]

end Main

end Rome

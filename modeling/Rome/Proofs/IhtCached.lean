import Rome.Proofs.IhtDepth
import Rome.Proofs.IhtSequential

/-!
# Calls one at a time, with caches

A copy in a client's cache agrees with its P-List in the buckets that keys hash to, and both have
the last bucket unused; so where no P-List is entered whose place another has, what a client enters
is what a read would return (`reads_of_noAlias`). Calls one at a time then go with caches as they do
without.
-/

namespace Rome

open HashTrie Lin Machine

variable {ι K V : Type*} {C : IhtCfg ι K} {s s' : IhtState ι K V} {i : ι}

/-- The P-List a client enters is one of the depth it takes it for. -/
theorem Sizes.entering (H : Sizes C s) {ptr : RemotePtr} {d : ℕ} {path : List ℤ}
    (he : s.entering C i = some (ptr, d, path)) : s.heap.IsPList C.toIhtParams ptr (d + 1) := by
  unfold IhtState.entering at he
  split at he
  next n op hph =>
    simp only [Option.some.injEq, Prod.mk.injEq] at he
    obtain ⟨rfl, rfl, -⟩ := he
    exact H.root
  next n op ctx hph =>
    generalize levelHash C.toIhtParams op.key ctx.depth ctx.count = b at he
    simp only [] at he
    split_ifs at he with hdown
    simp only [Option.some.injEq, Prod.mk.injEq] at he
    obtain ⟨rfl, rfl, -⟩ := he
    exact ((H.client i).ctx ctx (by rw [hph]; rfl)).curr.down _ hdown
  next => cases he

theorem bucketAt_eq_getElem {bs : List PlistPair} {b : ℕ} (hb : b < bs.length) :
    bucketAt bs b = bs[b] := by
  simp [bucketAt, List.getElem?_eq_getElem hb]

/-- What a client enters is what a read would return. -/
theorem reads_of_noAlias (hC : CacheSim C s) (hS : Sizes C s) {fresh : List RemotePtr}
    (hna : NoAlias C s (.step i fresh)) : Reads C s i := by
  intro ptr d path he
  have hna := hna _ he
  have hp := hS.entering he
  obtain ⟨bs, h1, h2⟩ := hS.formed hp
  obtain ⟨ns, rfl, rfl, hv, hl⟩ := (hC.client i).entering he
  simp only [] at hna
  have hsame := ((hC.client i).enter hv hl hna).1
  have hformed := ((hS.client i).enter hv ⟨bs, h1, h2⟩).1
  have hread : extendedRead C.toIhtParams s.heap ptr (2 ^ ns.length) = bs :=
    extendedRead_eq C.toIhtParams h1 h2.length
  rw [hread]
  refine List.ext_getElem (by rw [hformed.length, h2.length]) fun b hb hb' => ?_
  rw [← bucketAt_eq_getElem hb, ← bucketAt_eq_getElem hb']
  have hlen := h2.length
  rcases Nat.lt_or_ge b (C.buckets (ns.length + 1) - 1) with hlt | hge
  · rw [hsame b hlt]
    simp only [Heap.bucket, h1, Option.getD_some]
  · obtain rfl : b = C.buckets (ns.length + 1) - 1 := by omega
    rw [hformed.last, h2.last]

variable [DecidableEq ι] [DecidableEq K]

/-- The state between the steps of calls made one at a time, with any caches. -/
structure CachedAt (C : IhtCfg ι K) (s : IhtState ι K V) : Prop where
  cache : CacheSim C s
  sizes : Sizes C s
  seq : SeqAt C s

theorem CachedAt.ihtStep {e : IhtEvent ι K V} (H : CachedAt C s) (hna : NoAlias C s e)
    (hal : Alone s e) (hs : Rome.ihtStep C s e = some s') : CachedAt C s' := by
  refine ⟨H.cache.ihtStep hna hs, H.sizes.ihtStep hs, H.seq.ihtStep (fun i fresh he => ?_) hal hs⟩
  subst he
  exact reads_of_noAlias H.cache H.sizes hna

end Rome

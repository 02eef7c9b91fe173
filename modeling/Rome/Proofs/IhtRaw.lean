import Rome.IhtRaw
import Rome.Proofs.IhtApply

/-!
# The rehash and what the memory held before

The loop of `rehash` adds to the count that is there. So an E-List of the new P-List has the pairs
its block held at first and then the pairs of its bucket (`RawInv`), and the new P-List has what it
should just where the blocks had a count of zero (`rehash_exact`).
-/

namespace Rome

variable {n : ℕ} {K V : Type*}

/-! ## An insertion -/

theorem take_set_succ {α : Type*} {l : List α} {c : ℕ} (hc : c < l.length) (x : α) :
    (l.set c x).take (c + 1) = l.take c ++ [x] := by
  rw [List.take_add_one, List.getElem?_set_self hc, List.take_set_of_le le_rfl]
  rfl

theorem elistInsert_spec {e e' : RawEList n K V} {x : K × V} (h : e.elistInsert x = some e') :
    e.count < n ∧ e'.count = e.count + 1 ∧ e'.live = e.live ++ [x] := by
  unfold RawEList.elistInsert at h
  split_ifs at h with hc
  rw [Option.some.injEq] at h
  subst h
  refine ⟨hc, rfl, ?_⟩
  have hset : List.ofFn (Function.update e.pairs ⟨e.count, hc⟩ x)
      = (List.ofFn e.pairs).set e.count x := by
    refine List.ext_getElem (by simp) fun i h1 h2 => ?_
    rw [List.getElem_ofFn, List.getElem_set, List.getElem_ofFn]
    split_ifs with hi
    · subst hi
      exact Function.update_self ..
    · exact Function.update_of_ne (fun heq => hi (congrArg Fin.val heq).symm) ..
  unfold RawEList.live
  rw [hset]
  exact take_set_succ (by rw [List.length_ofFn]; exact hc) x

/-! ## The loop -/

/-- The pairs of the bucket `b`. -/
def bucketPairs (g : K → ℕ) (b : ℕ) (src : List (K × V)) : List (K × V) :=
  src.filter fun kv => g kv.1 = b

/-- The buckets that the pairs hit. -/
def bucketsHit (g : K → ℕ) (src : List (K × V)) : Finset ℕ := (src.map fun kv => g kv.1).toFinset

variable {P : IhtParams K} {zero : K × V} {fresh : ℕ → RawBlock P.elistSize K V} {g : K → ℕ} {L : ℕ}
  {H : Finset ℕ} {done : List (K × V)} {s s' : RawState P.elistSize K V}

/-- The buckets of `H` have E-Lists of their own, each with what its block held at first and then
the pairs of `done` that belong there. -/
structure RawInv (zero : K × V) (fresh : ℕ → RawBlock P.elistSize K V) (g : K → ℕ) (L : ℕ)
    (H : Finset ℕ) (done : List (K × V)) (s : RawState P.elistSize K V) : Prop where
  length : s.buckets.length = L
  used : s.used = H.card
  hits : ∀ kv ∈ done, g kv.1 ∈ H
  null : ∀ b < L, (bucketAt s.buckets b).base = .null ↔ b ∉ H
  held : ∀ b ∈ H, b < L ∧ ∃ i < s.used, (bucketAt s.buckets b).base = (fresh i).ptr
    ∧ ∃ e, s.elist (fresh i).ptr = some e
      ∧ e.count = ((fresh i).content zero).count + (bucketPairs g b done).length
      ∧ e.live = ((fresh i).content zero).live ++ bucketPairs g b done
  inj : ∀ b ∈ H, ∀ b' ∈ H, (bucketAt s.buckets b).base = (bucketAt s.buckets b').base → b = b'
  surj : ∀ i < s.used, ∃ b ∈ H, (bucketAt s.buckets b).base = (fresh i).ptr

theorem rawInv_init (elist : RemotePtr → Option (RawEList P.elistSize K V)) (mult : ℕ) :
    RawInv zero fresh g (P.plistSize * mult) ∅ [] ⟨0, elist, initPList P mult⟩ where
  length := by simp [initPList]
  used := rfl
  hits := by simp
  null b hb := by simp [bucketAt, initPList, hb]
  held := by simp
  inj := by simp
  surj i hi := absurd hi (Nat.not_lt_zero i)

section Round

/-- The first `m` blocks are blocks of their own. -/
def OwnBlocks (fresh : ℕ → RawBlock P.elistSize K V) (m : ℕ) : Prop :=
  (∀ i < m, (fresh i).ptr ≠ .null) ∧ Set.InjOn (fun i => (fresh i).ptr) (Set.Iio m)

variable {m : ℕ} (hown : OwnBlocks fresh m)

include hown in
/-- The first pair of a bucket comes. -/
theorem RawInv.allocate (I : RawInv zero fresh g L H done s) {b : ℕ} (hb : b < L)
    (hm : (insert b H).card ≤ m) :
    RawInv zero fresh g L (insert b H) done (rawAllocate P zero fresh s b) := by
  unfold rawAllocate
  split_ifs with hbase
  swap
  · have hbH : b ∈ H := by
      by_contra hno
      exact hbase ((I.null b hb).2 hno)
    rwa [Finset.insert_eq_of_mem hbH]
  have hbH : b ∉ H := (I.null b hb).1 hbase
  rw [Finset.card_insert_of_notMem hbH, ← I.used] at hm
  have hnew : ∀ b' ∈ H, (bucketAt s.buckets b').base ≠ (fresh s.used).ptr := by
    intro b' hb' heq
    obtain ⟨-, i, hi, hp, -⟩ := I.held b' hb'
    exact hi.ne (hown.2 (Set.mem_Iio.2 (by omega)) (Set.mem_Iio.2 hm) (hp.symm.trans heq))
  have hself : bucketAt (s.buckets.set b ⟨(fresh s.used).ptr, eUnlocked⟩) b
      = ⟨(fresh s.used).ptr, eUnlocked⟩ := bucketAt_set_self (by rw [I.length]; exact hb) _
  have hne : ∀ b' ≠ b, bucketAt (s.buckets.set b ⟨(fresh s.used).ptr, eUnlocked⟩) b'
      = bucketAt s.buckets b' := fun b' h => bucketAt_set_ne h.symm _
  have hmem : ∀ b' ∈ H, b' ≠ b := fun b' hb' heq => hbH (heq ▸ hb')
  have hempty : bucketPairs g b done = [] := by
    rw [bucketPairs, List.filter_eq_nil_iff]
    intro kv hkv
    simpa using (fun heq => hbH (heq ▸ I.hits kv hkv) : ¬ g kv.1 = b)
  refine ⟨by rw [List.length_set, I.length], ?_, fun kv hkv => ?_, fun b' hb' => ?_,
    fun b' hb' => ?_, fun b₁ h₁ b₂ h₂ heq => ?_, fun i hi => ?_⟩
  · rw [Finset.card_insert_of_notMem hbH, I.used]
  · exact Finset.mem_insert_of_mem (I.hits kv hkv)
  · by_cases hbb : b' = b
    · subst hbb
      rw [hself]
      simp [hown.1 s.used hm]
    · rw [hne b' hbb, I.null b' hb', Finset.mem_insert]
      tauto
  · rcases Finset.mem_insert.1 hb' with rfl | hb'
    · refine ⟨hb, s.used, Nat.lt_succ_self _, by rw [hself], _, Function.update_self .., ?_, ?_⟩
      · rw [hempty, List.length_nil, Nat.add_zero]
      · rw [hempty, List.append_nil]
    · obtain ⟨h1, i, hi, hp, e, he, hc⟩ := I.held b' hb'
      refine ⟨h1, i, Nat.lt_succ_of_lt hi, by rw [hne b' (hmem b' hb'), hp], e, ?_, hc⟩
      exact (Function.update_of_ne (fun heq => hnew b' hb' (hp.trans heq)) _ _).trans he
  · rcases Finset.mem_insert.1 h₁ with rfl | hb₁ <;> rcases Finset.mem_insert.1 h₂ with rfl | hb₂
    · rfl
    · rw [hself, hne b₂ (hmem b₂ hb₂)] at heq
      exact absurd heq.symm (hnew b₂ hb₂)
    · rw [hself, hne b₁ (hmem b₁ hb₁)] at heq
      exact absurd heq (hnew b₁ hb₁)
    · rw [hne b₁ (hmem b₁ hb₁), hne b₂ (hmem b₂ hb₂)] at heq
      exact I.inj b₁ hb₁ b₂ hb₂ heq
  · rcases Nat.lt_succ_iff_lt_or_eq.1 hi with hi | rfl
    · obtain ⟨b', hb', hp⟩ := I.surj i hi
      exact ⟨b', Finset.mem_insert_of_mem hb', by rw [hne b' (hmem b' hb'), hp]⟩
    · exact ⟨b, Finset.mem_insert_self b H, by rw [hself]⟩

/-- A pair goes into the E-List of its bucket. -/
theorem RawInv.insert (I : RawInv zero fresh g L H done s) {kv : K × V} (hb : g kv.1 ∈ H)
    {e e' : RawEList P.elistSize K V}
    (he : s.elist (bucketAt s.buckets (g kv.1)).base = some e) (hi : e.elistInsert kv = some e') :
    RawInv zero fresh g L H (done ++ [kv]) { s with
      elist := Function.update s.elist (bucketAt s.buckets (g kv.1)).base (some e') } := by
  obtain ⟨-, hcount, hlive⟩ := elistInsert_spec hi
  refine ⟨I.length, I.used, fun kv' hkv => ?_, I.null, fun b' hb' => ?_, I.inj, I.surj⟩
  · rcases List.mem_append.1 hkv with hkv | hkv
    · exact I.hits kv' hkv
    · rwa [List.mem_singleton.1 hkv]
  · obtain ⟨h1, i, hi', hp, e₁, he₁, hc, hl⟩ := I.held b' hb'
    refine ⟨h1, i, hi', hp, ?_⟩
    by_cases hbb : g kv.1 = b'
    · rw [hbb, hp, he₁, Option.some.injEq] at he
      subst he
      have happ : bucketPairs g b' (done ++ [kv]) = bucketPairs g b' done ++ [kv] := by
        simp [bucketPairs, hbb]
      refine ⟨e', ?_, ?_, ?_⟩
      · rw [hbb, hp]
        exact Function.update_self ..
      · rw [hcount, hc, happ, List.length_append, List.length_singleton, Nat.add_assoc]
      · rw [hlive, hl, happ, List.append_assoc]
    · have happ : bucketPairs g b' (done ++ [kv]) = bucketPairs g b' done := by
        simp [bucketPairs, hbb]
      refine ⟨e₁, ?_, by rw [happ, hc], by rw [happ, hl]⟩
      refine (Function.update_of_ne (fun heq => hbb ?_) _ _).trans he₁
      exact (I.inj b' hb' (g kv.1) hb (hp.trans heq)).symm

end Round

variable {level count : ℕ} {src : List (K × V)}

/-- The bucket of a key in the loop of `rehash`. -/
def loopBucket (P : IhtParams K) (level count : ℕ) (k : K) : ℕ := levelHash P k level count

theorem insert_union_bucketsHit (kv : K × V) :
    H ∪ bucketsHit g (kv :: src) = insert (g kv.1) H ∪ bucketsHit g src := by
  simp [bucketsHit]

section Loop

variable {m : ℕ} (hown : OwnBlocks fresh m)

include hown

theorem rawRound_spec (I : RawInv zero fresh (loopBucket P level count) L H done s) {kv : K × V}
    (hm : (insert (loopBucket P level count kv.1) H).card ≤ m)
    (h : rawRound P zero fresh level count s kv = some s') :
    loopBucket P level count kv.1 < L
      ∧ RawInv zero fresh (loopBucket P level count) L (insert (loopBucket P level count kv.1) H)
        (done ++ [kv]) s' := by
  unfold rawRound at h
  simp only at h
  split_ifs at h with hb
  rw [I.length, not_le] at hb
  have I' := I.allocate hown hb hm
  simp only [Option.bind_eq_some_iff, Option.map_eq_some_iff] at h
  obtain ⟨e, he, e', hi, rfl⟩ := h
  exact ⟨hb, I'.insert (Finset.mem_insert_self _ _) he hi⟩

theorem rawRound_succeeds (I : RawInv zero fresh (loopBucket P level count) L H done s) {kv : K × V}
    (hb : loopBucket P level count kv.1 < L)
    (hm : (insert (loopBucket P level count kv.1) H).card ≤ m)
    (hz : ∀ i < (insert (loopBucket P level count kv.1) H).card, ((fresh i).content zero).count = 0)
    (hlen : done.length < P.elistSize) :
    ∃ s', rawRound P zero fresh level count s kv = some s' := by
  have I' := I.allocate hown hb hm
  obtain ⟨-, i, hi, hp, e, he, hc, -⟩ := I'.held _ (Finset.mem_insert_self _ _)
  rw [I'.used] at hi
  rw [hz i hi, Nat.zero_add] at hc
  have hle : (bucketPairs (loopBucket P level count) (loopBucket P level count kv.1) done).length
    ≤ done.length := List.length_filter_le _ _
  have hroom : e.count < P.elistSize := by omega
  unfold rawRound
  simp only
  rw [if_neg (by rw [I.length]; exact not_le.2 hb)]
  unfold loopBucket at hp he
  rw [hp, he, Option.bind_some]
  unfold RawEList.elistInsert
  rw [dif_pos hroom]
  exact ⟨_, rfl⟩

theorem rawLoop_spec (I : RawInv zero fresh (loopBucket P level count) L H done s)
    (hm : (H ∪ bucketsHit (loopBucket P level count) src).card ≤ m)
    (h : src.foldlM (rawRound P zero fresh level count) s = some s') :
    (∀ kv ∈ src, loopBucket P level count kv.1 < L)
      ∧ RawInv zero fresh (loopBucket P level count) L
        (H ∪ bucketsHit (loopBucket P level count) src) (done ++ src) s' := by
  induction src generalizing H done s with
  | nil =>
    simp only [List.foldlM_nil, Option.pure_def, Option.some.injEq] at h
    subst h
    refine ⟨by simp, ?_⟩
    simpa [bucketsHit] using I
  | cons kv src ih =>
    simp only [List.foldlM_cons, Option.bind_eq_bind, Option.bind_eq_some_iff] at h
    obtain ⟨s₁, h1, h2⟩ := h
    rw [insert_union_bucketsHit] at hm ⊢
    have hm₁ := (Finset.card_le_card (show insert (loopBucket P level count kv.1) H
      ⊆ insert (loopBucket P level count kv.1) H ∪ bucketsHit (loopBucket P level count) src from
        Finset.subset_union_left)).trans hm
    obtain ⟨hb, I₁⟩ := rawRound_spec hown I hm₁ h1
    obtain ⟨hbs, I₂⟩ := ih I₁ hm h2
    refine ⟨List.forall_mem_cons.2 ⟨hb, hbs⟩, ?_⟩
    simpa using I₂

theorem rawLoop_succeeds (I : RawInv zero fresh (loopBucket P level count) L H done s)
    (hb : ∀ kv ∈ src, loopBucket P level count kv.1 < L)
    (hm : (H ∪ bucketsHit (loopBucket P level count) src).card ≤ m)
    (hz : ∀ i < (H ∪ bucketsHit (loopBucket P level count) src).card,
      ((fresh i).content zero).count = 0)
    (hlen : done.length + src.length ≤ P.elistSize) :
    ∃ s', src.foldlM (rawRound P zero fresh level count) s = some s' := by
  induction src generalizing H done s with
  | nil => exact ⟨s, rfl⟩
  | cons kv src ih =>
    rw [insert_union_bucketsHit] at hm hz
    rw [List.length_cons] at hlen
    have hsub := Finset.card_le_card (show insert (loopBucket P level count kv.1) H
      ⊆ insert (loopBucket P level count kv.1) H ∪ bucketsHit (loopBucket P level count) src from
        Finset.subset_union_left)
    obtain ⟨s₁, h1⟩ := rawRound_succeeds hown I (hb kv List.mem_cons_self) (hsub.trans hm)
      (fun i hi => hz i (by omega)) (by omega)
    obtain ⟨-, I₁⟩ := rawRound_spec hown I (hsub.trans hm) h1
    obtain ⟨s', h2⟩ := ih I₁ (fun kv' hkv => hb kv' (List.mem_cons_of_mem _ hkv)) hm hz
      (by simp; omega)
    refine ⟨s', ?_⟩
    rw [List.foldlM_cons, h1]
    exact h2

end Loop

/-! ## The rehash -/

/-- The P-List has just the pairs of `src`, each in its bucket, and the counts are right. -/
structure RehashExact (g : K → ℕ) (src : List (K × V)) (s : RawState P.elistSize K V) : Prop where
  inside : ∀ kv ∈ src, g kv.1 < s.buckets.length
  null : ∀ b < s.buckets.length, (bucketAt s.buckets b).base = .null ↔ bucketPairs g b src = []
  elist : ∀ b < s.buckets.length, (bucketAt s.buckets b).base ≠ .null →
    ∃ e, s.elist (bucketAt s.buckets b).base = some e ∧ e.count = (bucketPairs g b src).length
      ∧ e.live.Perm (bucketPairs g b src)
  own : ∀ b < s.buckets.length, ∀ b' < s.buckets.length, (bucketAt s.buckets b).base ≠ .null →
    (bucketAt s.buckets b).base = (bucketAt s.buckets b').base → b = b'

theorem bucketPairs_eq_nil {b : ℕ} :
    bucketPairs g b src = [] ↔ b ∉ bucketsHit g src := by
  simp [bucketPairs, bucketsHit, List.filter_eq_nil_iff]

theorem RawInv.exact (I : RawInv zero fresh g L (bucketsHit g src) src s)
    (hb : ∀ kv ∈ src, g kv.1 < L)
    (hz : ∀ i < (bucketsHit g src).card, ((fresh i).content zero).count = 0) :
    RehashExact g src s := by
  refine ⟨fun kv hkv => I.length ▸ hb kv hkv, fun b hb => ?_, fun b hb hne => ?_,
    fun b hb b' hb' hne heq => ?_⟩
  · rw [I.null b (I.length ▸ hb), bucketPairs_eq_nil]
  · rw [I.length] at hb
    obtain ⟨-, i, hi, hp, e, he, hc, hl⟩ := I.held b (not_not.1 fun h => hne ((I.null b hb).2 h))
    rw [I.used] at hi
    rw [hz i hi, Nat.zero_add] at hc
    have hnil : ((fresh i).content zero).live = [] := by
      unfold RawEList.live
      rw [hz i hi, List.take_zero]
    rw [hnil, List.nil_append] at hl
    exact ⟨e, hp ▸ he, hc, hl ▸ List.Perm.refl _⟩
  · rw [I.length] at hb hb'
    have hH := not_not.1 fun h => hne ((I.null b hb).2 h)
    rw [heq] at hne
    exact I.inj b hH b' (not_not.1 fun h => hne ((I.null b' hb').2 h)) heq

/-- The counts are right only where the blocks were clear. -/
theorem RawInv.clear (I : RawInv zero fresh g L (bucketsHit g src) src s) {m : ℕ}
    (hown : OwnBlocks fresh m) (hm : (bucketsHit g src).card ≤ m) (hs : RehashExact g src s) :
    ∀ i < (bucketsHit g src).card, ((fresh i).content zero).count = 0 := by
  intro i hi
  rw [← I.used] at hi hm
  obtain ⟨b, hb, hp⟩ := I.surj i hi
  obtain ⟨hL, j, hj, hpj, e, he, hc, -⟩ := I.held b hb
  have hij : i = j :=
    hown.2 (Set.mem_Iio.2 (by omega)) (Set.mem_Iio.2 (by omega)) (hp.symm.trans hpj)
  subst hij
  obtain ⟨e', he', hc', -⟩ := hs.elist b (I.length ▸ hL) (by rw [hp]; exact hown.1 i (by omega))
  rw [hp, he, Option.some.injEq] at he'
  subst he'
  omega

theorem content_count_eq_zero (b : RawBlock n K V) (zero : K × V) :
    (b.content zero).count = 0 ↔ (b.recycled = false → b.prior.count = 0) := by
  unfold RawBlock.content
  cases b.recycled <;> simp

/-- `rehash` keeps the pairs just where the E-Lists it allocates have a count of zero. -/
theorem rehash_exact (P : IhtParams K) (zero : K × V) (fresh : ℕ → RawBlock P.elistSize K V)
    (hown : OwnBlocks fresh P.elistSize)
    (source : RawEList P.elistSize K V) (hsource : source.count ≤ P.elistSize)
    (elist : RemotePtr → Option (RawEList P.elistSize K V)) (pcount pdepth : ℕ) :
    (∃ s, rehashRaw P zero fresh source elist pcount pdepth = some s
        ∧ RehashExact (loopBucket P (pdepth + 1) (pcount * 2)) source.live s)
      ↔ (∀ kv ∈ source.live, loopBucket P (pdepth + 1) (pcount * 2) kv.1
          < P.plistSize * (pcount * 2 / P.plistSize))
        ∧ ∀ i < (bucketsHit (loopBucket P (pdepth + 1) (pcount * 2)) source.live).card,
          (fresh i).recycled = false → (fresh i).prior.count = 0 := by
  have I₀ : RawInv zero fresh (loopBucket P (pdepth + 1) (pcount * 2))
      (P.plistSize * (pcount * 2 / P.plistSize)) ∅ []
      ⟨0, elist, initPList P (pcount * 2 / P.plistSize)⟩ := rawInv_init elist _
  have hlen : source.live.length ≤ P.elistSize := by simp [RawEList.live]
  have hm : (bucketsHit (loopBucket P (pdepth + 1) (pcount * 2)) source.live).card
      ≤ P.elistSize := by
    refine (List.toFinset_card_le _).trans ?_
    rwa [List.length_map]
  have hm₀ := hm
  rw [← Finset.empty_union (bucketsHit _ _)] at hm₀
  simp only [← content_count_eq_zero _ zero]
  unfold rehashRaw
  simp only
  rw [if_neg (not_lt.2 hsource)]
  constructor
  · rintro ⟨s, hr, hs⟩
    obtain ⟨hb, I⟩ := rawLoop_spec hown I₀ hm₀ hr
    rw [Finset.empty_union, List.nil_append] at I
    exact ⟨hb, I.clear hown hm hs⟩
  · rintro ⟨hb, hz⟩
    obtain ⟨s, hr⟩ := rawLoop_succeeds hown I₀ hb hm₀ (by rwa [Finset.empty_union])
      (by rwa [List.length_nil, Nat.zero_add])
    obtain ⟨-, I⟩ := rawLoop_spec hown I₀ hm₀ hr
    rw [Finset.empty_union, List.nil_append] at I
    exact ⟨s, hr, I.exact hb hz⟩

/-- With the size of a P-List, as `do_with` passes it, no bucket lies outside the new P-List. -/
theorem loopBucket_lt (P : IhtParams K) (k : K) {d : ℕ} (hd : 1 ≤ d) :
    loopBucket P (d + 1) (P.buckets d * 2) k < P.plistSize * (P.buckets d * 2 / P.plistSize) := by
  rw [← P.buckets_succ hd, P.mul_buckets_div]
  exact bucketOf_lt P k (d + 1)

/-! ## Two pairs, and memory that held E-Lists of `count` pairs -/

def rawParams : IhtParams ℕ where
  elistSize := 2
  plistSize := 4
  hash k := .ofNat k
  elistSize_pos := Nat.le_succ 1
  plistSize_pos := smallTable.plistSize_pos
  plistSize_aligned := smallTable.plistSize_aligned

def rawSource : RawEList 2 ℕ ℕ := ⟨2, ![(1, 10), (2, 20)]⟩

def rawFresh (count i : ℕ) : RawBlock 2 ℕ ℕ :=
  ⟨⟨.ofNat (64 * (i + 1))⟩, false, ⟨count, ![(7, 70), (8, 80)]⟩⟩

theorem rawFresh_own (count : ℕ) : OwnBlocks (P := rawParams) (rawFresh count) 2 := by
  refine ⟨fun i hi => ?_, fun i hi j hj heq => ?_⟩
  · interval_cases i <;> simp [rawFresh, RemotePtr.null]
  · simp only [Set.mem_Iio] at hi hj
    interval_cases i <;> interval_cases j <;> first | rfl | simp [rawFresh] at heq

theorem rehash_exact_clear :
    ∃ s, rehashRaw rawParams (0, 0) (rawFresh 0) rawSource (fun _ => none) 4 1 = some s
      ∧ RehashExact (loopBucket rawParams 2 8) rawSource.live s :=
  (rehash_exact rawParams (0, 0) (rawFresh 0) (rawFresh_own 0) rawSource le_rfl (fun _ => none) 4
    1).2 ⟨by decide +kernel, fun _ _ _ => rfl⟩

/-- With `1` where the counts are, an E-List has a pair that was never inserted; with `2` the first
insertion is made outside the E-List. -/
theorem rehash_stale :
    (((rehashRaw rawParams (0, 0) (rawFresh 1) rawSource (fun _ => none) 4 1).bind fun s =>
        s.elist (rawFresh 1 0).ptr).map fun e => (e.count, e.live)) = some (2, [(7, 70), (1, 10)])
      ∧ (rehashRaw rawParams (0, 0) (rawFresh 2) rawSource (fun _ => none) 4 1).isNone
      ∧ ¬ ∀ fresh : ℕ → RawBlock 2 ℕ ℕ, OwnBlocks (P := rawParams) fresh 2 →
        ∃ s, rehashRaw rawParams (0, 0) fresh rawSource (fun _ => none) 4 1 = some s
          ∧ RehashExact (loopBucket rawParams 2 8) rawSource.live s := by
  have hnone : (rehashRaw rawParams (0, 0) (rawFresh 2) rawSource (fun _ => none) 4 1).isNone := by
    decide +kernel
  refine ⟨by decide +kernel, hnone, fun h => ?_⟩
  obtain ⟨s, hs, -⟩ := h (rawFresh 2) (rawFresh_own 2)
  rw [hs] at hnone
  cases hnone

end Rome

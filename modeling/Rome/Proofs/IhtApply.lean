import Rome.IhtDs
import Rome.Lib.TrieMemory

/-!
# The operations' functions and the rehash

The linear search is a lookup (`search_eq`). In an E-List of distinct keys the loop of `remove`
meets its key once, and what is left is the E-List without that pair, in another order
(`removeLoop_spec`). The loop of `rehash` leaves in each bucket of the new P-List the pairs of the
source that hash there, in order (`rehashLoop_spec`).
-/

namespace Rome

open HashTrie

variable {ι K V : Type*}

theorem IhtParams.four_le (P : IhtParams K) : 4 ≤ P.plistSize := by
  have h1 := P.plistSize_pos
  have h2 := P.plistSize_aligned
  omega

/-- The number of buckets of a P-List at depth `d`. -/
def IhtParams.buckets (P : IhtParams K) (d : ℕ) : ℕ := P.plistSize * 2 ^ (d - 1)

theorem IhtParams.buckets_one (P : IhtParams K) : P.buckets 1 = P.plistSize := by
  simp [IhtParams.buckets]

theorem IhtParams.buckets_succ (P : IhtParams K) {d : ℕ} (hd : 1 ≤ d) :
    P.buckets (d + 1) = P.buckets d * 2 := by
  obtain ⟨n, rfl⟩ : ∃ n, d = n + 1 := ⟨d - 1, by omega⟩
  simp only [IhtParams.buckets, Nat.add_sub_cancel, Nat.pow_succ, Nat.mul_assoc]

theorem IhtParams.four_le_buckets (P : IhtParams K) (d : ℕ) : 4 ≤ P.buckets d :=
  P.four_le.trans (Nat.le_mul_of_pos_right _ (Nat.two_pow_pos _))

/-- The buckets of a P-List are those of a whole number of `PList`s. -/
theorem IhtParams.mul_buckets_div (P : IhtParams K) (d : ℕ) :
    P.plistSize * (P.buckets d / P.plistSize) = P.buckets d := by
  refine Nat.mul_div_cancel' ?_
  rw [IhtParams.buckets]
  exact Nat.dvd_mul_right _ _

/-- The bucket of a key at depth `d`. -/
def bucketOf (P : IhtParams K) (k : K) (d : ℕ) : ℕ := levelHash P k d (P.buckets d)

theorem levelHash_lt (P : IhtParams K) (k : K) (level : ℕ) {count : ℕ} (hc : 4 ≤ count) :
    levelHash P k level count < count - 1 :=
  Nat.mod_lt _ (by omega)

theorem bucketOf_lt (P : IhtParams K) (k : K) (d : ℕ) : bucketOf P k d < P.buckets d := by
  have h1 := P.four_le_buckets d
  have h2 := levelHash_lt P k d h1
  unfold bucketOf
  omega

section Search

variable [DecidableEq K]

theorem search_eq (key : K) (e : List (K × V)) : search key e = e.lookup key := by
  induction e with
  | nil => rfl
  | cons x e ih =>
    rw [search, List.lookup_cons, ih]
    rcases eq_or_ne key x.1 with rfl | hk
    · simp
    · rw [if_neg hk.symm, beq_eq_false_iff_ne.2 hk]

theorem removeLoop_of_not_mem (key : K) : ∀ (fuel i : ℕ) (e : List (K × V)) (r : Option V),
    (∀ x ∈ e.drop i, x.1 ≠ key) → removeLoop key fuel i e r = (e, r)
  | 0, _, _, _, _ => rfl
  | fuel + 1, i, e, r, h => by
    rw [removeLoop]
    split
    · rfl
    · rename_i x hx
      obtain ⟨hi, rfl⟩ := List.getElem?_eq_some_iff.1 hx
      have hd : e.drop i = e[i] :: e.drop (i + 1) := List.drop_eq_getElem_cons hi
      rw [hd] at h
      rw [if_neg (h _ List.mem_cons_self)]
      exact removeLoop_of_not_mem key fuel (i + 1) e r fun x hx => h x (List.mem_cons_of_mem _ hx)

/-- The loop of `remove` skips the pairs before the first of its key. -/
theorem removeLoop_skip (key : K) : ∀ (l₁ l₀ l₂ : List (K × V)) (fuel : ℕ) (r : Option V),
    (∀ x ∈ l₁, x.1 ≠ key) → l₁.length ≤ fuel →
    removeLoop key fuel l₀.length (l₀ ++ (l₁ ++ l₂)) r
      = removeLoop key (fuel - l₁.length) (l₀ ++ l₁).length (l₀ ++ (l₁ ++ l₂)) r
  | [], l₀, l₂, fuel, r, _, _ => by simp
  | x :: l₁, l₀, l₂, 0, r, _, hf => by simp at hf
  | x :: l₁, l₀, l₂, fuel + 1, r, h, hf => by
    have hx : (l₀ ++ (x :: l₁ ++ l₂))[l₀.length]? = some x := by simp
    rw [removeLoop, hx]
    simp only [h x List.mem_cons_self, ↓reduceIte]
    have := removeLoop_skip key l₁ (l₀ ++ [x]) l₂ fuel r
      (fun y hy => h y (List.mem_cons_of_mem _ hy)) (by simpa using hf)
    simp only [List.append_assoc, List.length_append, List.length_cons, List.length_nil,
      List.cons_append, List.nil_append] at this ⊢
    rw [show fuel + 1 - (l₁.length + 1) = fuel - l₁.length by omega]
    exact this

omit [DecidableEq K] in
theorem set_length_append (l₁ l₂ : List (K × V)) (x y : K × V) :
    (l₁ ++ x :: l₂).set l₁.length y = l₁ ++ y :: l₂ := by
  rw [List.set_append_right _ _ le_rfl, Nat.sub_self, List.set_cons_zero]

omit [DecidableEq K] in
/-- What is left when the last pair takes the place of another. -/
theorem set_dropLast_perm (l₁ l₂ : List (K × V)) (x : K × V) :
    ∃ l₃, (if 1 < (l₁ ++ x :: l₂).length then
        (l₁ ++ x :: l₂).set l₁.length ((l₁ ++ x :: l₂).getLastD x)
      else l₁ ++ x :: l₂).dropLast = l₁ ++ l₃ ∧ l₃.Perm l₂ := by
  rw [set_length_append]
  rcases List.eq_nil_or_concat l₂ with rfl | ⟨l₂', y, rfl⟩
  · refine ⟨[], ?_, .refl _⟩
    split_ifs <;> simp
  · have hlast : (l₁ ++ x :: l₂'.concat y).getLastD x = y := by
      rw [List.concat_eq_append, ← List.cons_append, ← List.append_assoc, List.getLastD_concat]
    rw [hlast, if_pos (by simp; omega)]
    refine ⟨y :: l₂', ?_, ?_⟩
    · rw [List.concat_eq_append, ← List.cons_append, ← List.append_assoc, List.dropLast_concat]
    · rw [List.concat_eq_append]
      exact (List.perm_append_singleton y l₂').symm

/-- In an E-List of distinct keys, `remove` finds what a lookup does; if that is a value, what it
writes back is the E-List without the pair, in another order. -/
theorem removeLoop_spec (key : K) {e : List (K × V)} (hn : (e.map Prod.fst).Nodup) :
    (e.lookup key = none ∧ removeLoop key e.length 0 e none = (e, none))
      ∨ ∃ v e', e.lookup key = some v ∧ removeLoop key e.length 0 e none = (e', some v)
        ∧ e.Perm ((key, v) :: e') := by
  rcases hl : e.lookup key with _ | v
  · refine .inl ⟨rfl, removeLoop_of_not_mem key _ _ _ _ fun x hx hk => ?_⟩
    rw [List.lookup_eq_none_iff] at hl
    have := hl x (by simpa using hx)
    simp [hk] at this
  · refine .inr ⟨v, ?_⟩
    obtain ⟨l₁, l₂, rfl, h1⟩ := List.lookup_eq_some_iff.1 hl
    have h1' : ∀ x ∈ l₁, x.1 ≠ key := fun x hx hk => by simpa [hk] using h1 x hx
    have hskip := removeLoop_skip key l₁ [] ((key, v) :: l₂) (l₁ ++ (key, v) :: l₂).length none h1'
      (by simp)
    simp only [List.length_nil, List.nil_append] at hskip
    rw [hskip]
    obtain ⟨l₃, h3, hperm⟩ := set_dropLast_perm l₁ l₂ (key, v)
    refine ⟨l₁ ++ l₃, rfl, ?_, ?_⟩
    · rw [show (l₁ ++ (key, v) :: l₂).length - l₁.length = l₂.length + 1 by simp, removeLoop]
      simp only [List.getElem?_append_right le_rfl, Nat.sub_self, List.getElem?_cons_zero,
        ↓reduceIte, h3]
      refine removeLoop_of_not_mem key _ _ _ _ fun x hx hk => ?_
      have hx' : x ∈ l₂ := hperm.mem_iff.1 (by
        rw [← List.drop_drop, List.drop_left] at hx
        exact List.mem_of_mem_drop hx)
      simp only [List.map_append, List.map_cons, List.nodup_append, List.nodup_cons] at hn
      exact hn.2.1.1 (hk ▸ List.mem_map_of_mem hx')
    · exact List.perm_middle.trans ((hperm.symm.append_left l₁).cons _)

end Search

section Apply

variable [DecidableEq K] {P : IhtParams K} {op : Op K V} {l : List (K × V)} {m : K → Option V}

theorem mapSpec_remove_none {key : K} (h : m key = none) :
    mapSpec m (.remove key) = (m, none) := by
  simp [mapSpec, h, Function.update_eq_self_iff]

theorem apply_none_ne_write {e : List (K × V)} {r : Option V} : apply P op none ≠ .write e r := by
  cases op <;> simp [apply]

theorem apply_none_ne_rehash : apply P op none ≠ .rehash := by
  cases op <;> simp [apply]

theorem apply_link {e : List (K × V)} {x : Option (List (K × V))} (h : apply P op x = .link e) :
    x = none ∧ ∃ v, op = .insert op.key v ∧ e = [(op.key, v)] := by
  rcases x with _ | l
  · cases op <;> simp_all [apply, Op.key]
  · exfalso
    cases op with
    | contains key => simp [apply] at h
    | insert key value =>
      simp only [apply] at h
      split at h
      · simp at h
      · split_ifs at h
    | remove key =>
      simp only [apply] at h
      split at h <;> simp at h

/-- A function that returns true without a write has read the result the map gives. -/
theorem apply_some_finish {r : Option V} (hn : (l.map Prod.fst).Nodup)
    (hm : m op.key = l.lookup op.key) (h : apply P op (some l) = .finish r) :
    mapSpec m op = (m, r) := by
  cases op with
  | contains key =>
    simp only [apply, Action.finish.injEq, search_eq] at h
    simp only [Op.key] at hm
    simp [mapSpec, hm, h]
  | insert key value =>
    simp only [apply, search_eq] at h
    simp only [Op.key] at hm
    split at h
    · rename_i v hv
      simp only [Action.finish.injEq] at h
      subst h
      simp [mapSpec, hm, hv]
    · split_ifs at h
  | remove key =>
    simp only [apply] at h
    simp only [Op.key] at hm
    rcases removeLoop_spec key hn with ⟨h1, h2⟩ | ⟨v, e', h1, h2, -⟩
    · rw [h2] at h
      simp only [Action.finish.injEq] at h
      subst h
      exact mapSpec_remove_none (hm.trans h1)
    · rw [h2] at h
      simp at h

/-- A function that writes the E-List back changes what is looked up of its own key only, as the
map does. -/
theorem apply_some_write {e : List (K × V)} {r : Option V} (hn : (l.map Prod.fst).Nodup)
    (hm : m op.key = l.lookup op.key) (h : apply P op (some l) = .write e r) :
    (e.map Prod.fst).Nodup ∧ (∀ k, k ≠ op.key → e.lookup k = l.lookup k)
      ∧ mapSpec m op = (Function.update m op.key (e.lookup op.key), r) := by
  cases op with
  | contains key => simp [apply] at h
  | insert key value =>
    simp only [apply, search_eq] at h
    simp only [Op.key] at hm ⊢
    split at h
    · simp at h
    · rename_i hl
      split_ifs at h
      simp only [Action.write.injEq] at h
      obtain ⟨rfl, rfl⟩ := h
      obtain ⟨h1, h2, h3⟩ := lookup_append_pair value hn hl
      exact ⟨h1, h3, by simp [mapSpec, hm, hl, h2]⟩
  | remove key =>
    simp only [apply] at h
    simp only [Op.key] at hm ⊢
    rcases removeLoop_spec key hn with ⟨h1, h2⟩ | ⟨v, e', h1, h2, hp⟩
    · rw [h2] at h
      simp at h
    · rw [h2] at h
      simp only [Action.write.injEq] at h
      obtain ⟨rfl, rfl⟩ := h
      obtain ⟨h3, h4, h5⟩ := lookup_of_perm_cons hn hp
      exact ⟨h3, h5, by simp [mapSpec, hm, h1, h4]⟩

end Apply

section Buckets

theorem bucketAt_set_self {bs : List PlistPair} {b : ℕ} (hb : b < bs.length) (x : PlistPair) :
    bucketAt (bs.set b x) b = x :=
  getD_set_self hb x .junk

theorem bucketAt_set_ne {bs : List PlistPair} {b b' : ℕ} (hb : b ≠ b') (x : PlistPair) :
    bucketAt (bs.set b x) b' = bucketAt bs b' :=
  getD_set_ne hb x .junk

theorem bucketAt_take {bs : List PlistPair} {n b : ℕ} (hb : b < n) :
    bucketAt (bs.take n) b = bucketAt bs b := by
  simp [bucketAt, hb]

/-- A bucket is one of the P-List, or lies past its end. -/
theorem bucketAt_mem (bs : List PlistPair) (b : ℕ) :
    bucketAt bs b ∈ bs ∨ bucketAt bs b = .junk := by
  unfold bucketAt
  rw [List.getD_eq_getElem?_getD]
  rcases h : bs[b]? with _ | x
  · exact .inr rfl
  · exact .inl (List.mem_of_getElem? h)

theorem initPList_length (P : IhtParams K) (mult : ℕ) :
    (initPList P mult).length = P.plistSize * mult := by
  simp [initPList]

theorem bucketAt_initPList (P : IhtParams K) {mult b : ℕ} (hb : b < P.plistSize * mult) :
    bucketAt (initPList P mult) b = ⟨.null, eUnlocked⟩ := by
  simp [bucketAt, initPList, hb]

end Buckets

section Rehash

/-- A bucket points to an E-List by its `base`. -/
def pairPointing : Pointing RemotePtr PlistPair where
  nil := .null
  junk := .junk
  base := PlistPair.base
  point _ e := ⟨e, eUnlocked⟩
  Free x := x.lock = eUnlocked
  base_junk := rfl
  base_point _ _ := rfl
  free_point _ _ _ := rfl

variable (P : IhtParams K) (level count : ℕ) (h₀ : Heap K V) (blocks : List RemotePtr)

/-- The new P-List `bs` and its E-Lists when the pairs `src` have been put there, the E-Lists being
at `blocks` and `rest` still to be allocated. -/
structure Rehashed (rest : List RemotePtr) (src : List (K × V)) (h : Heap K V)
    (bs : List PlistPair) : Prop extends
    Filled pairPointing (fun k => levelHash P k level count) count h₀.elist blocks rest src h.elist
      bs where
  plist : h.plist = h₀.plist

variable {P level count h₀ blocks} {h h' : Heap K V} {bs bs' : List PlistPair}
  {rest : List RemotePtr} {src : List (K × V)}

/-- Every bucket of the new P-List is free. -/
theorem Rehashed.lock (H : Rehashed P level count h₀ blocks rest src h bs) {b : ℕ}
    (hb : b < count) : (bucketAt bs b).lock = eUnlocked :=
  H.free b hb

/-- The loop of `rehash` spreads the pairs, and touches no P-List. -/
theorem rehashLoop_eq : ∀ (src : List (K × V)) (fresh : List RemotePtr) (h : Heap K V)
    (bs : List PlistPair), rehashLoop P level count src fresh h bs
      = (spreadLoop pairPointing (fun k => levelHash P k level count) src fresh h.elist bs).map
        fun x => (⟨x.1, h.plist⟩, x.2)
  | [], _, _, _ => rfl
  | x :: src, fresh, h, bs => by
    unfold rehashLoop spreadLoop
    simp only []
    split_ifs with h1 h2 h2
    · rcases fresh with _ | ⟨e, fresh⟩
      · rfl
      · exact rehashLoop_eq src fresh _ _
    · exact absurd h1 h2
    · exact absurd h2 h1
    · exact rehashLoop_eq src fresh _ bs

theorem rehashLoop_eq_some {fresh : List RemotePtr} :
    rehashLoop P level count src fresh h bs = some (h', bs') ↔
      spreadLoop pairPointing (fun k => levelHash P k level count) src fresh h.elist bs
        = some (h'.elist, bs') ∧ h'.plist = h.plist := by
  rw [rehashLoop_eq, Option.map_eq_some_iff]
  constructor
  · rintro ⟨⟨L, bs''⟩, h1, h2⟩
    obtain ⟨rfl, rfl⟩ := Prod.mk.inj h2
    exact ⟨h1, rfl⟩
  · rintro ⟨h1, h2⟩
    exact ⟨_, h1, by rw [← h2]⟩

/-- What each turn of the loop keeps, of the pairs still to come, the E-Lists and the new P-List,
holds after it. -/
theorem rehashLoop_rule {I : List (K × V) → Leaves RemotePtr K V → List PlistPair → Prop}
    {fresh : List RemotePtr} (hr : rehashLoop P level count src fresh h bs = some (h', bs'))
    (H : I src h.elist bs)
    (halloc : ∀ x src L bs e, I (x :: src) L bs →
      (bucketAt bs (levelHash P x.1 level count)).base = .null → I src
        (Function.update L e (some [x])) (bs.set (levelHash P x.1 level count) ⟨e, eUnlocked⟩))
    (happend : ∀ x src L bs, I (x :: src) L bs →
      (bucketAt bs (levelHash P x.1 level count)).base ≠ .null → I src
        (Function.update L (bucketAt bs (levelHash P x.1 level count)).base
          (some ((L (bucketAt bs (levelHash P x.1 level count)).base).getD [] ++ [x]))) bs) :
    I [] h'.elist bs' := by
  obtain ⟨_, h1⟩ := spreadLoop_rule (I := fun src _ L bs => I src L bs)
    (fun x src e _ L bs => halloc x src L bs e) (fun x src _ L bs => happend x src L bs) src fresh
    h.elist bs (rehashLoop_eq_some.1 hr).1 H
  exact h1

/-- The loop of `rehash` puts each pair of the source in the E-List of its bucket. -/
theorem rehashLoop_spec {mult : ℕ} (hc : 4 ≤ count) (hmult : P.plistSize * mult = count)
    (hnull : RemotePtr.null ∉ blocks) (hn : blocks.Nodup)
    (hl : rehashLoop P level count src blocks h₀ (initPList P mult) = some (h', bs')) :
    ∃ rest, Rehashed P level count h₀ blocks rest src h' bs' := by
  obtain ⟨hl, hplist⟩ := rehashLoop_eq_some.1 hl
  have hlt : ∀ k, levelHash P k level count < count := fun k =>
    (levelHash_lt P k level hc).trans_le (Nat.sub_le _ _)
  refine (spreadLoop_spec hlt hnull hn (filled_init (by rw [initPList_length, hmult])
    fun b hb => ?_) hl).imp fun rest hF => ⟨hF, hplist⟩
  have hb' := bucketAt_initPList P (hmult ▸ hb)
  exact ⟨congrArg PlistPair.base hb', congrArg PlistPair.lock hb'⟩

/-- A rehash runs its loop on a new P-List, and deallocates the E-List if that is the caller's. -/
theorem rehash_cases {self : UInt16} {h : Heap K V} {base newP : RemotePtr} {pcount pdepth : ℕ}
    {fresh : List RemotePtr} (hr : rehash P self h base pcount pdepth fresh = some (h', newP)) :
    ∃ blocks source h₁ bs, fresh = newP :: blocks ∧ h.elist base = some source
      ∧ rehashLoop P (pdepth + 1) (pcount * 2) source blocks h
        (initPList P (pcount * 2 / P.plistSize)) = some (h₁, bs)
      ∧ h' = if isLocal self base then (h₁.setPlist newP bs).setElist base none
        else h₁.setPlist newP bs := by
  cases fresh with
  | nil => simp [rehash] at hr
  | cons newP' blocks =>
    rcases hb : h.elist base with _ | source
    · simp [rehash, hb] at hr
    · simp only [rehash, hb] at hr
      rcases hl : rehashLoop P (pdepth + 1) (pcount * 2) source blocks h
        (initPList P (pcount * 2 / P.plistSize)) with _ | ⟨h₁, bs⟩
      · simp [hl] at hr
      · simp only [hl, Option.some.injEq, Prod.mk.injEq] at hr
        obtain ⟨rfl, rfl⟩ := hr
        exact ⟨blocks, source, h₁, bs, rfl, rfl, hl, rfl⟩

end Rehash

/-! ## A small table -/

/-- The smallest table: one pair to an E-List, four buckets to the root. -/
def smallTable : IhtParams ℕ where
  elistSize := 1
  plistSize := 4
  hash k := .ofNat k
  elistSize_pos := Nat.one_pos
  plistSize_pos := by decide
  plistSize_aligned := by decide

theorem smallRoot_ne : RemotePtr.of 0 64 ≠ .null := by decide

end Rome

import Rome.Summary

/-!
# The sample of a rank

The tree holds its samples in order, each as often as it was inserted, and every node knows how many
its subtree has (`Wf`). So the search by rank finds the sample of that rank (`findRank_spec`), and
the sample of a percentile is the one at its place (`place`) in the sorted list of the samples.
-/

namespace Rome

namespace ATree

variable {K : Type*}

/-- The samples of the tree, in order. -/
def toList : ATree K → List K
  | nil => []
  | node left key value _ right => left.toList ++ List.replicate value key ++ right.toList

variable [LinearOrder K]

/-- A search tree with the right counts. -/
def Wf : ATree K → Prop
  | nil => True
  | node left key value metadata right => left.Wf ∧ right.Wf ∧ 1 ≤ value
    ∧ metadata = left.metadata + right.metadata + value
    ∧ (∀ x ∈ left.toList, x < key) ∧ ∀ x ∈ right.toList, key < x

theorem Wf.metadata_eq {t : ATree K} (h : t.Wf) : t.metadata = t.toList.length := by
  induction t with
  | nil => rfl
  | node left key value m right ihl ihr =>
    obtain ⟨h1, h2, -, h3, -⟩ := h
    simp only [metadata, toList, List.length_append, List.length_replicate]
    rw [h3, ihl h1, ihr h2]
    omega

theorem Wf.sorted {t : ATree K} (h : t.Wf) : t.toList.Pairwise (· ≤ ·) := by
  induction t with
  | nil => exact List.Pairwise.nil
  | node left key value metadata right ihl ihr =>
    obtain ⟨h1, h2, -, -, h4, h5⟩ := h
    unfold toList
    rw [List.append_assoc, List.pairwise_append, List.pairwise_append]
    refine ⟨ihl h1, ⟨List.pairwise_replicate_of_refl, ihr h2, fun x hx y hy => ?_⟩,
      fun x hx y hy => ?_⟩
    · rw [(List.mem_replicate.1 hx).2]
      exact (h5 y hy).le
    · rcases List.mem_append.1 hy with hy | hy
      · rw [(List.mem_replicate.1 hy).2]
        exact (h4 x hx).le
      · exact ((h4 x hx).trans (h5 y hy)).le

theorem toList_insertOrUpdate (key : K) (t : ATree K) :
    (t.insertOrUpdate key).toList.Perm (key :: t.toList) := by
  induction t with
  | nil => exact List.Perm.refl _
  | node left k value metadata right ihl ihr =>
    unfold insertOrUpdate
    split_ifs with h1 h2
    · subst h1
      simp only [visit, toList, List.replicate_succ, List.append_assoc, List.cons_append]
      exact List.perm_middle
    · simp only [visit, toList]
      exact (ihr.append_left _).trans List.perm_middle
    · simp only [visit, toList, List.append_assoc]
      exact ihl.append_right _

theorem Wf.insertOrUpdate {t : ATree K} (h : t.Wf) (key : K) : (t.insertOrUpdate key).Wf := by
  induction t with
  | nil => simp [ATree.insertOrUpdate, visit, Wf, toList]
  | node left k value metadata right ihl ihr =>
    obtain ⟨h1, h2, h3, -, h4, h5⟩ := h
    unfold ATree.insertOrUpdate
    split_ifs with h6 h7
    · exact ⟨h1, h2, by omega, rfl, h4, h5⟩
    · refine ⟨h1, ihr h2, h3, rfl, h4, fun x hx => ?_⟩
      rcases List.mem_cons.1 ((toList_insertOrUpdate key right).mem_iff.1 hx) with rfl | hx
      · exact h7
      · exact h5 x hx
    · refine ⟨ihl h1, h2, h3, rfl, fun x hx => ?_, h5⟩
      rcases List.mem_cons.1 ((toList_insertOrUpdate key left).mem_iff.1 hx) with rfl | hx
      · exact lt_of_le_of_ne (not_lt.1 h7) (Ne.symm h6)
      · exact h4 x hx

omit [LinearOrder K] in
theorem findRank_node (left right : ATree K) (key : K) (value m : ℕ) (rank : ℤ) :
    (node left key value m right).findRank rank =
      if left.isNil = true ∧ right.isNil = true then if rank ≤ m then some key else none
      else if rank ≤ m - right.metadata ∧ left.metadata < rank then some key
      else if left.isNil = false ∧ rank ≤ left.metadata then left.findRank rank
      else right.findRank (rank - (m - right.metadata)) := by
  cases left <;> cases right <;> simp [findRank, isNil]

omit [LinearOrder K] in
theorem toList_of_isNil {t : ATree K} (h : t.isNil = true) : t.toList = [] := by
  cases t with
  | nil => rfl
  | node => simp [isNil] at h

theorem Wf.isNil_iff {t : ATree K} (h : t.Wf) : t.isNil = true ↔ t.metadata = 0 := by
  cases t with
  | nil => simp [isNil, metadata]
  | node left key value m right =>
    obtain ⟨-, -, h3, h4, -⟩ := h
    simp only [isNil, metadata, Bool.false_eq_true, false_iff]
    omega

/-- The search by rank finds the sample of that rank. -/
theorem Wf.findRank_spec {t : ATree K} (h : t.Wf) : ∀ {r : ℕ}, r < t.toList.length →
    t.findRank (r + 1) = t.toList[r]? := by
  induction t with
  | nil =>
    intro r hr
    simp [toList] at hr
  | node left key value m right ihl ihr =>
    intro r hr
    obtain ⟨h1, h2, h3, h4, -⟩ := h
    have hl := h1.metadata_eq
    have hr' := h2.metadata_eq
    have hnl := h1.isNil_iff
    have hnr := h2.isNil_iff
    simp only [toList, List.length_append, List.length_replicate] at hr
    have hin : r < left.toList.length → (node left key value m right).toList[r]? =
        left.toList[r]? := by
      intro hlt
      rw [toList, List.append_assoc, List.getElem?_append_left hlt]
    have hkey : left.toList.length ≤ r → r < left.toList.length + value →
        (node left key value m right).toList[r]? = some key := by
      intro hge hlt
      rw [toList, List.getElem?_append_left (by simp; omega), List.getElem?_append_right hge,
        List.getElem?_replicate, if_pos (by omega)]
    have hout : left.toList.length + value ≤ r → (node left key value m right).toList[r]? =
        right.toList[r - (left.toList.length + value)]? := by
      intro hge
      rw [toList, List.getElem?_append_right (by simp; omega), List.length_append,
        List.length_replicate]
    rw [findRank_node]
    split_ifs with c1 c2 c3 c4
    · rw [hnl, hnr] at c1
      exact (hkey (by omega) (by omega)).symm
    · rw [hnl, hnr] at c1
      omega
    · exact (hkey (by omega) (by omega)).symm
    · rw [ihl h1 (by omega), hin (by omega)]
    · rw [← Bool.not_eq_true, hnl] at c4
      have hge : left.toList.length + value ≤ r := by omega
      have hrank : ((r : ℤ) + 1 - (m - right.metadata)) =
          ((r - (left.toList.length + value) : ℕ) : ℤ) + 1 := by omega
      rw [hrank, ihr h2 (by omega), hout hge]

end ATree

/-- The place of a percentile in the sorted list of `size` samples. -/
def Percentile.place (p : Percentile) (size : ℕ) : ℕ := (ATree.rank p.value size).toNat - 1

namespace Percentile

theorem value_le (p : Percentile) : 0 ≤ p.value ∧ p.value ≤ 100 := by
  cases p <;> norm_num [value]

theorem eq_min_or (p : Percentile) : p = .min ∨ 50 ≤ p.value := by
  cases p <;> norm_num [value]

theorem rank_of_ne {p : Percentile} (hp : p ≠ .min) (size : ℕ) :
    ATree.rank p.value size = ⌊p.value / 100 * size⌋ := by
  have h := p.eq_min_or.resolve_left hp
  rw [ATree.rank, if_neg (by linarith)]

theorem rank_bounds {p : Percentile} (hp : p ≠ .min) (size : ℕ) :
    0 ≤ ATree.rank p.value size ∧ ATree.rank p.value size ≤ size
      ∧ (2 ≤ size → 1 ≤ ATree.rank p.value size) := by
  have h50 := p.eq_min_or.resolve_left hp
  have h100 := p.value_le.2
  have hN : (0 : ℚ) ≤ size := Nat.cast_nonneg size
  rw [rank_of_ne hp]
  refine ⟨Int.floor_nonneg.2 (by positivity), ?_, fun h2 => ?_⟩
  · rw [← Int.floor_natCast (R := ℚ) size]
    refine Int.floor_mono ?_
    calc p.value / 100 * size ≤ 1 * size := by
          refine mul_le_mul_of_nonneg_right ?_ hN
          linarith
      _ = size := one_mul _
  · rw [Int.le_floor]
    have h2' : (2 : ℚ) ≤ size := by exact_mod_cast h2
    calc ((1 : ℤ) : ℚ) = 1 / 2 * 2 := by norm_num
      _ ≤ p.value / 100 * size := by
          refine mul_le_mul ?_ h2' (by norm_num) (by linarith)
          linarith

theorem place_lt (p : Percentile) {size : ℕ} (h : 1 ≤ size) : p.place size < size := by
  unfold place
  by_cases hp : p = .min
  · subst hp
    simp only [ATree.rank, value, if_true]
    omega
  · have := rank_bounds hp size
    omega

theorem place_mono {p q : Percentile} (h : p.value ≤ q.value) (size : ℕ) :
    p.place size ≤ q.place size := by
  unfold place
  by_cases hp : p = .min
  · subst hp
    simp [ATree.rank, value]
  · have hq : q ≠ .min := by
      rintro rfl
      have h50 := p.eq_min_or.resolve_left hp
      have h0 : value .min = 0 := rfl
      linarith
    rw [rank_of_ne hp, rank_of_ne hq]
    have hfloor : ⌊p.value / 100 * (size : ℚ)⌋ ≤ ⌊q.value / 100 * (size : ℚ)⌋ := by
      refine Int.floor_mono (mul_le_mul_of_nonneg_right ?_ (Nat.cast_nonneg size))
      linarith
    omega

end Percentile

namespace ATree

variable {K : Type*} [LinearOrder K]

/-- A tree of one sample answers every rank with it. -/
theorem Wf.findRank_one {t : ATree K} (h : t.Wf) (h1 : t.getSize = 1) {r : ℤ} (hr : r ≤ 1) :
    t.findRank r = t.toList[0]? := by
  cases t with
  | nil => simp [getSize, metadata] at h1
  | node left key value m right =>
    obtain ⟨hl, hrt, h3, h4, -⟩ := h
    simp only [getSize, metadata] at h1
    have hnl := hl.isNil_iff.2 (by omega)
    have hnr := hrt.isNil_iff.2 (by omega)
    rw [findRank_node, if_pos ⟨hnl, hnr⟩, if_pos (by omega), toList, toList_of_isNil hnl,
      List.nil_append, List.getElem?_append_left (by simp; omega), List.getElem?_replicate,
      if_pos (by omega)]

/-- The search for a percentile finds the sample at its place. -/
theorem Wf.findNthPercentile_spec {t : ATree K} (h : t.Wf) (h1 : 1 ≤ t.getSize) (p : Percentile) :
    t.findNthPercentile p.value = t.toList[p.place t.getSize]? := by
  have hlen : t.getSize = t.toList.length := h.metadata_eq
  have hv := p.value_le
  unfold findNthPercentile
  rw [if_neg (by rintro (h2 | h2) <;> linarith)]
  have hrank : rank p.value t.getSize ≤ t.getSize
      ∧ (2 ≤ t.getSize → 1 ≤ rank p.value t.getSize) := by
    by_cases hp : p = .min
    · subst hp
      simp only [rank, Percentile.value, if_true]
      omega
    · exact (Percentile.rank_bounds hp t.getSize).2
  by_cases hone : t.getSize = 1
  · have hplace : p.place t.getSize = 0 := by
      have := p.place_lt h1
      omega
    rw [hplace]
    exact h.findRank_one hone (by omega)
  · have hpos := hrank.2 (by omega)
    have hplace : rank p.value t.getSize = ((p.place t.getSize : ℕ) : ℤ) + 1 := by
      unfold Percentile.place
      omega
    rw [hplace]
    exact h.findRank_spec (by rw [← hlen]; exact p.place_lt h1)

end ATree

end Rome

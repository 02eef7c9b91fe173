import Mathlib

/-!
# Tilings of an interval

A range has a start and a length. Ranges tile an interval when the first starts where it starts,
each starts where the one before ends, the last ends where it ends, and none is empty.
-/

namespace Tiling

variable {α : Type*} [AddCommMonoid α] [LinearOrder α]

/-- The ranges tile the interval from `a` to `b`. -/
def Tiles : α → α → List (α × α) → Prop
  | a, b, [] => a = b
  | a, b, r :: rs => r.1 = a ∧ 0 < r.2 ∧ Tiles (a + r.2) b rs

/-- The point `x` is in the range `r`. -/
def InRange (x : α) (r : α × α) : Prop := r.1 ≤ x ∧ x < r.1 + r.2

/-- No point is in both ranges. -/
def NonOverlapping (r r' : α × α) : Prop := ∀ x, InRange x r → ¬ InRange x r'

variable {a b : α} {rs : List (α × α)}

theorem Tiles.pos (h : Tiles a b rs) : ∀ r ∈ rs, 0 < r.2 := by
  induction rs generalizing a with
  | nil =>
    intro r hr
    cases hr
  | cons r rs ih =>
    intro r' hr
    rcases List.mem_cons.1 hr with rfl | hr
    · exact h.2.1
    · exact ih h.2.2 r' hr

theorem Tiles.append {m : α} {rs' : List (α × α)} (h : Tiles a m rs) (h' : Tiles m b rs') :
    Tiles a b (rs ++ rs') := by
  induction rs generalizing a with
  | nil => rwa [show a = m from h]
  | cons r rs ih => exact ⟨h.1, h.2.1, ih h.2.2⟩

/-- The first range ends where the next one starts, or the interval ends. -/
theorem Tiles.head_end {r : α × α} (h : Tiles a b (r :: rs)) :
    r.1 + r.2 = (rs.head?.map Prod.fst).getD b := by
  obtain ⟨rfl, -, h3⟩ := h
  cases rs with
  | nil => exact h3
  | cons r' rs => exact h3.1.symm

/-- Ranges with starts `f i` and lengths `l i` tile what they step through. -/
theorem tiles_range {f l : ℕ → α} {n : ℕ} (hf : ∀ i < n, f (i + 1) = f i + l i)
    (hl : ∀ i < n, 0 < l i) : Tiles (f 0) (f n) ((List.range n).map fun i => (f i, l i)) := by
  induction n with
  | zero => rfl
  | succ n ih =>
    rw [List.range_succ, List.map_append]
    refine (ih (fun i hi => hf i (hi.trans n.lt_succ_self))
      fun i hi => hl i (hi.trans n.lt_succ_self)).append ?_
    exact ⟨rfl, hl n n.lt_succ_self, (hf n n.lt_succ_self).symm⟩

section Ordered

variable [IsOrderedCancelAddMonoid α]

theorem Tiles.le (h : Tiles a b rs) : a ≤ b := by
  induction rs generalizing a with
  | nil => exact le_of_eq h
  | cons r rs ih => exact (le_add_of_nonneg_right h.2.1.le).trans (ih h.2.2)

theorem Tiles.start_le (h : Tiles a b rs) : ∀ r ∈ rs, a ≤ r.1 := by
  induction rs generalizing a with
  | nil =>
    intro r hr
    cases hr
  | cons r rs ih =>
    intro r' hr
    rcases List.mem_cons.1 hr with rfl | hr
    · exact h.1.ge
    · exact (le_add_of_nonneg_right h.2.1.le).trans (ih h.2.2 r' hr)

/-- The points of the interval are those of the ranges. -/
theorem Tiles.mem_iff (h : Tiles a b rs) (x : α) : (∃ r ∈ rs, InRange x r) ↔ a ≤ x ∧ x < b := by
  induction rs generalizing a with
  | nil =>
    rw [show a = b from h]
    simp
  | cons r rs ih =>
    obtain ⟨rfl, h2, h3⟩ := h
    rw [List.exists_mem_cons_iff, ih h3]
    constructor
    · rintro (⟨h4, h5⟩ | ⟨h4, h5⟩)
      · exact ⟨h4, h5.trans_le h3.le⟩
      · exact ⟨(le_add_of_nonneg_right h2.le).trans h4, h5⟩
    · rintro ⟨h4, h5⟩
      rcases lt_or_ge x (r.1 + r.2) with h6 | h6
      · exact .inl ⟨h4, h6⟩
      · exact .inr ⟨h6, h5⟩

/-- Each range ends before the later ones start. -/
theorem Tiles.pairwise (h : Tiles a b rs) : rs.Pairwise fun r r' => r.1 + r.2 ≤ r'.1 := by
  induction rs generalizing a with
  | nil => exact .nil
  | cons r rs ih =>
    obtain ⟨rfl, -, h3⟩ := h
    exact .cons h3.start_le (ih h3)

theorem Tiles.apart (h : Tiles a b rs) : rs.Pairwise NonOverlapping :=
  h.pairwise.imp fun hle _ hx hx' => not_le_of_gt (hx.2.trans_le hle) hx'.1

end Ordered

end Tiling

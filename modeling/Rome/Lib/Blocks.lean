import Mathlib

/-!
# Blocks of a scaled quotient

The quotient `c * j / l` cuts the places `0 ≤ j < l` into `c` blocks of consecutive places. Each has
`l / c` places, rounded down or up, and the last has them rounded down.
-/

namespace Blocks

variable {c l : ℤ}

/-- `⌈a / b⌉`. -/
def ceilDiv (a b : ℤ) : ℤ := (a + b - 1) / b

/-- The first place of block `i`. -/
def start (c l i : ℤ) : ℤ := ceilDiv (i * l) c

theorem ceilDiv_le_iff {a j : ℤ} (hc : 0 < c) : ceilDiv a c ≤ j ↔ a ≤ c * j := by
  unfold ceilDiv
  rw [← Int.lt_add_one_iff, Int.ediv_lt_iff_lt_mul hc, add_mul, one_mul, mul_comm c j]
  omega

/-- A place is in the block whose places it is among. -/
theorem quotient_eq_iff {i j : ℤ} (hc : 0 < c) (hl : 0 < l) :
    c * j / l = i ↔ start c l i ≤ j ∧ j < start c l (i + 1) := by
  unfold start
  rw [ceilDiv_le_iff hc, ← not_le (b := j), ceilDiv_le_iff hc, not_le]
  constructor
  · intro h
    constructor
    · rw [← Int.le_ediv_iff_mul_le hl, h]
    · rw [← Int.ediv_lt_iff_lt_mul hl, h]
      exact Int.lt_succ i
  · rintro ⟨h1, h2⟩
    rw [← Int.le_ediv_iff_mul_le hl] at h1
    rw [← Int.ediv_lt_iff_lt_mul hl] at h2
    exact le_antisymm (Int.lt_add_one_iff.1 h2) h1

/-- A place is in one of the `c` blocks. -/
theorem quotient_bounds {j : ℤ} (hc : 0 < c) (hj : 0 ≤ j) (hl : j < l) :
    0 ≤ c * j / l ∧ c * j / l < c := by
  have hpos : 0 < l := by omega
  refine ⟨Int.ediv_nonneg (mul_nonneg hc.le hj) hpos.le, ?_⟩
  rw [Int.ediv_lt_iff_lt_mul hpos]
  exact mul_lt_mul_of_pos_left hl hc

/-- A sum rounded up is one of its terms rounded up and the other rounded up or down. -/
theorem ceilDiv_add {a b : ℤ} (hc : 0 < c) :
    ceilDiv (a + b) c = ceilDiv a c + b / c ∨ ceilDiv (a + b) c = ceilDiv a c + ceilDiv b c := by
  have hle : ceilDiv (a + b) c ≤ ceilDiv a c + ceilDiv b c := by
    rw [ceilDiv_le_iff hc, mul_add]
    exact add_le_add ((ceilDiv_le_iff hc).1 le_rfl) ((ceilDiv_le_iff hc).1 le_rfl)
  have hge : ceilDiv a c + b / c ≤ ceilDiv (a + b) c := by
    have h1 := (ceilDiv_le_iff (c := c) (a := a + b) hc).1 le_rfl
    have h2 : c * (b / c) ≤ b := by
      have := Int.ediv_mul_le b hc.ne'
      rwa [mul_comm] at this
    have h3 : ceilDiv a c ≤ ceilDiv (a + b) c - b / c := by
      rw [ceilDiv_le_iff hc, mul_sub]
      omega
    omega
  have hone : ceilDiv b c ≤ b / c + 1 := by
    rw [ceilDiv_le_iff hc, mul_add, mul_one]
    exact (Int.lt_mul_ediv_self_add hc).le
  rcases hle.lt_or_eq with h | h
  · left
    omega
  · exact .inr h

/-- A block has `l / c` places, rounded down or up. -/
theorem start_succ (hc : 0 < c) (i : ℤ) :
    start c l (i + 1) = start c l i + l / c ∨ start c l (i + 1) = start c l i + ceilDiv l c := by
  unfold start
  rw [add_mul, one_mul]
  exact ceilDiv_add hc

theorem start_nonneg {i : ℤ} (hc : 0 < c) (hl : 0 ≤ l) (hi : 0 ≤ i) : 0 ≤ start c l i := by
  have := mul_nonneg hi hl
  exact Int.ediv_nonneg (by omega) hc.le

theorem start_le {i : ℤ} (hc : 0 < c) (hl : 0 ≤ l) (hi : i ≤ c) : start c l i ≤ l :=
  (ceilDiv_le_iff hc).2 (mul_le_mul_of_nonneg_right hi hl)

theorem start_self (hc : 0 < c) : start c l c = l := by
  have h1 : start c l c ≤ l := (ceilDiv_le_iff hc).2 le_rfl
  have h2 : c * l ≤ c * start c l c := (ceilDiv_le_iff hc).1 le_rfl
  exact le_antisymm h1 (le_of_mul_le_mul_left h2 hc)

/-- The last block has `l / c` places, rounded down. -/
theorem start_last (hc : 0 < c) : start c l (c - 1) = l - l / c := by
  apply le_antisymm
  · refine (ceilDiv_le_iff hc).2 ?_
    have := Int.ediv_mul_le l hc.ne'
    rw [mul_sub, sub_mul, one_mul, mul_comm c (l / c)]
    omega
  · have h1 : (c - 1) * l ≤ c * start c l (c - 1) := (ceilDiv_le_iff hc).1 le_rfl
    have h2 : l - start c l (c - 1) ≤ l / c := by
      rw [Int.le_ediv_iff_mul_le hc, sub_mul, mul_comm (start c l (c - 1))]
      rw [sub_mul, one_mul] at h1
      linarith
    omega

end Blocks

import Rome.Proofs.MemoryBitmap

/-!
# Slab classes cover their requests

A number below `2 ^ 32` is shifted until what is left is an index of `kLogTable`; the entry there
and the shift are its logarithm, which is raised by one where the number is no power of two. Of the
numbers of bytes below `2 ^ 32` those up to `2 ^ 20` have a slab class. A request of these is still
refused where the bitmap has come out of step with the freelists.
-/

namespace Rome

open Machine

theorem kLogTable_length : kLogTable.length = 256 := by decide +kernel

theorem kLogTable_getElem? {i : ℕ} (h : i < 256) : kLogTable[i]? = some (kLogTable.getD i 0) := by
  rw [List.getElem?_eq_getElem (h.trans_eq kLogTable_length.symm),
    List.getD_eq_getElem _ _ (h.trans_eq kLogTable_length.symm)]

/-- The table is read at its entries only. -/
theorem upperLog2Checked_eq {x : ℕ} (h : x < 2 ^ 32) : upperLog2Checked x = some (upperLog2 x) := by
  unfold upperLog2Checked upperLog2
  simp only [Nat.shiftRight_eq_div_pow, Nat.div_div_eq_div_mul, ← Nat.pow_add]
  by_cases hq : x / 2 ^ 16 = 0
  · by_cases hp : x / 2 ^ 8 = 0
    · simp only [hq, hp, ne_eq, not_true_eq_false, if_false]
      rw [kLogTable_getElem? (by omega), Option.map_some]
    · simp only [hq, hp, ne_eq, not_true_eq_false, not_false_eq_true, if_false, if_true]
      rw [kLogTable_getElem? (by omega), Option.map_some, Option.map_some]
  · by_cases hp : x / 2 ^ (16 + 8) = 0
    · simp only [hq, hp, ne_eq, not_true_eq_false, not_false_eq_true, if_false, if_true]
      rw [kLogTable_getElem? (by omega), Option.map_some, Option.map_some]
    · simp only [hq, hp, ne_eq, not_false_eq_true, if_true]
      rw [kLogTable_getElem? (by omega), Option.map_some, Option.map_some]

theorem upperLog2_isLeast {x : ℕ} (h1 : 1 ≤ x) (h2 : x < 2 ^ 32) :
    IsLeast {r | x ≤ 2 ^ r} (upperLog2 x) :=
  ⟨(upperLog2_le_iff h1 h2 _).2 le_rfl, fun j hj => (upperLog2_le_iff h1 h2 j).1 hj⟩

theorem upperLog2_le {x : ℕ} (h1 : 1 ≤ x) (h2 : x < 2 ^ 32) : upperLog2 x ≤ 32 :=
  (upperLog2_isLeast h1 h2).2 h2.le

theorem slabClass_eq {x : ℕ} (h1 : 1 ≤ x) (h2 : x < 2 ^ 32) :
    slabClass x = max kMinSlabClass (upperLog2 x) := by
  have hle := upperLog2_le h1 h2
  rw [slabClass, Nat.mod_eq_of_lt (by omega)]

theorem le_two_pow_slabClass {x : ℕ} (h1 : 1 ≤ x) (h2 : x < 2 ^ 32) : x ≤ 2 ^ slabClass x := by
  rw [slabClass_eq h1 h2]
  exact (upperLog2_isLeast h1 h2).1.trans
    (Nat.pow_le_pow_right (by decide) (le_max_right _ _))

/-- There is a list for the class of `x` just when `x` is at most `2 ^ kMaxSlabClass`. -/
theorem slabClass_lt_iff {x : ℕ} (h1 : 1 ≤ x) (h2 : x < 2 ^ 32) :
    slabClass x - kMinSlabClass < kNumSlabClasses ↔ x ≤ 2 ^ 20 := by
  rw [slabClass_eq h1 h2, upperLog2_le_iff h1 h2]
  unfold kNumSlabClasses kMaxSlabClass kMinSlabClass
  omega

theorem atLeast_eq_max (bytes alignment : ℕ) : atLeast bytes alignment = max bytes alignment := by
  unfold atLeast
  split_ifs with h <;> omega

theorem checked_iff {t : FreeLists} {idx alignment : ℕ} : t.checked idx alignment = true
    ↔ ((t.alignments.getD idx 0).toNat &&& alignment ≠ 0 → t.freelists.getD idx [] ≠ []) := by
  unfold FreeLists.checked
  rw [decide_eq_true_iff]
  exact or_iff_not_imp_left

/-- The assertions are all that a request can fail at. -/
theorem doAllocate_isSome_iff (r : Resource) (t : FreeLists) (mem : Memory) (bytes alignment : ℕ) :
    (doAllocate r t mem bytes alignment).isSome ↔
      slabClass (atLeast bytes alignment) - kMinSlabClass < kNumSlabClasses
        ∧ alignment ≤ kMaxAlignment
        ∧ t.checked (slabClass (atLeast bytes alignment) - kMinSlabClass) alignment = true := by
  unfold doAllocate
  dsimp only
  split_ifs with h
  · refine iff_of_true ?_ h
    rcases reuse t (slabClass (atLeast bytes alignment) - kMinSlabClass) alignment with _ | ⟨p, t'⟩
    · rcases carve r (atLeast bytes alignment) alignment with _ | ⟨p, r'⟩ <;> rfl
    · rfl
  · exact iff_of_false (by simp) h

/-- For every number `x` of bytes from 1 on below `2 ^ 32` the upper logarithm reads inside its
table and is the exponent of the least power of two that covers it. A request that comes to `x`
bytes is accepted exactly when `x` is at most `2 ^ 20`, its alignment at most 256, and the freelist
of its slab class not empty if the bit of the alignment is set; and its slab class covers it. -/
theorem slab_classes_cover (x : ℕ) (h1 : 1 ≤ x) (h2 : x < 2 ^ 32) :
    (∃ r, upperLog2Checked x = some r ∧ upperLog2 x = r ∧ IsLeast {j | x ≤ 2 ^ j} r)
      ∧ ∀ (r : Resource) (t : FreeLists) (mem : Memory) (bytes alignment : ℕ),
        max bytes alignment = x →
        ((doAllocate r t mem bytes alignment).isSome
          ↔ max bytes alignment ≤ 2 ^ 20 ∧ alignment ≤ 256
            ∧ ((t.alignments.getD (slabClass (atLeast bytes alignment) - kMinSlabClass) 0).toNat
                &&& alignment ≠ 0 →
              t.freelists.getD (slabClass (atLeast bytes alignment) - kMinSlabClass) [] ≠ []))
        ∧ bytes ≤ 2 ^ slabClass (atLeast bytes alignment) := by
  refine ⟨⟨_, upperLog2Checked_eq h2, rfl, upperLog2_isLeast h1 h2⟩, ?_⟩
  rintro r t mem bytes alignment rfl
  rw [doAllocate_isSome_iff, atLeast_eq_max, slabClass_lt_iff h1 h2, checked_iff]
  exact ⟨Iff.rfl, (le_max_left bytes alignment).trans (le_two_pow_slabClass h1 h2)⟩

/-- 65 bytes are covered by class 7, at an alignment of 64 as well. -/
theorem slab_classes_cover_65 : upperLog2Checked 65 = some 7
    ∧ (doAllocate (.init 0 4096) .init (fun _ => 0) 65 64).isSome
    ∧ 65 ≤ 2 ^ slabClass (atLeast 65 64) := by
  obtain ⟨-, h⟩ := slab_classes_cover 65 (by decide) (by decide)
  obtain ⟨h1, h2⟩ := h (.init 0 4096) .init (fun _ => 0) 65 64 (by decide)
  exact ⟨by decide, h1.2 (by decide), h2⟩

/-- After two blocks have come and gone 64 bytes at an alignment of 8 are refused: the freelist of
their class is empty, and the bit of 8 is set. -/
theorem pairRun_refused : ∃ s r,
    run memoryStep (memoryInit [.init 4096 4096] fun _ => 0) (pairRun 8 64) = some s
      ∧ s.resources[0]? = some r ∧ max 64 8 ≤ 2 ^ 20 ∧ (8 : ℕ) ≤ 256
      ∧ doAllocate r s.lists s.mem 64 8 = none := by
  obtain ⟨s, hs, hp⟩ := Option.map_eq_some_iff.1
    (show (run memoryStep (memoryInit [.init 4096 4096] fun _ => 0) (pairRun 8 64)).map
      (fun s => s.resources[0]?.map fun r => (doAllocate r s.lists s.mem 64 8).isNone)
      = some (some true) by decide +kernel)
  obtain ⟨r, hr, hn⟩ := Option.map_eq_some_iff.1 hp
  exact ⟨s, r, hs, hr, by decide, by decide, Option.isNone_iff_eq_none.1 hn⟩

end Rome

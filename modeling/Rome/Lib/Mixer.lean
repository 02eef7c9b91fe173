import Mathlib

/-!
# Finalisers

A finaliser takes a word through rounds: the word is xored with itself shifted to the right, or
multiplied by a constant. A round with a shift of at least one bit can be undone, from the highest
bit down, and so can one with an odd constant; rounds that can be undone permute the words.
-/

namespace Mixer

open Function

variable {w : ℕ}

inductive Round (w : ℕ)
  | xorShift (n : ℕ)
  | mul (c : BitVec w)

def Round.apply : Round w → BitVec w → BitVec w
  | xorShift n, x => x ^^^ (x >>> n)
  | mul c, x => x * c

/-- The rounds one after the other. -/
def mix : List (Round w) → BitVec w → BitVec w
  | [], x => x
  | r :: rs, x => mix rs (r.apply x)

/-- A shift of at least one bit, or an odd constant. -/
def Round.Reversible : Round w → Prop
  | xorShift n => 0 < n
  | mul c => c.toNat % 2 = 1

instance : (r : Round w) → Decidable r.Reversible
  | .xorShift _ => inferInstanceAs (Decidable (0 < _))
  | .mul _ => inferInstanceAs (Decidable (_ = _))

theorem xorShift_injective {n : ℕ} (hn : 0 < n) :
    Injective fun x : BitVec w => x ^^^ (x >>> n) := by
  intro x y h
  have hbit : ∀ k i, w ≤ i + k → x.getLsbD i = y.getLsbD i := by
    intro k
    induction k with
    | zero =>
      intro i hi
      rw [BitVec.getLsbD_of_ge x i hi, BitVec.getLsbD_of_ge y i hi]
    | succ k ih =>
      -- the bit `n` places up is known by then
      intro i hi
      have hup := ih (n + i) (by omega)
      have hi := congrArg (fun z : BitVec w => z.getLsbD i) h
      simp only [BitVec.getLsbD_xor, BitVec.getLsbD_ushiftRight, hup] at hi
      exact Bool.xor_left_inj.1 hi
  exact BitVec.eq_of_getLsbD_eq fun i hi => hbit w i (Nat.le_add_left w i)

/-- An odd number is a unit modulo a power of two. -/
theorem exists_mul_eq_one {c : BitVec w} (hc : c.toNat % 2 = 1) : ∃ d, c * d = 1#w := by
  have hw : 0 < w := by
    rcases Nat.eq_zero_or_pos w with rfl | hw
    · rw [BitVec.of_length_zero (x := c)] at hc
      cases hc
    · exact hw
  have hco : Nat.Coprime c.toNat (2 ^ w) :=
    Nat.Coprime.pow_right w (Nat.coprime_two_right.2 (Nat.odd_iff.2 hc))
  obtain ⟨m, -, hm⟩ := Nat.exists_mul_mod_eq_one_of_coprime hco (Nat.one_lt_two_pow hw.ne')
  refine ⟨BitVec.ofNat w m, BitVec.eq_of_toNat_eq ?_⟩
  rw [BitVec.toNat_mul, BitVec.toNat_ofNat, Nat.mul_mod_mod, hm, BitVec.toNat_one hw]

theorem mul_injective {c : BitVec w} (hc : c.toNat % 2 = 1) :
    Injective fun x : BitVec w => x * c := by
  obtain ⟨d, hd⟩ := exists_mul_eq_one hc
  refine LeftInverse.injective (g := fun x => x * d) fun x => ?_
  simp only [BitVec.mul_assoc, hd]
  exact BitVec.mul_one x

theorem Round.apply_injective {r : Round w} (hr : r.Reversible) : Injective r.apply := by
  cases r with
  | xorShift n => exact xorShift_injective hr
  | mul c => exact mul_injective hr

/-- Rounds that can be undone permute the words. -/
theorem mix_bijective {rs : List (Round w)} (hrs : ∀ r ∈ rs, r.Reversible) :
    Bijective (mix rs) := by
  induction rs with
  | nil => exact bijective_id
  | cons r rs ih =>
    have hr : Bijective r.apply :=
      Finite.injective_iff_bijective.1 (Round.apply_injective (hrs r List.mem_cons_self))
    exact (ih fun r' h => hrs r' (List.mem_cons_of_mem r h)).comp hr

end Mixer

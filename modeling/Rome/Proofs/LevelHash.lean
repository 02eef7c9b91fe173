import Rome.IhtLocal
import Rome.Lib.Mixer

/-!
# What a level hash tells apart

The finaliser of `level_hash` permutes the words of 64 bits. So the keys whose hashes differ are
still apart before the modulus, at every level and in both tables.
-/

namespace Rome

open Function Mixer

/-- The rounds of `level_hash`. -/
def mix13 : List (Round 64) :=
  [.xorShift 33, .mul 0xff51afd7ed558ccd, .xorShift 33, .mul 0xc4ceb9fe1a85ec53, .xorShift 33]

theorem mix13_bijective : Bijective (mix mix13) := mix_bijective (by decide)

theorem prehash_toBitVec (hash level : UInt64) :
    (prehash hash level).toBitVec = mix mix13 (hash ^^^ level).toBitVec := rfl

theorem prehash_bijective (level : UInt64) : Bijective fun hash => prehash hash level := by
  refine Finite.injective_iff_bijective.1 fun x y h => ?_
  have h1 := congrArg UInt64.toBitVec h
  simp only [prehash_toBitVec] at h1
  have h2 : x ^^^ level = y ^^^ level := UInt64.toBitVec_inj.1 (mix13_bijective.1 h1)
  exact (UInt64.xor_left_inj level).1 h2

/-- At every level the value before the modulus is a permutation of the hash, so keys whose hashes
differ share a bucket only by the modulus, in either table. -/
theorem level_hash_lossless {K : Type*} (P : IhtParams K) (Q : Carumap.Params K) (level : ℕ) :
    Bijective (fun hash => prehash hash (.ofNat level))
      ∧ (∀ key key', P.hash key ≠ P.hash key' →
        prehash (P.hash key) (.ofNat level) ≠ prehash (P.hash key') (.ofNat level))
      ∧ (∀ key key' count, levelHash P key level count = levelHash P key' level count ↔
        (prehash (P.hash key) (.ofNat level)).toNat
          ≡ (prehash (P.hash key') (.ofNat level)).toNat [MOD count - 1])
      ∧ (∀ key key', Q.hash key ≠ Q.hash key' →
        prehash (Q.hash key) (.ofNat level) ≠ prehash (Q.hash key') (.ofNat level))
      ∧ ∀ key key' count, Carumap.levelHash Q key level count
          = Carumap.levelHash Q key' level count ↔
        (prehash (Q.hash key) (.ofNat level)).toNat
          ≡ (prehash (Q.hash key') (.ofNat level)).toNat [MOD count] := by
  have hbij := prehash_bijective (.ofNat level)
  exact ⟨hbij, fun _ _ hne h => hne (hbij.1 h), fun _ _ _ => Iff.rfl,
    fun _ _ hne h => hne (hbij.1 h), fun _ _ _ => Iff.rfl⟩

end Rome

import Mathlib

/-!
# The hash of a key at a level

Both hash tables mix the level into the key's `std::hash` and run a finaliser over 64 bits before
they take the bucket modulo the number of buckets.
-/

namespace Rome

/-- What `level_hash` computes before its modulus. -/
def prehash (hash : UInt64) (level : UInt64) : UInt64 :=
  let prehash := hash ^^^ level
  let prehash := prehash ^^^ (prehash >>> 33)
  let prehash := prehash * 0xff51afd7ed558ccd
  let prehash := prehash ^^^ (prehash >>> 33)
  let prehash := prehash * 0xc4ceb9fe1a85ec53
  prehash ^^^ (prehash >>> 33)

end Rome

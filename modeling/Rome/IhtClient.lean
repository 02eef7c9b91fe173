import Rome.IhtDs
import Rome.Status

/-!
# The clients of the experiment

A `Client` fills the table, draws operations for keys of its range, has the table do them, and
asserts that a value it gets back is the key: each operation that it draws, and each insert of
`populate`, has its key for a value.
-/

namespace Rome

/-- `IHT_Op<int, int>`. -/
structure IhtOp where
  opType : ℤ
  key : ℤ
  value : ℤ
  deriving DecidableEq, Repr

/-- `CONTAINS`. -/
def opContains : ℤ := 0

/-- `INSERT`. -/
def opInsert : ℤ := 1

/-- `REMOVE`. -/
def opRemove : ℤ := 2

/-- The `generator` of `Client::Run`, with what it draws from `op_dist` and `k_dist`. -/
def generator (contains insert rng k : ℤ) : IhtOp :=
  if rng ≤ contains then ⟨opContains, k, 0⟩
  else if rng ≤ contains + insert then ⟨opInsert, k, k⟩
  else ⟨opRemove, k, 0⟩

/-- The call of the `MapAPI` that `Client::Apply` makes; it has none for another type. -/
def IhtOp.call (op : IhtOp) : Option (Op ℤ ℤ) :=
  if op.opType = opContains then some (.contains op.key)
  else if op.opType = opInsert then some (.insert op.key op.value)
  else if op.opType = opRemove then some (.remove op.key)
  else none

/-- The calls of `populate`, for the keys it draws. -/
def populate (value : ℤ → ℤ) (ks : List ℤ) : List (Op ℤ ℤ) := ks.map fun k => .insert k (value k)

/-- The operation is one that a client draws, or one of a table that is filled with its keys. -/
def Issued (op : Op ℤ ℤ) : Prop :=
  (∃ contains insert rng k, (generator contains insert rng k).call = some op)
    ∨ ∃ ks, op ∈ populate id ks

/-- The calls made are those of clients. -/
def IhtEvent.Issued {ι : Type*} : IhtEvent ι ℤ ℤ → Prop
  | .invoke _ op => Rome.Issued op
  | _ => True

end Rome

import Rome.Rpc

/-!
# The owner of a key

A `TwoSidedIHT` splits its range of keys among the nodes by the place of a key in the range. The
fields are `int`s; an operation on them is checked by `arith`, which lets all integers pass or those
of 32 bits.
-/

namespace Rome

/-- How a call of `to_id` can go wrong. -/
inductive IntFault
  | assertion
  | overflow
  | divByZero
  deriving DecidableEq

/-- The result of an operation on 32-bit `int`s, which may not overflow. -/
def int32 (x : ℤ) : Except IntFault ℤ :=
  if -2 ^ 31 ≤ x ∧ x < 2 ^ 31 then .ok x else .error .overflow

/-- A difference as an `int` member is initialised with it. -/
def wrap32 (x : ℤ) : ℤ := x.bmod (2 ^ 32)

/-- The fields of a `TwoSidedIHT` that `to_id` reads. -/
structure Keyspace where
  count : ℤ
  keyspaceLb : ℤ
  keyspaceLen : ℤ
  deriving DecidableEq

namespace Keyspace

/-- The constructor of `TwoSidedIHT`, with what becomes of the length of the range. -/
def construct (wrap : ℤ → ℤ) (selfId count keyspaceLb keyspaceUb : ℤ) : Except IntFault Keyspace :=
  if 0 ≤ selfId ∧ selfId < count then
    .ok ⟨count, keyspaceLb, wrap (keyspaceUb - keyspaceLb)⟩
  else .error .assertion

/-- The assertion of `to_id`. -/
def inRange (arith : ℤ → Except IntFault ℤ) (s : Keyspace) (key : ℤ) : Except IntFault Unit :=
  if s.keyspaceLb ≤ key then do
    let offset ← arith (key - s.keyspaceLb)
    if offset ≤ s.keyspaceLen then .ok () else .error .assertion
  else .error .assertion

/-- `to_id`. -/
def toId (arith : ℤ → Except IntFault ℤ) (s : Keyspace) (key : ℤ) : Except IntFault ℤ := do
  s.inRange arith key
  let offset ← arith (key - s.keyspaceLb)
  let scaled ← arith (s.count * offset)
  if s.keyspaceLen = 0 then .error .divByZero
  else
    let id ← arith (scaled.tdiv s.keyspaceLen)
    if id = s.count then arith (id - 1) else .ok id

end Keyspace

end Rome

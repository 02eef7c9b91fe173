import Mathlib

/-!
# Status values
-/

namespace Rome

/-- `StatusType`. -/
inductive StatusType
  | ok
  | internalError
  | unavailable
  | cancelled
  | notFound
  | unknown
  | alreadyExists
  | failedPrecondition
  | invalidArgument
  | resourceExhausted
  | aborted
  | outOfRange
  | streamTerminated
  deriving DecidableEq, Repr

structure Status where
  t : StatusType
  message : Option String
  deriving DecidableEq, Repr

def Status.ok : Status := ⟨.ok, none⟩

/-- The status after `s << t₁ << t₂ << ⋯`. An `operator<<` returns a copy of the status, and each
one after the first puts its text into the copy of the one before. -/
def Status.shift (s : Status) : List String → Status
  | [] => s
  | t :: _ => { s with message := some (s.message.getD "" ++ t) }

@[simp]
theorem Status.shift_t (s : Status) (ts : List String) : (s.shift ts).t = s.t := by
  cases ts <;> rfl

/-- `StatusVal`: the status and the value. -/
structure StatusVal (α : Type*) where
  status : Status
  val : Option α
  deriving DecidableEq

end Rome

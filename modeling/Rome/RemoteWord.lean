import Rome.RemotePtr
import Rome.Lib.Callers

/-!
# Compare-and-swap of remote words

`CompareAndSwap` and `AtomicSwap` post a request to compare and swap a word of some node, and poll
until it has completed. The word is compared and swapped at one moment, and what was found comes to
the place `prev_` that the call has allocated for itself. `AtomicSwap` posts its request again with
what it found, until it finds what it compares with.
-/

namespace Rome

variable {ι : Type*}

/-- A call of a thread. -/
inductive WordOp
  | compareAndSwap (ptr : RemotePtr) (expected swap : UInt64)
  | atomicSwap (ptr : RemotePtr) (swap hint : UInt64)
  deriving DecidableEq, Repr

/-- The fields `wr.atomic` of a request. -/
structure AtomicWr where
  remoteAddr : RemotePtr
  compareAdd : UInt64
  swap : UInt64
  deriving DecidableEq

def WordOp.wr : WordOp → AtomicWr
  | .compareAndSwap ptr expected swap => ⟨ptr, expected, swap⟩
  | .atomicSwap ptr swap hint => ⟨ptr, hint, swap⟩

/-- The memory once the request has been executed. -/
def AtomicWr.execute (wr : AtomicWr) (memory : RemotePtr → UInt64) : RemotePtr → UInt64 :=
  if memory wr.remoteAddr = wr.compareAdd then Function.update memory wr.remoteAddr wr.swap
  else memory

/-- The request that is posted after one that has found `prev`; without one the call returns. -/
def WordOp.next (op : WordOp) (wr : AtomicWr) (prev : UInt64) : Option AtomicWr :=
  match op with
  | .compareAndSwap _ _ _ => none
  | .atomicSwap _ _ _ => if prev = wr.compareAdd then none else some { wr with compareAdd := prev }

/-- A thread is in no call, or in the call `k`, whose request is posted or has found `prev`. -/
inductive WordPhase
  | idle
  | posted (k : ℕ) (op : WordOp) (wr : AtomicWr)
  | completed (k : ℕ) (op : WordOp) (wr : AtomicWr) (prev : UInt64)
  deriving DecidableEq

/-- The words, where each thread is, the history of the calls and their number. -/
structure WordState (ι : Type*) where
  memory : RemotePtr → UInt64
  phase : ι → WordPhase
  hist : List (Lin.Event ℕ WordOp UInt64)
  calls : ℕ

/-- A thread makes a call; its request is executed; it polls the completion. -/
inductive WordEvent (ι : Type*)
  | call (t : ι) (op : WordOp)
  | execute (t : ι)
  | poll (t : ι)

def WordEvent.isCall : WordEvent ι → Bool
  | .call _ _ => true
  | _ => false

def wordStep [DecidableEq ι] (s : WordState ι) : WordEvent ι → Option (WordState ι)
  | .call t op =>
    match s.phase t with
    | .idle => some { s with
        phase := Function.update s.phase t (.posted s.calls op op.wr)
        hist := s.hist ++ [.inv s.calls op]
        calls := s.calls + 1 }
    | _ => none
  | .execute t =>
    match s.phase t with
    | .posted k op wr => some { s with
        memory := wr.execute s.memory
        phase := Function.update s.phase t (.completed k op wr (s.memory wr.remoteAddr)) }
    | _ => none
  | .poll t =>
    match s.phase t with
    | .completed k op wr prev =>
      match op.next wr prev with
      | none => some { s with
          phase := Function.update s.phase t .idle
          hist := s.hist ++ [.res k prev] }
      | some wr => some { s with phase := Function.update s.phase t (.posted k op wr) }
    | _ => none

def wordInit (memory : RemotePtr → UInt64) : WordState ι where
  memory := memory
  phase _ := .idle
  hist := []
  calls := 0

/-- What the two calls are for: the word is compared and swapped, or swapped, at one moment. -/
def wordSpec (memory : RemotePtr → UInt64) : WordOp → (RemotePtr → UInt64) × UInt64
  | .compareAndSwap ptr expected swap =>
    (if memory ptr = expected then Function.update memory ptr swap else memory, memory ptr)
  | .atomicSwap ptr swap _ => (Function.update memory ptr swap, memory ptr)

end Rome

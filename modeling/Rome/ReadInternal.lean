import Rome.RemotePtr
import Rome.RdmaMemory
import Rome.MemoryPool

/-!
# The work requests of a read

`ReadInternal` reads a range of bytes in chunks, each with a work request of its own. The requests
are chained and posted at once; only the last one is signaled. Before it posts them the thread sets
its counter to the number of chunks, and then it counts completions until the counter is 0.
-/

namespace Rome

/-- What `ReadInternal` is called with, and the index and the keys that it looks up. -/
structure ReadCall where
  ptr : RemotePtr
  offset : UInt64
  bytes : UInt64
  chunkSize : UInt64
  prealloc : RemotePtr
  indexAsId : UInt64
  lkey : UInt32
  rkey : UInt32

/-- `ibv_send_wr` of a fenced read, with its one `ibv_sge`, whose length has 32 bits. The next
request is named by its place in the array. -/
structure SendWr where
  wrId : UInt64
  addr : UInt64
  length : UInt32
  lkey : UInt32
  signaled : Bool
  remoteAddr : UInt64
  rkey : UInt32
  next : Option ℕ
  deriving DecidableEq

namespace ReadCall

variable (c : ReadCall)

def numChunks : Int32 :=
  intOfUint64 (if c.bytes % c.chunkSize ≠ 0 then c.bytes / c.chunkSize + 1
    else c.bytes / c.chunkSize)

/-- The body of the loop, for `n` chunks. -/
def wr (n i : ℕ) : SendWr :=
  let remainder := c.bytes % c.chunkSize
  let isMultiple := remainder == 0
  let chunkOffset := c.offset + .ofNat i * c.chunkSize
  let length := if isMultiple then c.chunkSize else if i = n - 1 then remainder else c.chunkSize
  { wrId := c.indexAsId
    addr := c.prealloc.address + chunkOffset
    length := length.toUInt32
    lkey := c.lkey
    signaled := i == n - 1
    remoteAddr := c.ptr.address + chunkOffset
    rkey := c.rkey
    next := if i ≠ n - 1 then some (i + 1) else none }

end ReadCall

/-- The requests that `ReadInternal` posts and what it sets its counter to; `none` where it divides
by 0 or its arrays have no element. -/
def readInternal (c : ReadCall) : Option (List SendWr × ℤ) :=
  let n := c.numChunks.toInt
  if c.chunkSize = 0 ∨ n ≤ 0 then none
  else some ((List.range n.toNat).map (c.wr n.toNat), n)

/-- The requests that are chained from place `i` of the array on. -/
def chainFrom (wrs : List SendWr) : (fuel i : ℕ) → List SendWr
  | 0, _ => []
  | fuel + 1, i =>
    match wrs[i]? with
    | none => []
    | some w =>
      w :: match w.next with
        | none => []
        | some j => chainFrom wrs fuel j

/-- The requests that `ibv_post_send` finds. -/
def chain (wrs : List SendWr) : List SendWr := chainFrom wrs wrs.length 0

/-- A read that is posted: the counter of its thread, the requests that are not complete, the
completions that are not polled, and the requests that are complete. -/
structure ReadState where
  counter : ℤ
  wire : List SendWr
  sendCq : ℕ
  done : List SendWr

inductive ReadEvent
  | complete
  | poll

/-- The adapter completes the next request, or the wait loop goes round. -/
def readStep (s : ReadState) : ReadEvent → Option ReadState
  | .complete =>
    match s.wire with
    | [] => none
    | w :: ws =>
      some { s with
        wire := ws
        sendCq := if w.signaled then s.sendCq + 1 else s.sendCq
        done := s.done ++ [w] }
  | .poll =>
    if s.counter = 0 then none
    else
      match s.sendCq with
      | 0 => some s
      | k + 1 =>
        if 1 ≤ s.counter then some { s with counter := s.counter - 1, sendCq := k } else none

/-- The read once `ibv_post_send` has returned. -/
def readPosted (wrs : List SendWr) (counter : ℤ) : ReadState := ⟨counter, chain wrs, 0, []⟩

/-- The number of bytes that have been read. -/
def ReadState.bytesRead (s : ReadState) : ℕ := (s.done.map fun w => w.length.toNat).sum

end Rome

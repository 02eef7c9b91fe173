import Rome.Messenger

/-!
# The operations of a memory pool

The threads of a node share the connections of its `MemoryPool`. A one-sided operation sets the
reordering counter of its thread, posts on a queue pair, and polls the completion queue, whosever
completions it is given, until the counter is 0. `SendMessage` posts on the same queue pairs and
takes a completion of its own. A step is an access to something shared; the adapter completes what
is posted on a queue pair in order.
-/

namespace Rome

/-- `THREAD_MAX`. -/
def threadMax : ℕ := 20

/-- The one-sided operations, with what their work requests depend on. -/
inductive PoolOp
  | write (writeBehavior : ℤ)
  | compareAndSwap
  | atomicSwap (compareAdd : UInt64)
  | read (sizeofT : ℕ)
  | extendedRead (sizeofT size : ℕ)
  deriving DecidableEq

/-- `num_chunks` of `ReadInternal`. -/
def numChunks (bytes chunkSize : ℕ) : ℕ :=
  if bytes % chunkSize ≠ 0 then bytes / chunkSize + 1 else bytes / chunkSize

/-- Which of the requests that `ReadInternal` posts are signaled. -/
def readFlags (bytes chunkSize : ℕ) : List Bool :=
  (List.range (numChunks bytes chunkSize)).map fun i => i == numChunks bytes chunkSize - 1

/-- Which of the requests that an operation posts are signaled. -/
def PoolOp.flags : PoolOp → List Bool
  | write writeBehavior => [writeBehavior == 0]
  | compareAndSwap => [true]
  | atomicSwap _ => [true]
  | read sizeofT => readFlags sizeofT sizeofT
  | extendedRead sizeofT size => readFlags (sizeofT * size) (sizeofT * size)

/-- What an operation sets its counter to, if it does. -/
def PoolOp.expects : PoolOp → Option ℕ
  | write writeBehavior => if writeBehavior = 0 then some 1 else none
  | compareAndSwap => some 1
  | atomicSwap _ => some 1
  | read sizeofT => some (numChunks sizeofT sizeofT)
  | extendedRead sizeofT size => some (numChunks (sizeofT * size) (sizeofT * size))

/-- `ReadInternal` divides by the bytes to read. -/
def PoolOp.valid : PoolOp → Bool
  | read sizeofT => 0 < sizeofT
  | extendedRead sizeofT size => 0 < sizeofT * size
  | _ => true

/-- A work request and its completion: the `wr_id`, and, on the side, whether it is of `SendMessage`
and the post it is of. -/
structure Wr where
  wrId : ℕ
  signaled : Bool
  send : Bool
  ticket : ℕ
  deriving DecidableEq

/-- A wait loop tests the counter, polls, or has polled and is to count the completion. -/
inductive WaitPhase
  | test
  | poll
  | credit (w : Wr)
  deriving DecidableEq

/-- Where a thread stands: what it does next. `i` is its `index_as_id`, `q` the connection. -/
inductive PoolCall
  | idle
  | aborted
  | start (i q : ℕ) (op : PoolOp)
  | post (i q : ℕ) (op : PoolOp)
  | wait (i q : ℕ) (op : PoolOp) (ticket : ℕ) (phase : WaitPhase)
  | sendPost (q wrId : ℕ)
  | sendWait (q ticket : ℕ)
  deriving DecidableEq

/-- A pool, its threads, and for each connection the `send_total_` of its messenger, the requests
posted and not complete, and the send completion queue. On the side, the number of posts and those
whose completion was polled. -/
structure Pool where
  idGen : ℕ
  threadIds : ℕ → Option ℕ
  reorderingCounters : ℕ → ℤ
  sendTotal : ℕ → ℕ
  calls : ℕ → PoolCall
  wire : ℕ → List Wr
  sendCq : ℕ → List Wr
  posts : ℕ
  polled : List ℕ

def Pool.goto (s : Pool) (t : ℕ) (c : PoolCall) : Pool :=
  { s with calls := Function.update s.calls t c }

/-- `ibv_post_send` of requests of the next post. -/
def Pool.postSend (s : Pool) (q : ℕ) (wrs : List Wr) : Pool :=
  { s with wire := Function.update s.wire q (s.wire q ++ wrs), posts := s.posts + 1 }

/-- `ibv_poll_cq` and `rdma_get_send_comp` take `w` and leave `ws`. -/
def Pool.pollCq (s : Pool) (q : ℕ) (w : Wr) (ws : List Wr) : Pool :=
  { s with sendCq := Function.update s.sendCq q ws, polled := s.polled ++ [w.ticket] }

def Pool.setCounter (s : Pool) (i : ℕ) (n : ℤ) : Pool :=
  { s with reorderingCounters := Function.update s.reorderingCounters i n }

/-- `RegisterThread`; `none` where it is fatal. -/
def registerThread (s : Pool) (t : ℕ) : Option Pool :=
  if s.threadIds t ≠ none then none
  else if threadMax ≤ s.idGen then none
  else
    some { s.setCounter s.idGen 0 with
      threadIds := Function.update s.threadIds t (some s.idGen)
      idGen := s.idGen + 1 }

/-- Where an operation goes when its counter is 0: `AtomicSwap` tries again unless it found in
`*prev_` what it compared with. -/
def PoolOp.next (i q : ℕ) (prev : UInt64) : PoolOp → PoolCall
  | atomicSwap compareAdd =>
    if prev = compareAdd then .idle else .start i q (atomicSwap prev)
  | _ => .idle

/-- The next step of a thread; `prev` is what an atomic operation has left in its buffer. -/
def callStep (s : Pool) (t : ℕ) (prev : UInt64) : Option Pool :=
  match s.calls t with
  | .idle | .aborted => none
  | .start i q op =>
    match op.expects with
    | some n => some ((s.setCounter i n).goto t (.post i q op))
    | none => some (s.goto t (.post i q op))
  | .post i q op =>
    some ((s.postSend q (op.flags.map fun f => ⟨i, f, false, s.posts⟩)).goto t
      (.wait i q op s.posts .test))
  | .wait i q op k .test =>
    if s.reorderingCounters i ≠ 0 then some (s.goto t (.wait i q op k .poll))
    else some (s.goto t (op.next i q prev))
  | .wait i q op k .poll =>
    match s.sendCq q with
    | [] => some (s.goto t (.wait i q op k .test))
    | w :: ws => some ((s.pollCq q w ws).goto t (.wait i q op k (.credit w)))
  | .wait i q op k (.credit w) =>
    if w.wrId < threadMax then
      let old := s.reorderingCounters w.wrId
      some ((s.setCounter w.wrId (old - 1)).goto t
        (if 1 ≤ old then .wait i q op k .test else .aborted))
    else none
  | .sendPost q wrId =>
    some ((s.postSend q [⟨wrId, true, true, s.posts⟩]).goto t (.sendWait q s.posts))
  | .sendWait q _ =>
    match s.sendCq q with
    | [] => some s
    | w :: ws => some ((s.pollCq q w ws).goto t .idle)

/-- A thread registers, begins an operation on a connection or a `SendMessage` of `len` bytes, or
goes on; the adapter completes a request. -/
inductive QueueEvent
  | register (t : ℕ)
  | call (t q : ℕ) (op : PoolOp)
  | send (t q len : ℕ)
  | step (t : ℕ) (prev : UInt64)
  | complete (q : ℕ)
  deriving DecidableEq

def poolStep (s : Pool) : QueueEvent → Option Pool
  | .register t => if s.calls t = .idle then registerThread s t else none
  | .call t q op =>
    match s.calls t, s.threadIds t with
    | .idle, some i => if op.valid then some (s.goto t (.start i q op)) else none
    | _, _ => none
  | .send t q len =>
    if s.calls t = .idle then
      if kRecvMaxBytes ≤ len then some s
      else
        some ({ s with
          sendTotal := Function.update s.sendTotal q ((s.sendTotal q + 1) % 2 ^ 32) }.goto
          t (.sendPost q (s.sendTotal q)))
    else none
  | .step t prev => callStep s t prev
  | .complete q =>
    match s.wire q with
    | [] => none
    | w :: ws =>
      some { s with
        wire := Function.update s.wire q ws
        sendCq := if w.signaled then Function.update s.sendCq q (s.sendCq q ++ [w]) else s.sendCq }

/-- A pool with no thread registered; what the counters hold is not determined. -/
def poolInit (counters : ℕ → ℤ) (sendTotal : ℕ → ℕ) : Pool where
  idGen := 0
  threadIds _ := none
  reorderingCounters := counters
  sendTotal := sendTotal
  calls _ := .idle
  wire _ := []
  sendCq _ := []
  posts := 0
  polled := []

/-! ## The requests of a thread -/

/-- A signaled request with index `i` is being posted. -/
def Pool.Posting (s : Pool) (i : ℕ) : Prop :=
  ∃ t q op, s.calls t = .post i q op ∧ op.expects ≠ none

/-- A signaled request with index `i` is posted and its completion not polled. -/
def Pool.Unpolled (s : Pool) (i : ℕ) : Prop :=
  ∃ q, ∃ w ∈ s.sendCq q ++ s.wire q, w.signaled = true ∧ w.send = false ∧ w.wrId = i

/-- A thread has polled a completion with index `i` and has not counted it. -/
def Pool.Uncredited (s : Pool) (i : ℕ) : Prop :=
  ∃ t j q op k w, s.calls t = .wait j q op k (.credit w) ∧ w.wrId = i

/-- The event is not of `SendMessage`. -/
def QueueEvent.oneSided : QueueEvent → Bool
  | send _ _ _ => false
  | _ => true

/-- The thread is between the post of a signaled one-sided request on `q` and its return. -/
def PoolCall.waitsOn (q : ℕ) : PoolCall → Bool
  | wait _ q' op _ _ => q' == q && op.expects.isSome
  | _ => false

/-- The thread is between the post of a `SendMessage` on `q` and its return. -/
def PoolCall.sendsOn (q : ℕ) : PoolCall → Bool
  | sendWait q' _ => q' == q
  | _ => false

/-- A signaled one-sided request is posted on a connection only while no `SendMessage` waits there,
and `SendMessage` posts only while nothing else waits there. -/
def Separate (s : Pool) : QueueEvent → Prop
  | .step t _ =>
    match s.calls t with
    | .post _ q op => op.expects.isSome → ∀ t', (s.calls t').sendsOn q = false
    | .sendPost q _ => ∀ t', (s.calls t').sendsOn q = false ∧ (s.calls t').waitsOn q = false
    | _ => True
  | _ => True

end Rome

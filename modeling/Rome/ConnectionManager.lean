import Rome.Status

/-!
# The connection manager

The calls on the `ConnectionManager` of a node, cut into steps at each access to the table of
established connections, each `Acquire` and `Release`, and each RDMA call that another party
answers. What an RDMA call answers comes with the event. Nodes are named by the `uint16_t` ids of
their `Peer`s and connections by numbers that their two ends share. A second machine joins the
managers of all nodes: the broker of a node, one thread, is handed the connect requests of the
others.
-/

namespace Rome

/-- `kUnlocked`. -/
def kUnlocked : ℤ := -1

def kMinBackoffUs : ℕ := 100

def kMaxBackoffUs : ℕ := 5000000

/-- The events a connecting call can get. -/
inductive RdmaCmEvent
  | addrResolved
  | established
  | rejected
  | other (str : String)
  deriving DecidableEq

/-- What the RDMA calls of a step answer: all succeed, with a new endpoint or an event where one is
asked for, or one of them fails. -/
inductive Outcome
  | ok
  | endpoint (c : ℕ)
  | event (e : RdmaCmEvent)
  | fails (func error : String)
  deriving DecidableEq

/-- What `RDMA_CM_CHECK_TOVAL` returns. -/
def rdmaError (func error : String) : Status :=
  (⟨.internalError, some ""⟩ : Status).shift [func, "(): ", error]

/-- What `Connect` returns when it gets no endpoint, or cannot connect it. -/
def endpointError (func error : String) : Status :=
  if func = "rdma_getaddrinfo" ∨ func = "rdma_create_ep" then
    (⟨.internalError, some (func ++ "(): ")⟩ : Status).shift [error]
  else rdmaError func error

@[simp]
theorem endpointError_t (func error : String) : (endpointError func error).t = .internalError := by
  unfold endpointError
  split_ifs <;> rfl

/-- Where a call stands: what it does next. -/
inductive Call
  | idle
  | returned (r : StatusVal ℕ)
  -- `Connect`
  | connectAcquire (peer : ℕ)
  | connectFind (peer : ℕ)
  | connectFoundRelease (c : ℕ)
  | connectFoundGet (c : ℕ)
  | connectEndpoint (peer : ℕ)
  | connectWait (peer c : ℕ)
  | connectRecheck (peer c : ℕ)
  | connectDupRelease (c : ℕ)
  | connectDupGet (c : ℕ)
  | connectEmplace (peer c : ℕ)
  | connectGet (peer c : ℕ)
  | connectRelease (peer c : ℕ)
  | connectErrorRelease (e : Status)
  -- `ConnectLoopback`
  | loopbackEmplace (c : ℕ)
  | loopbackRelease
  | loopbackGet
  -- `GetConnection`
  | getAcquire (peer : ℕ)
  | getFind (peer : ℕ)
  | getRelease (r : StatusVal ℕ)
  -- `OnConnectRequest`
  | requestAcquire (peer c : ℕ)
  | requestRefuse (peer c : ℕ)
  | requestFind (peer c : ℕ)
  | requestReject (peer c : ℕ)
  | requestRejectRelease
  | requestTrace
  | requestEmplace (peer c : ℕ)
  | requestAccept (peer c : ℕ)
  | requestRelease
  -- `OnDisconnect`
  | disconnectAcquire (peer c : ℕ)
  | disconnectFind (peer c : ℕ)
  | disconnectErase (peer : ℕ)
  | disconnectRelease
  deriving DecidableEq

/-- The step reads or modifies `established_`. -/
def Call.touches : Call → Bool
  | connectFind _ | connectFoundGet _ | connectRecheck _ _ | connectDupGet _ | connectEmplace _ _
  | connectGet _ _ | loopbackEmplace _ | loopbackGet | getFind _ | requestFind _ _ | requestTrace
  | requestEmplace _ _ | disconnectFind _ _ | disconnectErase _ => true
  | _ => false

/-- The step is a `Release`. -/
def Call.releases : Call → Bool
  | connectFoundRelease _ | connectDupRelease _ | connectRelease _ _ | connectErrorRelease _
  | loopbackRelease | getRelease _ | requestRejectRelease | requestRelease | disconnectRelease =>
    true
  | _ => false

/-- The call can be followed by another one of its thread. -/
def Call.over : Call → Bool
  | idle | returned _ => true
  | _ => false

/-- A connection manager and the calls of its threads; `holder` is, on the side, the thread whose
`Acquire` was the last to succeed, until a `Release`. -/
structure CmState where
  accepting : Bool
  mu : ℤ
  requested : List ℕ
  established : List (ℕ × ℕ)
  backoffUs : ℕ
  calls : ℕ → Call
  holder : Option ℕ

def CmState.goto (s : CmState) (t : ℕ) (c : Call) : CmState :=
  { s with calls := Function.update s.calls t c }

/-- One turn of the loop of `Acquire(id)` on node `my`: the call takes the lock, gives up because
the node itself has it, or goes on to spin. -/
def CmState.acquire (my : ℕ) (s : CmState) (t id : ℕ) (won lost : Call) : CmState :=
  if s.mu = kUnlocked then { s.goto t won with mu := id, holder := some t }
  else if s.mu = my then s.goto t lost
  else s

def CmState.release (s : CmState) (t : ℕ) (c : Call) : CmState :=
  { s.goto t c with mu := kUnlocked, holder := none }

/-- `emplace` of a map: an entry that exists stays. -/
def CmState.emplace (s : CmState) (peer c : ℕ) : CmState :=
  if (s.established.lookup peer).isSome then s
  else { s with established := (peer, c) :: s.established }

def CmState.erase (s : CmState) (peer : ℕ) : CmState :=
  { s with established := s.established.filter fun x => x.1 ≠ peer }

/-- The next backoff, a `uint32_t`. -/
def nextBackoff (my backoff : ℕ) : ℕ :=
  if 0 < backoff then min ((backoff + 100 * my) * 2 % 2 ^ 32) kMaxBackoffUs else kMinBackoffUs

/-- A step of `Connect` or `ConnectLoopback` of thread `t` on node `my`. -/
def connectStep (my : ℕ) (s : CmState) (t : ℕ) : Call → Outcome → Option CmState
  | .connectAcquire peer, .ok =>
    some (s.acquire my t my (.connectFind peer)
      (.returned ⟨⟨.unavailable, some "Lock acquisition failed"⟩, none⟩))
  | .connectFind peer, .ok =>
    match s.established.lookup peer with
    | some c => some (s.goto t (.connectFoundRelease c))
    | none => some (s.goto t (.connectEndpoint peer))
  | .connectFoundRelease c, .ok => some (s.release t (.connectFoundGet c))
  | .connectFoundGet c, .ok => some (s.goto t (.returned ⟨.ok, some c⟩))
  | .connectEndpoint peer, .endpoint c =>
    some (s.goto t (if peer = my then .loopbackEmplace c else .connectWait peer c))
  | .connectEndpoint _, .fails func error =>
    some (s.goto t (if func = "rdma_create_ep" then .connectErrorRelease (endpointError func error)
      else .returned ⟨endpointError func error, none⟩))
  | .connectWait peer c, .event .established => some (s.goto t (.connectRecheck peer c))
  | .connectWait _ _, .event .addrResolved => some s
  | .connectWait _ _, .event .rejected =>
    some { s.goto t (.connectErrorRelease ⟨.unavailable, some "Connection request rejected"⟩) with
      backoffUs := nextBackoff my s.backoffUs }
  | .connectWait _ _, .event (.other str) =>
    some { s.goto t (.connectErrorRelease
        ((⟨.internalError, some "Got unexpected event: "⟩ : Status).shift [str])) with
      backoffUs := nextBackoff my s.backoffUs }
  | .connectWait _ _, .fails func error => some (s.goto t (.returned ⟨rdmaError func error, none⟩))
  | .connectRecheck peer c, .ok =>
    match s.established.lookup peer with
    | some c' => some (s.goto t (.connectDupRelease c'))
    | none => some (s.goto t (.connectEmplace peer c))
  | .connectDupRelease c, .ok => some (s.release t (.connectDupGet c))
  | .connectDupGet c, .ok => some (s.goto t (.returned ⟨.ok, some c⟩))
  | .connectDupGet _, .fails func error => some (s.goto t (.returned ⟨rdmaError func error, none⟩))
  | .connectEmplace peer c, .ok => some ((s.emplace peer c).goto t (.connectGet peer c))
  | .connectEmplace _ _, .fails func error =>
    some (s.goto t (.returned ⟨rdmaError func error, none⟩))
  | .connectGet peer _, .ok =>
    (s.established.lookup peer).map fun c => s.goto t (.connectRelease peer c)
  | .connectRelease _ c, .ok => some (s.release t (.returned ⟨.ok, some c⟩))
  | .connectErrorRelease e, .ok => some (s.release t (.returned ⟨e, none⟩))
  | .loopbackEmplace c, .ok => some ((s.emplace my c).goto t .loopbackRelease)
  -- the first two `ibv_modify_qp` report `func` with its parentheses
  | .loopbackEmplace _, .fails func error =>
    some (s.goto t (.returned ⟨rdmaError func error, none⟩))
  | .loopbackRelease, .ok => some (s.release t .loopbackGet)
  | .loopbackGet, .ok => some (s.goto t (.returned ⟨.ok, s.established.lookup my⟩))
  | _, _ => none

/-- A step of `GetConnection`. -/
def getStep (my : ℕ) (s : CmState) (t : ℕ) : Call → Option CmState
  | .getAcquire peer => some (s.acquire my t my (.getFind peer) (.getAcquire peer))
  | .getFind peer =>
    match s.established.lookup peer with
    | some c => some (s.goto t (.getRelease ⟨.ok, some c⟩))
    | none =>
      some (s.goto t (.getRelease
        ⟨(⟨.notFound, some "Connection not found: "⟩ : Status).shift [toString peer], none⟩))
  | .getRelease r => some (s.release t (.returned r))
  | _ => none

/-- A step of `OnConnectRequest`. -/
def requestStep (my : ℕ) (s : CmState) (t : ℕ) : Call → Option CmState
  | .requestAcquire peer c =>
    some (s.acquire my t peer (.requestFind peer c) (.requestRefuse peer c))
  | .requestRefuse _ _ => some (s.goto t .idle)
  | .requestFind peer c =>
    if (s.established.lookup peer).isSome ∨ peer ∈ s.requested then
      some (s.goto t (.requestReject peer c))
    else some (s.goto t (.requestEmplace peer c))
  | .requestReject _ _ => some (s.goto t .requestRejectRelease)
  | .requestRejectRelease => some (s.release t .requestTrace)
  | .requestTrace => some (s.goto t .idle)
  | .requestEmplace peer c => some ((s.emplace peer c).goto t (.requestAccept peer c))
  | .requestAccept _ _ => some (s.goto t .requestRelease)
  | .requestRelease => some (s.release t .idle)
  | _ => none

/-- A step of `OnDisconnect`: what its `Acquire` returns is not looked at. -/
def disconnectStep (my : ℕ) (s : CmState) (t : ℕ) : Call → Option CmState
  | .disconnectAcquire peer c =>
    some (s.acquire my t peer (.disconnectFind peer c) (.disconnectFind peer c))
  | .disconnectFind peer c =>
    some (s.goto t (if s.established.lookup peer = some c then .disconnectErase peer
      else .disconnectRelease))
  | .disconnectErase peer => some ((s.erase peer).goto t .disconnectRelease)
  | .disconnectRelease => some (s.release t .idle)
  | _ => none

/-- A thread calls, or takes the next step of its call. -/
inductive CmEvent
  | connect (t peer : ℕ)
  | getConnection (t peer : ℕ)
  | onConnectRequest (t peer c : ℕ)
  | onDisconnect (t peer c : ℕ)
  | step (t : ℕ) (o : Outcome)
  deriving DecidableEq

/-- A step on node `my`. A connect request is from another node: the connection of a node to itself
is made by hand. -/
def cmStep (my : ℕ) (s : CmState) : CmEvent → Option CmState
  | .connect t peer => if (s.calls t).over then some (s.goto t (.connectAcquire peer)) else none
  | .getConnection t peer => if (s.calls t).over then some (s.goto t (.getAcquire peer)) else none
  | .onConnectRequest t peer c =>
    if (s.calls t).over ∧ peer ≠ my then
      some (s.goto t (if s.accepting then .requestAcquire peer c else .idle))
    else none
  | .onDisconnect t peer c =>
    if (s.calls t).over then some (s.goto t (.disconnectAcquire peer c)) else none
  | .step t o =>
    match connectStep my s t (s.calls t) o with
    | some s' => some s'
    | none =>
      if o ≠ .ok then none
      else (getStep my s t (s.calls t) <|> requestStep my s t (s.calls t) <|>
        disconnectStep my s t (s.calls t))

/-- A manager that has started. -/
def cmInit : CmState := ⟨true, kUnlocked, [], [], 0, fun _ => .idle, none⟩

/-! ## One call -/

/-- A call of `Connect` takes its next step, or other calls have changed the connections. -/
inductive ConnectEvent
  | step (o : Outcome)
  | change (established : List (ℕ × ℕ))
  deriving DecidableEq

def connectCallStep (my t : ℕ) (s : CmState) : ConnectEvent → Option CmState
  | .step o => connectStep my s t (s.calls t) o
  | .change established => some { s with established := established }

/-- What the other calls have made of the connections. -/
def changed : List (ℕ × ℕ) → List ConnectEvent → List (ℕ × ℕ)
  | established, [] => established
  | established, .step _ :: es => changed established es
  | _, .change established :: es => changed established es

/-! ## The managers of all nodes -/

inductive RequestStatus
  | sent
  | delivered
  | accepted
  | rejected
  deriving DecidableEq

/-- A connect request on its way, with its broker, or answered. -/
structure ConnectRequest where
  src : ℕ
  dst : ℕ
  status : RequestStatus
  deriving DecidableEq

/-- The nodes, named by their ids, and the connect requests, named by their connections. -/
structure Net where
  node : ℕ → CmState
  request : ℕ → Option ConnectRequest

/-- The thread of the broker of a node. -/
def brokerThread : ℕ := 0

/-- A thread of a node calls `Connect`, a connect request comes to the broker of its node, or a call
on a node takes its next step. -/
inductive NetEvent
  | connect (n t peer : ℕ)
  | deliver (c : ℕ)
  | step (n t : ℕ) (o : Outcome)
  deriving DecidableEq

def answerRequest (request : ℕ → Option ConnectRequest) (c : ℕ) (status : RequestStatus) :
    ℕ → Option ConnectRequest :=
  Function.update request c ((request c).map fun r => { r with status := status })

/-- What the RDMA calls of a step on node `n` make of the connect requests; `none` if they cannot
answer like this. No call fails, a new connection is a fresh one, and the event that a connecting
call gets is the answer to its request. -/
def netAnswer (request : ℕ → Option ConnectRequest) (n : ℕ) :
    Call → Outcome → Option (ℕ → Option ConnectRequest)
  | .connectEndpoint peer, .endpoint c =>
    if request c = none then some (Function.update request c (some ⟨n, peer, .sent⟩)) else none
  | .connectWait _ c, .event .established =>
    if (request c).map ConnectRequest.status = some .accepted then some request else none
  | .connectWait _ c, .event .rejected =>
    if (request c).map ConnectRequest.status = some .rejected then some request else none
  | .requestRefuse _ c, .ok => some (answerRequest request c .rejected)
  | .requestReject _ c, .ok => some (answerRequest request c .rejected)
  | .requestAccept _ c, .ok => some (answerRequest request c .accepted)
  | _, .ok => some request
  | _, _ => none

def netStep (s : Net) : NetEvent → Option Net
  | .connect n t peer =>
    if t ≠ brokerThread ∧ peer ≠ n then
      (cmStep n (s.node n) (.connect t peer)).map fun m =>
        { s with node := Function.update s.node n m }
    else none
  | .deliver c =>
    match s.request c with
    | some ⟨src, dst, .sent⟩ =>
      (cmStep dst (s.node dst) (.onConnectRequest brokerThread src c)).map fun m =>
        ⟨Function.update s.node dst m, answerRequest s.request c .delivered⟩
    | _ => none
  | .step n t o =>
    (netAnswer s.request n ((s.node n).calls t) o).bind fun request =>
      (cmStep n (s.node n) (.step t o)).map fun m => ⟨Function.update s.node n m, request⟩

def netInit : Net := ⟨fun _ => cmInit, fun _ => none⟩

end Rome

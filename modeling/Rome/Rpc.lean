import Mathlib

/-!
# The two-sided table

`TwoSidedIHT` partitions the keys among the nodes, each with a table of its own. A call on a key of
another node sends a request to it and waits for the response; the server threads of a node take the
requests of the others and answer them. Requests and responses go over connections of their own, and
each direction of a connection is a queue. The operations of a node's table are single steps.
-/

namespace Rome

/-- The opcodes; `unset` is that of a message whose `op_type` was not set. -/
inductive Opcode
  | unset
  | getReq
  | insReq
  | rmvReq
  | getRes
  | insRes
  | rmvRes
  | err
  deriving DecidableEq

/-- `IHTOPProto`. -/
structure IhtOpProto where
  opType : Opcode
  key : ℤ
  value : ℤ
  deriving DecidableEq

/-- The calls on a `TwoSidedIHT`. -/
inductive RpcOp
  | get (key : ℤ)
  | insert (key val : ℤ)
  | remove (key : ℤ)
  deriving DecidableEq

def RpcOp.key : RpcOp → ℤ
  | get key => key
  | insert key _ => key
  | remove key => key

/-- The table of a node. `get` and `remove` return false, or true with a value. -/
structure IntMap (σ : Type*) where
  get : ℤ → σ → Option ℤ × σ
  insert : ℤ → ℤ → σ → Option ℤ × σ
  remove : ℤ → σ → Option ℤ × σ

/-- What the nodes have in common, and the number of server threads of each. -/
structure RpcParams where
  count : ℕ
  keyspaceLb : ℤ
  keyspaceLen : ℤ
  serverThreads : ℕ

/-- `to_id`; `none` where the assertion fails or the `int` arithmetic is undefined. -/
def toId (p : RpcParams) (key : ℤ) : Option ℕ :=
  if p.keyspaceLb ≤ key ∧ key - p.keyspaceLb ≤ p.keyspaceLen then
    if p.keyspaceLen = 0 ∨ 2 ^ 31 ≤ p.count * (key - p.keyspaceLb) then none
    else
      let id := (p.count * (key - p.keyspaceLb)).tdiv p.keyspaceLen
      if id = p.count then some (p.count - 1) else some id.toNat
  else none

section
variable {σ : Type*} (m : IntMap σ)

/-- A call on the node's own table: what it returns, and the table after it. -/
def RpcOp.direct : RpcOp → σ → Option ℤ × σ
  | get key, d => m.get key d
  | insert key val, d => m.insert key val d
  | remove key, d => m.remove key d

/-- The message a call sends. -/
def RpcOp.request : RpcOp → IhtOpProto
  | get key => ⟨.getReq, key, 0⟩
  | insert key val => ⟨.insReq, key, val⟩
  | remove key => ⟨.rmvReq, key, 0⟩

/-- What a call returns on a response; `none` if its assertion fails. -/
def RpcOp.result : RpcOp → IhtOpProto → Option (Option ℤ)
  | get _, result =>
    if result.opType = .err then some none
    else if result.opType = .getRes then some (some result.value)
    else none
  | insert _ _, result =>
    if result.opType = .err then some (some result.value)
    else if result.opType = .insRes then some none
    else none
  | remove _, result =>
    if result.opType = .err then some none
    else if result.opType = .rmvRes then some (some result.value)
    else none

/-- What a server thread does with a request; `answer` is what the variable of this name holds
before it is set. -/
def serveRequest (request : IhtOpProto) (answer : ℤ) (d : σ) : IhtOpProto × σ :=
  match request.opType with
  | .getReq =>
    let r := m.get request.key d
    (⟨if r.1.isSome then .getRes else .err, request.key, r.1.getD answer⟩, r.2)
  | .insReq =>
    let old := m.insert request.key request.value d
    (⟨if old.1.isNone then .insRes else .err, request.key, old.1.getD request.value⟩, old.2)
  | .rmvReq =>
    let r := m.remove request.key d
    (⟨if r.1.isSome then .rmvRes else .err, request.key, r.1.getD answer⟩, r.2)
  | _ => (⟨.unset, request.key, request.value⟩, d)

/-- The operation a server thread does for a request. -/
def servedOp (request : IhtOpProto) : Option RpcOp :=
  match request.opType with
  | .getReq => some (.get request.key)
  | .insReq => some (.insert request.key request.value)
  | .rmvReq => some (.remove request.key)
  | _ => none

/-- A message, and, on the side, the call it is for. -/
structure RpcMsg where
  proto : IhtOpProto
  call : ℕ
  deriving DecidableEq

/-- Where a client thread stands: what it does next. `c` is, on the side, the number of its call,
and `target` the node it is to. -/
inductive ClientCall
  | idle
  | aborted
  | direct (c : ℕ) (op : RpcOp)
  | lock (c : ℕ) (op : RpcOp) (target : ℕ)
  | send (c : ℕ) (op : RpcOp) (target : ℕ)
  | deliver (c : ℕ) (op : RpcOp) (target : ℕ)
  | unlock (c : ℕ) (op : RpcOp) (target : ℕ) (result : RpcMsg)
  | check (c : ℕ) (op : RpcOp) (target : ℕ) (result : RpcMsg)
  deriving DecidableEq

/-- The call a thread is in. -/
def ClientCall.call : ClientCall → Option ℕ
  | idle | aborted => none
  | direct c _ | lock c _ _ | send c _ _ | deliver c _ _ | unlock c _ _ _ | check c _ _ _ => some c

/-- Where a server thread stands in its loop over the other nodes. -/
inductive ServerLoop
  | lock (id : ℕ)
  | receive (id : ℕ)
  | unlockNone (id : ℕ)
  | serve (id : ℕ) (request : RpcMsg)
  | send (id : ℕ) (response : RpcMsg)
  | unlock (id : ℕ)
  deriving DecidableEq

/-- An operation done on the table of a node, for a call. -/
structure Exec where
  call : ℕ
  node : ℕ
  op : RpcOp
  deriving DecidableEq

/-- The nodes: their tables, their lock tables (the holder of each lock), their threads, and what is
on its way from one node to another. On the side, the calls issued, with the node they are from, the
operations done, in order, and what calls returned. -/
structure Rpc (σ : Type*) where
  internalData : ℕ → σ
  lockTableClient : ℕ × ℕ → Option ℕ
  lockTableServer : ℕ × ℕ → Option ℕ
  clients : ℕ × ℕ → ClientCall
  servers : ℕ × ℕ → ServerLoop
  requests : ℕ × ℕ → List RpcMsg
  responses : ℕ × ℕ → List RpcMsg
  issued : List (ℕ × RpcOp)
  log : List Exec
  returns : List (ℕ × Option ℤ)

namespace Rpc

def clientAt (s : Rpc σ) (a t : ℕ) (x : ClientCall) : Rpc σ :=
  { s with clients := Function.update s.clients (a, t) x }

def serverAt (s : Rpc σ) (b j : ℕ) (x : ServerLoop) : Rpc σ :=
  { s with servers := Function.update s.servers (b, j) x }

def returned (s : Rpc σ) (a t c : ℕ) (v : Option ℤ) : Rpc σ :=
  { s.clientAt a t .idle with returns := s.returns ++ [(c, v)] }

/-- The table of `b` becomes `d`, by `op`. -/
def executed (s : Rpc σ) (b : ℕ) (d : σ) (c : ℕ) (op : Option RpcOp) : Rpc σ :=
  { s with
    internalData := Function.update s.internalData b d
    log := s.log ++ (op.map (Exec.mk c b)).toList }

end Rpc

/-- The next step of thread `t` of node `a` in its call; `none` where it is blocked. -/
def clientStep (s : Rpc σ) (a t : ℕ) : Option (Rpc σ) :=
  match s.clients (a, t) with
  | .idle | .aborted => none
  | .direct c op =>
    let r := op.direct m (s.internalData a)
    some ((s.executed a r.2 c (some op)).returned a t c r.1)
  | .lock c op b =>
    match s.lockTableClient (a, b) with
    | none =>
      some ({ s with
        lockTableClient := Function.update s.lockTableClient (a, b) (some t) }.clientAt a t
          (.send c op b))
    | some _ => none
  | .send c op b =>
    some ({ s with
      requests := Function.update s.requests (a, b)
        (s.requests (a, b) ++ [RpcMsg.mk op.request c]) }.clientAt a t (.deliver c op b))
  | .deliver c op b =>
    match s.responses (b, a) with
    | [] => some s
    | r :: rs =>
      some ({ s with responses := Function.update s.responses (b, a) rs }.clientAt a t
        (.unlock c op b r))
  | .unlock c op b r =>
    some ({ s with lockTableClient := Function.update s.lockTableClient (a, b) none }.clientAt a t
      (.check c op b r))
  | .check c op _ r =>
    match op.result r.proto with
    | some v => some (s.returned a t c v)
    | none => some (s.clientAt a t .aborted)

/-- The next step of server thread `j` of node `b`; `none` where it is blocked. A thread that sees
`stop_listening` set takes no more steps. -/
def serverStep (p : RpcParams) (s : Rpc σ) (b j : ℕ) (answer : ℤ) : Option (Rpc σ) :=
  match s.servers (b, j) with
  | .lock id =>
    if p.count ≤ id then some (s.serverAt b j (.lock 0))
    else if id = b then some (s.serverAt b j (.lock (id + 1)))
    else
      match s.lockTableServer (b, id) with
      | none =>
        some ({ s with
          lockTableServer := Function.update s.lockTableServer (b, id) (some j) }.serverAt b j
            (.receive id))
      | some _ => none
  | .receive id =>
    match s.requests (id, b) with
    | [] => some (s.serverAt b j (.unlockNone id))
    | r :: rs =>
      some ({ s with requests := Function.update s.requests (id, b) rs }.serverAt b j (.serve id r))
  | .unlockNone id =>
    some ({ s with lockTableServer := Function.update s.lockTableServer (b, id) none }.serverAt b j
      (.lock (id + 1)))
  | .serve id r =>
    let x := serveRequest m r.proto answer (s.internalData b)
    some ((s.executed b x.2 r.call (servedOp r.proto)).serverAt b j (.send id ⟨x.1, r.call⟩))
  | .send id r =>
    some ({ s with
      responses := Function.update s.responses (b, id) (s.responses (b, id) ++ [r]) }.serverAt b j
        (.unlock id))
  | .unlock id =>
    some ({ s with lockTableServer := Function.update s.lockTableServer (b, id) none }.serverAt b j
      (.lock (id + 1)))

/-- Thread `t` of node `a` makes a call, or goes on; a server thread goes on. -/
inductive RpcEvent
  | call (a t : ℕ) (op : RpcOp)
  | client (a t : ℕ)
  | server (b j : ℕ) (answer : ℤ)
  deriving DecidableEq

def rpcStep (p : RpcParams) (s : Rpc σ) : RpcEvent → Option (Rpc σ)
  | .call a t op =>
    if a < p.count ∧ s.clients (a, t) = .idle then
      (toId p op.key).map fun target =>
        { s with issued := s.issued ++ [(a, op)] }.clientAt a t
          (if target = a then .direct s.issued.length op else .lock s.issued.length op target)
    else none
  | .client a t => clientStep m s a t
  | .server b j answer =>
    if b < p.count ∧ j < p.serverThreads then serverStep m p s b j answer else none

/-- The nodes just made, with any tables. -/
def rpcInit (data : ℕ → σ) : Rpc σ where
  internalData := data
  lockTableClient _ := none
  lockTableServer _ := none
  clients _ := .idle
  servers _ := .lock 0
  requests _ := []
  responses _ := []
  issued := []
  log := []
  returns := []

/-- The tables after a list of operations. -/
def replay (data : ℕ → σ) (log : List Exec) : ℕ → σ :=
  log.foldl (fun d e => Function.update d e.node (e.op.direct m (d e.node)).2) data

/-- Call `c` was executed on node `b` as `op`, where calling `op` directly at that moment returned
`v`. -/
def Computed (data : ℕ → σ) (log : List Exec) (c b : ℕ) (op : RpcOp) (v : Option ℤ) : Prop :=
  ∃ l₁ l₂, log = l₁ ++ ⟨c, b, op⟩ :: l₂ ∧ (op.direct m (replay m data l₁ b)).1 = v

end

end Rome

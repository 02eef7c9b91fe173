import Rome.Status

/-!
# The all-to-all start of a node

`MemoryPool::Init` and `init_cm` connect to each peer, send a message to each, and then deliver the
message of each: the pool's says where its memory is and with which key it can be reached, that of
`init_cm` is empty. A node is named by its id, and the connection to a peer by the peer. Connections
keep the order of what is sent on them; what nodes send once they are through comes behind.
-/

namespace Rome

variable {ι M T X : Type*}

/-- Where a node is, with the peers that its loop has still to go through. -/
inductive InitPhase (ι : Type*)
  | start
  | connecting (rest : List ι)
  | sending (rest : List ι)
  | delivering (rest : List ι)
  | returned (st : Status)
  | died
  deriving DecidableEq

/-- What the two functions differ in: the peers of each node, the message it sends, and what it puts
in its table when it has delivered the message of a peer. -/
structure Bootstrap (ι M T : Type*) where
  peers : ι → List ι
  message : ι → M
  empty : T
  store : ι → T → ι → M → T

/-- The nodes, with their tables; the connections, from each node to each; on the side, the peers
that each node has sent its message to. -/
structure BootstrapState (ι M T X : Type*) where
  phase : ι → InitPhase ι
  table : ι → T
  channel : ι → ι → List (M ⊕ X)
  sent : ι → List ι

/-- What the manager's `Start`, and for the next peer `Connect`, `Send` and `Deliver` return, where
a `Send` that fails may still arrive; a loop is left; `STATUSVAL_OR_DIE` finds no connection. Then
the node sends other messages on a connection, and takes those that come. -/
inductive BootstrapEvent (ι X : Type*)
  | start (a : ι) (st : Status)
  | connect (a : ι) (st : Status)
  | send (a : ι) (st : Status) (arrives : Bool)
  | deliver (a : ι) (st : Status)
  | next (a : ι)
  | die (a : ι)
  | post (a p : ι) (x : X)
  | take (a p : ι)

namespace BootstrapState

variable [DecidableEq ι]

def goto (s : BootstrapState ι M T X) (a : ι) (ph : InitPhase ι) : BootstrapState ι M T X :=
  { s with phase := Function.update s.phase a ph }

def setChannel (s : BootstrapState ι M T X) (a p : ι) (q : List (M ⊕ X)) :
    BootstrapState ι M T X :=
  { s with channel := Function.update s.channel a (Function.update (s.channel a) p q) }

/-- The message of `a` to `p` is on its way. -/
def say (B : Bootstrap ι M T) (s : BootstrapState ι M T X) (a p : ι) : BootstrapState ι M T X :=
  { s.setChannel a p (s.channel a p ++ [.inl (B.message a)]) with
    sent := Function.update s.sent a (s.sent a ++ [p]) }

/-- `a` puts the message of `p` in its table. -/
def hear (B : Bootstrap ι M T) (s : BootstrapState ι M T X) (a p : ι) (m : M) :
    BootstrapState ι M T X :=
  { s with table := Function.update s.table a (B.store a (s.table a) p m) }

end BootstrapState

/-- One step of a node. `Connect` is called again while it returns `Unavailable`. -/
def bootstrapStep [DecidableEq ι] (B : Bootstrap ι M T) (s : BootstrapState ι M T X) :
    BootstrapEvent ι X → Option (BootstrapState ι M T X)
  | .start a st =>
    match s.phase a with
    | .start => some (s.goto a (if st.t = .ok then .connecting (B.peers a) else .returned st))
    | _ => none
  | .connect a st =>
    match s.phase a with
    | .connecting (p :: rest) => some (s.goto a
        (if st.t = .unavailable then .connecting (p :: rest)
        else if st.t = .ok then .connecting rest
        else .returned st))
    | _ => none
  | .send a st arrives =>
    match s.phase a with
    | .sending (p :: rest) =>
      if st.t = .ok then some ((s.say B a p).goto a (.sending rest))
      else some ((if arrives then s.say B a p else s).goto a (.returned st))
    | _ => none
  | .deliver a st =>
    match s.phase a with
    | .delivering (p :: rest) =>
      if st.t = .ok then
        match s.channel p a with
        | .inl m :: q => some (((s.setChannel p a q).hear B a p m).goto a (.delivering rest))
        | _ => none
      else some (s.goto a (.returned st))
    | _ => none
  | .next a =>
    match s.phase a with
    | .connecting [] => some (s.goto a (.sending (B.peers a)))
    | .sending [] => some (s.goto a (.delivering (B.peers a)))
    | .delivering [] => some (s.goto a (.returned .ok))
    | _ => none
  | .die a =>
    match s.phase a with
    | .sending (_ :: _) | .delivering (_ :: _) => some (s.goto a .died)
    | _ => none
  | .post a p x =>
    match s.phase a with
    | .returned st =>
      if st.t = .ok ∧ p ∈ B.peers a then some (s.setChannel a p (s.channel a p ++ [.inr x]))
      else none
    | _ => none
  | .take a p =>
    match s.phase a with
    | .returned st =>
      if st.t = .ok ∧ p ∈ B.peers a then
        match s.channel p a with
        | _ :: q => some (s.setChannel p a q)
        | [] => none
      else none
    | _ => none

def bootstrapInit (X : Type*) (B : Bootstrap ι M T) : BootstrapState ι M T X where
  phase _ := .start
  table _ := B.empty
  channel _ _ := []
  sent _ := []

/-! ## `MemoryPool::Init` -/

/-- What is read of an `ibv_mr`. -/
structure MemoryRegion where
  addr : UInt64
  lkey : UInt32
  rkey : UInt32
  deriving DecidableEq

/-- The fields of a `RemoteObjectProto` that are set. -/
structure RemoteObjectProto where
  rkey : UInt32
  raddr : UInt64
  deriving DecidableEq

/-- `conn_info_t`. -/
structure ConnInfo (ι : Type*) where
  conn : ι
  rkey : UInt32
  lkey : UInt32
  deriving DecidableEq

/-- `emplace` of an `unordered_map`, which keeps an entry that is there. -/
def emplace {β : Type*} [DecidableEq ι] (t : List (ι × β)) (p : ι) (x : β) : List (ι × β) :=
  if (t.lookup p).isSome then t else t ++ [(p, x)]

/-- `MemoryPool::Init` of nodes that have registered the regions `mr_`. -/
def memoryPoolInit [DecidableEq ι] (peers : ι → List ι) (mr : ι → MemoryRegion) :
    Bootstrap ι RemoteObjectProto (List (ι × ConnInfo ι)) where
  peers := peers
  message a := ⟨(mr a).rkey, (mr a).addr⟩
  empty := []
  store a connInfo p got := emplace connInfo p ⟨p, got.rkey, (mr a).lkey⟩

/-! ## `init_cm` -/

/-- `operator[]` of an `unordered_map` and an assignment. -/
def assign {β : Type*} [DecidableEq ι] (t : List (ι × β)) (p : ι) (x : β) : List (ι × β) :=
  if (t.lookup p).isSome then t.map fun y => if y.1 = p then (p, x) else y else t ++ [(p, x)]

/-- `init_cm`; an `AckProto` has no fields. -/
def initCm [DecidableEq ι] (peers : ι → List ι) : Bootstrap ι Unit (List (ι × ι)) where
  peers := peers
  message _ := ()
  empty := []
  store _ connections p _ := assign connections p p

end Rome

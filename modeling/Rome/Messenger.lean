import Rome.Status

/-!
# Two-sided messages

A `TwoSidedRdmaMessenger` copies what it sends into the first half of its memory, one message behind
the other, and receives into slots of `kRecvMaxBytes` in the second half, all of which it posts
again once each is used. A connection takes each message to the next posted slot of the other end,
when there is one, and reports it in the other's completion queue, in order.
-/

namespace Rome

/-- `kCapacity` of `TwoSidedRdmaMessenger`. -/
def kCapacity : ℕ := 2 ^ 12

def kRecvMaxBytes : ℕ := 2 ^ 8

def sendBase : ℕ := 0

def sendCap : ℕ := kCapacity / 2

def recvBase : ℕ := sendCap

def recvCap : ℕ := kCapacity / 2

def readBytes (mem : ℕ → UInt8) (addr len : ℕ) : List UInt8 :=
  (List.range len).map fun i => mem (addr + i)

/-- `memcpy`. -/
def writeBytes (mem : ℕ → UInt8) (addr : ℕ) (bs : List UInt8) : ℕ → UInt8 :=
  fun a => if addr ≤ a ∧ a < addr + bs.length then bs.getD (a - addr) 0 else mem a

/-- `TwoSidedRdmaMessenger`; the counters are `uint32_t`. -/
structure Messenger where
  mem : ℕ → UInt8
  sendNext : ℕ
  sendTotal : ℕ
  recvNext : ℕ
  recvTotal : ℕ

/-- `ibv_wc_status`; `str` is what `ibv_wc_status_str` says of it. -/
inductive WcStatus
  | success
  | wrFlushErr
  | other (str : String)
  deriving DecidableEq

/-- The parts of a completion that are looked at. -/
structure Wc where
  status : WcStatus
  byteLen : ℕ
  deriving DecidableEq

/-! ## Sending -/

/-- `SendMessage` up to the post: where the message lies in the send buffer. -/
def sendPost (m : Messenger) (msg : List UInt8) : Except Status (Messenger × ℕ) :=
  if kRecvMaxBytes ≤ msg.length then
    .error ((⟨.resourceExhausted, some ""⟩ : Status).shift ["Message too large: expected<=",
      toString kRecvMaxBytes, ", actual=", toString msg.length])
  else
    let sendNext := if sendBase + sendCap < m.sendNext + msg.length then sendBase else m.sendNext
    .ok ({ m with
      mem := writeBytes m.mem sendNext msg
      sendNext := sendNext
      sendTotal := (m.sendTotal + 1) % 2 ^ 32 }, sendNext)

/-- `SendMessage` of `len` bytes from its completion on. -/
def sendComplete (m : Messenger) (len : ℕ) : Messenger := { m with sendNext := m.sendNext + len }

/-! ## Receiving -/

/-- `PrepareRecvBuffer`, and the slots it posts; `none` if the assertion fails. -/
def prepareRecvBuffer (m : Messenger) : Option (Messenger × List ℕ) :=
  if m.recvTotal % (recvCap / kRecvMaxBytes) = 0 then
    some ({ m with recvNext := recvBase },
      List.range' recvBase (recvCap / kRecvMaxBytes) kRecvMaxBytes)
  else none

/-- What `TryDeliverMessage` and `TryPollMessage` make of the completion record: what they return,
and the slots they post. -/
def deliverWc (m : Messenger) (wc : Wc) : Option (StatusVal (List UInt8) × Messenger × List ℕ) :=
  match wc.status with
  | .wrFlushErr => some (⟨⟨.aborted, some "QP in error state"⟩, none⟩, m, [])
  | .success =>
    let msg := readBytes m.mem m.recvNext wc.byteLen
    let m := { m with
      recvTotal := (m.recvTotal + 1) % 2 ^ 32
      recvNext := m.recvNext + kRecvMaxBytes }
    if recvBase + (recvCap - kRecvMaxBytes) < m.recvNext then
      (prepareRecvBuffer m).map fun x => (⟨.ok, some msg⟩, x.1, x.2)
    else some (⟨.ok, some msg⟩, m, [])
  | .other str =>
    some (⟨(⟨.internalError, none⟩ : Status).shift ["rdma_get_recv_comp(): ", str], none⟩, m, [])

/-- What both return where the call for a completion fails, with `EAGAIN` or another error. -/
def recvFails (again : Bool) (error : String) : StatusVal (List UInt8) :=
  if again then ⟨⟨.unavailable, some "Retry"⟩, none⟩
  else ⟨(⟨.internalError, none⟩ : Status).shift ["rdma_get_recv_comp: ", error], none⟩

/-- The results of `rdma_get_recv_comp`. -/
inductive RecvComp
  | fails (again : Bool) (error : String)
  | one (wc : Wc)

def tryDeliverMessage (m : Messenger) :
    RecvComp → Option (StatusVal (List UInt8) × Messenger × List ℕ)
  | .fails again error => some (recvFails again error, m, [])
  | .one wc => deliverWc m wc

/-- The results of `ibv_poll_cq`: negative, 0, or 1 with a completion. -/
inductive CqPoll
  | fails (again : Bool) (error : String)
  | empty
  | one (wc : Wc)
  deriving DecidableEq

/-- `TryPollMessage`; `stale` is what its `wc` holds before it is written. -/
def tryPollMessage (m : Messenger) (stale : Wc) :
    CqPoll → Option (StatusVal (List UInt8) × Messenger × List ℕ)
  | .fails again error => some (recvFails again error, m, [])
  | .empty => deliverWc m stale
  | .one wc => deliverWc m wc

/-! ## A connection -/

/-- A call of `SendMessage` has posted its message, or this has been taken to the other end. -/
inductive Sending
  | idle
  | posted (addr len : ℕ)
  | acked (len : ℕ)

/-- One direction of a connection: the two ends, the slots posted at the receiving one and its
completions; on the side, the messages sent and returned and the ranges that sends have posted. -/
structure Channel where
  sender : Messenger
  receiver : Messenger
  sending : Sending
  posted : List ℕ
  comps : List Wc
  sent : List (List UInt8)
  got : List (List UInt8)
  ranges : List (ℕ × ℕ)

/-- `SendMessage` posts; the message is taken to the other end; `SendMessage` returns;
`TryDeliverMessage`; `TryReceive`, with what the record of its `TryPollMessage` holds. -/
inductive ChannelEvent
  | send (msg : List UInt8)
  | transmit
  | complete
  | deliver
  | receive (stale : Wc)

/-- The receiving end after a call that took the completions but for `comps`. -/
def Channel.received (s : Channel) (comps : List Wc)
    (r : StatusVal (List UInt8) × Messenger × List ℕ) : Channel :=
  { s with
    receiver := r.2.1
    posted := s.posted ++ r.2.2
    comps := comps
    got := if r.1.status.t = .ok then s.got ++ r.1.val.toList else s.got }

def channelStep (s : Channel) : ChannelEvent → Option Channel
  | .send msg =>
    match s.sending, sendPost s.sender msg with
    | .idle, .ok (m, addr) =>
      some { s with
        sender := m
        sending := .posted addr msg.length
        sent := s.sent ++ [msg]
        ranges := s.ranges ++ [(addr, msg.length)] }
    | .idle, .error _ => some s
    | _, _ => none
  | .transmit =>
    match s.sending, s.posted with
    | .posted addr len, slot :: posted =>
      some { s with
        receiver := { s.receiver with
          mem := writeBytes s.receiver.mem slot (readBytes s.sender.mem addr len) }
        sending := .acked len
        posted := posted
        comps := s.comps ++ [⟨.success, len⟩] }
    | _, _ => none
  | .complete =>
    match s.sending with
    | .acked len => some { s with sender := sendComplete s.sender len, sending := .idle }
    | _ => none
  | .deliver =>
    match s.comps with
    | [] =>
      (tryDeliverMessage s.receiver (.fails true "")).map (s.received [])
    | wc :: comps => (tryDeliverMessage s.receiver (.one wc)).map (s.received comps)
  | .receive stale =>
    match s.comps with
    | [] => (tryPollMessage s.receiver stale .empty).map (s.received [])
    | wc :: comps => (tryPollMessage s.receiver stale (.one wc)).map (s.received comps)

/-- Two ends just made, over any memory; the constructor has posted the slots of the receiving
one. -/
def channelInit (mem mem' : ℕ → UInt8) : Channel where
  sender := ⟨mem, sendBase, 0, recvBase, 0⟩
  receiver := ⟨mem', sendBase, 0, recvBase, 0⟩
  sending := .idle
  posted := List.range' recvBase (recvCap / kRecvMaxBytes) kRecvMaxBytes
  comps := []
  sent := []
  got := []
  ranges := []

end Rome

import Mathlib

/-!
# Messages over TCP

A `SocketManager` exchanges messages with the `EndpointManager`s of its clients. Each side writes a
message with one `write` of its bytes and receives one with one `read` into a message; the bytes
that the `read` does not return stay as they were. On top of this the clients stop together: each
sends a message and waits for one, the server receives from all, then sends to all.
-/

namespace Rome

/-- `TCP_MESSAGE_SIZE`. -/
def tcpMessageSize : ℕ := 32

/-- A message: its content and its padding byte. -/
structure Message where
  bytes : List UInt8
  length_eq : bytes.length = tcpMessageSize + 1
  deriving DecidableEq

/-- The message whose bytes are all `x`. -/
def Message.fill (x : UInt8) : Message := ⟨List.replicate (tcpMessageSize + 1) x, by simp⟩

/-- The first bytes of a message are overwritten. -/
def Message.overwrite (m : Message) (bs : List UInt8) (h : bs.length ≤ tcpMessageSize + 1) :
    Message where
  bytes := bs ++ m.bytes.drop bs.length
  length_eq := by
    rw [List.length_append, List.length_drop, m.length_eq]
    omega

/-- A `read` of up to `TCP_MESSAGE_SIZE + 1` bytes that returns the first `c` of the stream, and
what of the stream is left; `none` while it blocks. -/
def readMessage (c : ℕ) (buf : Message) (stream : List UInt8) : Option (Message × List UInt8) :=
  if h : 1 ≤ c ∧ c ≤ tcpMessageSize + 1 ∧ c ≤ stream.length then
    some (buf.overwrite (stream.take c) (by rw [List.length_take]; omega), stream.drop c)
  else none

/-- Reads of one stream one after the other. -/
def readMessages : List (ℕ × Message) → List UInt8 → Option (List Message)
  | [], _ => some []
  | (c, buf) :: reads, stream =>
    (readMessage c buf stream).bind fun (m, stream) => (readMessages reads stream).map (m :: ·)

/-- The bytes of messages written one after the other. -/
def streamOf (ms : List Message) : List UInt8 := ms.flatMap Message.bytes

/-- One direction of the socket of a client: the bytes written and not yet read, and on the side the
messages sent and received. -/
structure Socket where
  stream : List UInt8
  sent : List Message
  got : List Message

/-- The directions of the sockets: from client `i` to the server, and back. -/
inductive SocketId
  | up (i : ℕ)
  | down (i : ℕ)
  deriving DecidableEq

inductive TcpEvent
  | write (k : SocketId) (m : Message)
  | read (k : SocketId) (c : ℕ) (buf : Message)

/-- `send_server` of client `i`. -/
def sendServer (i : ℕ) (m : Message) : List TcpEvent := [.write (.up i) m]

/-- `recv_server` of client `i`. -/
def recvServer (i c : ℕ) (buf : Message) : List TcpEvent := [.read (.down i) c buf]

/-- `send_to_all` of a server with `n` clients. -/
def sendToAll (n : ℕ) (m : Message) : List TcpEvent :=
  (List.range n).map fun i => .write (.down i) m

/-- `recv_from_all` of a server, with what each of its reads returns. -/
def recvFromAll (reads : List (ℕ × Message)) : List TcpEvent :=
  reads.zipIdx.map fun x => .read (.up x.2) x.1.1 x.1.2

def tcpStep (s : SocketId → Socket) : TcpEvent → Option (SocketId → Socket)
  | .write k m =>
    some (Function.update s k
      { s k with stream := (s k).stream ++ m.bytes, sent := (s k).sent ++ [m] })
  | .read k c buf =>
    (readMessage c buf (s k).stream).map fun (m, stream) =>
      Function.update s k { s k with stream := stream, got := (s k).got ++ [m] }

def tcpInit : SocketId → Socket := fun _ => ⟨[], [], []⟩

/-! ## The stop barrier -/

/-- A client: the rounds it has started (sent in) and completed. -/
structure StopClient where
  started : ℕ
  completed : ℕ
  deriving DecidableEq

/-- The clients, the messages on their way, whole, and the server: its round, and the socket it
reads next, or writes next after those it has read. -/
structure StopState where
  client : ℕ → StopClient
  up : ℕ → List Message
  down : ℕ → List Message
  round : ℕ
  pc : ℕ

/-- A client sends or receives in `Client::Stop`; the server takes its next step in
`ClientStopBarrier`, or enters it again. -/
inductive StopEvent
  | send (i : ℕ) (m : Message)
  | recv (i : ℕ)
  | serve (m : Message)

/-- The rounds whose `recv_from_all` the server has finished. -/
def StopState.received (n : ℕ) (s : StopState) : ℕ := if s.pc < n then s.round else s.round + 1

/-- One step of `n` clients and the server. -/
def stopStep (n : ℕ) (s : StopState) : StopEvent → Option StopState
  | .send i m =>
    if i < n ∧ (s.client i).started = (s.client i).completed then
      some { s with
        client := Function.update s.client i { s.client i with started := (s.client i).started + 1 }
        up := Function.update s.up i (s.up i ++ [m]) }
    else none
  | .recv i =>
    if i < n ∧ (s.client i).started ≠ (s.client i).completed then
      match s.down i with
      | [] => none
      | _ :: ms =>
        some { s with
          client := Function.update s.client i
            { s.client i with completed := (s.client i).completed + 1 }
          down := Function.update s.down i ms }
    else none
  | .serve m =>
    if s.pc < n then
      match s.up s.pc with
      | [] => none
      | _ :: ms => some { s with up := Function.update s.up s.pc ms, pc := s.pc + 1 }
    else if s.pc < 2 * n then
      some { s with
        down := Function.update s.down (s.pc - n) (s.down (s.pc - n) ++ [m]), pc := s.pc + 1 }
    else some { s with round := s.round + 1, pc := 0 }

def stopInit : StopState := ⟨fun _ => ⟨0, 0⟩, fun _ => [], fun _ => [], 0, 0⟩

end Rome

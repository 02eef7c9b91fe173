import Rome.Summary

/-!
# The workload driver

A `WorkloadDriver` starts its client, applies the operations of a stream to it until the stream ends
or something fails, and stops the client. Client and stream are what their methods do to a state of
their own; the cycle counter gives a number at each reading. Samples of the throughput and of the
latency go to two summaries; doubles are rational numbers.
-/

namespace Rome

/-! ## Streams -/

def streamTerminatedStatus : Status := ⟨.streamTerminated, some "Stream terminated"⟩

def isStreamTerminated (status : Status) : Bool := status.t == .streamTerminated

/-- A `Stream`: its flag, and the state of the class that has `NextInternal`. -/
structure Stream (τ : Type*) where
  terminated : Bool
  inner : τ

namespace Stream

variable {τ O : Type*}

/-- `Next`. -/
def next (nextInternal : τ → StatusVal O × τ) (s : Stream τ) : StatusVal O × Stream τ :=
  if s.terminated then (⟨streamTerminatedStatus, none⟩, s)
  else
    let r := nextInternal s.inner
    (r.1, { s with inner := r.2 })

/-- `Terminate`. -/
def terminate (s : Stream τ) : Stream τ := { s with terminated := true }

end Stream

/-- The vector of a `TestStream`, and its iterator. -/
structure TestStream (O : Type*) where
  output : List O
  iter : ℕ

def TestStream.nextInternal {O : Type*} (s : TestStream O) : StatusVal O × TestStream O :=
  match s.output[s.iter]? with
  | none => (⟨streamTerminatedStatus, none⟩, s)
  | some curr => (⟨.ok, some curr⟩, { s with iter := s.iter + 1 })

/-! ## The driver -/

/-- The methods of a client. -/
structure ClientAdapter (σ O : Type*) where
  start : σ → Status × σ
  apply : O → σ → Status × σ
  stop : σ → Status × σ

/-- A call of a method of the client. -/
inductive AdapterCall (O : Type*)
  | start
  | apply (op : O)
  | stop
  deriving DecidableEq

structure Stopwatch where
  tscFreqKhz : ℕ
  start : UInt64
  end_ : UInt64
  lap : UInt64
  deriving DecidableEq

/-- `GetRuntimeNanoseconds` of a split. -/
def runtimeNanoseconds (tscFreqKhz : ℕ) (start end_ : UInt64) : ℕ :=
  (end_ - start).toNat * 1000000 / tscFreqKhz

/-- What a driver runs with: the classes of its client and its stream, and the cycle counter. -/
structure DriverEnv (σ τ O : Type*) where
  client : ClientAdapter σ O
  nextInternal : τ → StatusVal O × τ
  clock : ℕ → UInt64
  tscFreqKhz : ℕ

/-- The driver, the number of readings of the cycle counter, and the calls of the client so far. -/
structure WorkloadDriver (σ τ O : Type*) where
  client : σ
  stream : Stream τ
  ops : UInt64
  stopwatch : Option Stopwatch
  prevOps : UInt64
  qpsSamplingRate : ℤ
  qpsSummary : Summary
  latSamplingRate : ℤ
  latSummary : Summary
  readings : ℕ
  calls : List (AdapterCall O)

namespace WorkloadDriver

variable {σ τ O : Type*}

/-- The constructor. -/
def create (client : σ) (stream : Stream τ) (qpsSamplingRate : ℤ) : WorkloadDriver σ τ O where
  client := client
  stream := stream
  ops := 0
  stopwatch := none
  prevOps := 0
  qpsSamplingRate := qpsSamplingRate
  qpsSummary := .init "sampled_qps" 1000
  latSamplingRate := 10
  latSummary := .init "sampled_lat" 1000
  readings := 0
  calls := []

section

variable (env : DriverEnv σ τ O)

/-- `RdtscpAcquire`, which reads the counter. -/
def rdtscp (d : WorkloadDriver σ τ O) : UInt64 × WorkloadDriver σ τ O :=
  (env.clock d.readings, { d with readings := d.readings + 1 })

/-- `Stopwatch::Create`. -/
def createStopwatch (d : WorkloadDriver σ τ O) : WorkloadDriver σ τ O :=
  let (start, d) := d.rdtscp env
  { d with stopwatch := some ⟨env.tscFreqKhz, start, 0, start⟩ }

/-- The nanoseconds of `GetLapSplit`. -/
def lapSplit (w : Stopwatch) (d : WorkloadDriver σ τ O) : ℕ × WorkloadDriver σ τ O :=
  let (end_, d) := d.rdtscp env
  (runtimeNanoseconds w.tscFreqKhz w.lap end_, d)

/-- The nanoseconds of `GetLap`, which begins the next lap. -/
def getLap (w : Stopwatch) (d : WorkloadDriver σ τ O) : ℕ × WorkloadDriver σ τ O :=
  let (ns, d) := d.lapSplit env w
  let (lap, d) := d.rdtscp env
  (ns, { d with stopwatch := some { w with lap := lap } })

/-- The sample of the latency. -/
def sampleLatency (w : Stopwatch) (currLap : ℕ) (d : WorkloadDriver σ τ O) :
    Option (WorkloadDriver σ τ O) :=
  let (ns, d) := d.lapSplit env w
  (d.latSummary.feed (ns - currLap)).map fun s => { d with latSummary := s }

/-- The sample of the throughput. -/
def sampleQps (w : Stopwatch) (d : WorkloadDriver σ τ O) : Option (WorkloadDriver σ τ O) :=
  let (ns, d) := d.getLap env w
  (d.qpsSummary.feed ((d.ops - d.prevOps).toNat / (ns / 1000000000))).map fun s =>
    { d with qpsSummary := s, prevOps := d.ops }

/-- How the body of the loop ends; a `break` may set the status. -/
inductive Flow
  | next
  | leave (status : Option Status)

/-- The body of the loop of `Run`; `none` when an exception is thrown or the process exits. -/
def body (d : WorkloadDriver σ τ O) : Option (Flow × WorkloadDriver σ τ O) :=
  let (nextOp, stream) := d.stream.next env.nextInternal
  let d := { d with stream := stream }
  if nextOp.status.t ≠ .ok then
    some (.leave (if isStreamTerminated nextOp.status then none else some nextOp.status), d)
  else
    match nextOp.val, d.stopwatch with
    | some op, some w =>
      let (currLap, d) := d.lapSplit env w
      let (clientStatus, client) := env.client.apply op d.client
      let d := { d with client := client, calls := d.calls ++ [.apply op] }
      let currLapMs : ℤ := currLap / 1000000
      (if d.latSamplingRate < currLapMs then d.sampleLatency env w currLap
        else some d).bind fun d =>
        if clientStatus.t ≠ .ok then some (.leave (some clientStatus), d)
        else
          let d := { d with ops := d.ops + 1 }
          (if d.qpsSamplingRate < currLapMs then d.sampleQps env w else some d).map fun d =>
            (.next, d)
    | _, _ => none

/-- The loop of `Run`; `none` also when it has not ended after as many rounds as are given. -/
def loop : ℕ → Status → WorkloadDriver σ τ O → Option (Status × WorkloadDriver σ τ O)
  | 0, _, _ => none
  | fuel + 1, status, d =>
    match d.body env with
    | none => none
    | some (.next, d) => loop fuel status d
    | some (.leave s, d) => some (s.getD status, d)

/-- The end of `Run`, where the status of the loop is overwritten. -/
def finish (_status : Status) (d : WorkloadDriver σ τ O) : Status × WorkloadDriver σ τ O :=
  let (status, client) := env.client.stop d.client
  let d : WorkloadDriver σ τ O :=
    { d with client := client, calls := d.calls ++ [AdapterCall.stop] }
  let (end_, d) := d.rdtscp env
  (status, { d with stopwatch := d.stopwatch.map fun w => { w with end_ := end_ } })

/-- `Run`: the status returned, and the driver then. -/
def run (fuel : ℕ) (d : WorkloadDriver σ τ O) : Option (Status × WorkloadDriver σ τ O) :=
  let (status, client) := env.client.start d.client
  let d : WorkloadDriver σ τ O :=
    { d with client := client, calls := d.calls ++ [AdapterCall.start] }
  if status.t ≠ .ok then some (status, d)
  else (loop env fuel status (d.createStopwatch env)).map fun (status, d) => d.finish env status

end

end WorkloadDriver

end Rome

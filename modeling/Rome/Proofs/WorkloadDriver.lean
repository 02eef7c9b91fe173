import Rome.WorkloadDriver
import Rome.Proofs.Summary

/-!
# Errors of a workload

The driver stops at the first operation that fails and stops the client once, and the loop ends with
the status of the failure. `Run` then returns what `Stop` returned, which hides the failure unless
`Stop` fails the same way.
-/

namespace Rome

variable {σ τ O : Type*}

/-- Applying the operations of a stream, all but the last of them well, ends with a failure of the
client or the stream: the operations applied, the status of the failure, and the client then. -/
inductive Fails (env : DriverEnv σ τ O) : σ → Stream τ → List O → Status → σ → Prop
  | stream {c : σ} {str str' : Stream τ} {v : StatusVal O}
      (next : str.next env.nextInternal = (v, str')) (failed : v.status.t ≠ .ok)
      (running : isStreamTerminated v.status = false) : Fails env c str [] v.status c
  | apply {c c' : σ} {str str' : Stream τ} {s : Status} {op : O} {m : Option String}
      (next : str.next env.nextInternal = (⟨⟨.ok, m⟩, some op⟩, str'))
      (applied : env.client.apply op c = (s, c')) (failed : s.t ≠ .ok) : Fails env c str [op] s c'
  | later {c c' c'' : σ} {str str' : Stream τ} {s err : Status} {op : O} {ops : List O}
      {m : Option String} (next : str.next env.nextInternal = (⟨⟨.ok, m⟩, some op⟩, str'))
      (applied : env.client.apply op c = (s, c')) (ok : s.t = .ok)
      (rest : Fails env c' str' ops err c'') : Fails env c str (op :: ops) err c''

theorem Fails.failed {env : DriverEnv σ τ O} {c c' : σ} {str : Stream τ} {ops : List O}
    {err : Status} (h : Fails env c str ops err c') : err.t ≠ .ok := by
  induction h with
  | stream _ failed _ => exact failed
  | apply _ _ failed => exact failed
  | later _ _ _ _ ih => exact ih

namespace WorkloadDriver

variable {env : DriverEnv σ τ O} {d : WorkloadDriver σ τ O}

/-- The stopwatch runs, and the summaries take samples. -/
structure Ready (d : WorkloadDriver σ τ O) : Prop where
  stopwatch : d.stopwatch ≠ none
  qps : d.qpsSummary.Good
  lat : d.latSummary.Good

/-- Client, stream and calls are the same. -/
structure SameRun (d d' : WorkloadDriver σ τ O) : Prop where
  client : d'.client = d.client
  stream : d'.stream = d.stream
  calls : d'.calls = d.calls

variable (env) in
theorem Ready.sampleLatency (H : Ready d) (w : Stopwatch) (currLap : ℕ) :
    ∃ d', d.sampleLatency env w currLap = some d' ∧ Ready d' ∧ SameRun d d' := by
  obtain ⟨s, hs, hgood⟩ := H.lat.feed
    (runtimeNanoseconds w.tscFreqKhz w.lap (env.clock d.readings) - currLap)
  refine ⟨{ d with latSummary := s, readings := d.readings + 1 }, ?_, ⟨H.stopwatch, H.qps, hgood⟩,
    rfl, rfl, rfl⟩
  unfold WorkloadDriver.sampleLatency lapSplit rdtscp
  simp only [hs, Option.map_some]

variable (env) in
theorem Ready.sampleQps (H : Ready d) (w : Stopwatch) :
    ∃ d', d.sampleQps env w = some d' ∧ Ready d' ∧ SameRun d d' := by
  obtain ⟨s, hs, hgood⟩ := H.qps.feed ((d.ops - d.prevOps).toNat
    / (runtimeNanoseconds w.tscFreqKhz w.lap (env.clock d.readings) / 1000000000))
  refine ⟨{ d with
      qpsSummary := s
      prevOps := d.ops
      stopwatch := some { w with lap := env.clock (d.readings + 1) }
      readings := d.readings + 1 + 1 }, ?_, ⟨Option.some_ne_none _, hgood, H.lat⟩, rfl, rfl, rfl⟩
  unfold WorkloadDriver.sampleQps getLap lapSplit rdtscp
  simp only [hs, Option.map_some]

/-- A sample may be taken or not. -/
theorem Ready.sampled (H : Ready d) {p : Prop} [Decidable p]
    {sample : WorkloadDriver σ τ O → Option (WorkloadDriver σ τ O)}
    (hs : ∃ d', sample d = some d' ∧ Ready d' ∧ SameRun d d') :
    ∃ d', (if p then sample d else some d) = some d' ∧ Ready d' ∧ SameRun d d' := by
  split_ifs
  · exact hs
  · exact ⟨d, rfl, H, rfl, rfl, rfl⟩

/-- A round in which the stream fails. -/
theorem body_stream {v : StatusVal O} {str : Stream τ}
    (hn : d.stream.next env.nextInternal = (v, str)) (hf : v.status.t ≠ .ok)
    (hr : isStreamTerminated v.status = false) :
    d.body env = some (.leave (some v.status), { d with stream := str }) := by
  unfold body
  simp only [hn, hf, hr, ne_eq, not_false_eq_true, if_true, Bool.false_eq_true, if_false]

/-- The driver when an operation has been applied. -/
def applied (d : WorkloadDriver σ τ O) (op : O) (client : σ) (stream : Stream τ) :
    WorkloadDriver σ τ O :=
  { d with
    stream := stream
    readings := d.readings + 1
    client := client
    calls := d.calls ++ [.apply op] }

theorem Ready.applied (H : Ready d) (op : O) (c : σ) (str : Stream τ) :
    Ready (d.applied op c str) := ⟨H.stopwatch, H.qps, H.lat⟩

/-- A round in which an operation is applied. -/
theorem Ready.body (H : Ready d) {m : Option String} {op : O} {str : Stream τ} {s : Status} {c : σ}
    (hn : d.stream.next env.nextInternal = (⟨⟨.ok, m⟩, some op⟩, str))
    (ha : env.client.apply op d.client = (s, c)) :
    ∃ d', d.body env = some (if s.t = .ok then .next else .leave (some s), d') ∧ Ready d'
      ∧ d'.client = c ∧ d'.stream = str ∧ d'.calls = d.calls ++ [.apply op] := by
  obtain ⟨w, hw⟩ := Option.ne_none_iff_exists'.1 H.stopwatch
  have H0 := H.applied op c str
  obtain ⟨d₁, h1, H1, hsame⟩ := H0.sampled (p := d.latSamplingRate
      < (runtimeNanoseconds w.tscFreqKhz w.lap (env.clock d.readings) : ℤ) / 1000000)
    (H0.sampleLatency env w (runtimeNanoseconds w.tscFreqKhz w.lap (env.clock d.readings)))
  unfold WorkloadDriver.applied at h1
  rw [hw] at h1
  unfold WorkloadDriver.body
  simp only [hn, hw, ne_eq, not_true_eq_false, if_false, lapSplit, rdtscp, ha, h1, Option.bind_some]
  by_cases hok : s.t = .ok
  · have H2 : Ready { d₁ with ops := d₁.ops + 1 } := ⟨H1.stopwatch, H1.qps, H1.lat⟩
    obtain ⟨d₂, h2, H3, hsame'⟩ := H2.sampled (p := d₁.qpsSamplingRate
        < (runtimeNanoseconds w.tscFreqKhz w.lap (env.clock d.readings) : ℤ) / 1000000)
      (H2.sampleQps env w)
    rw [if_neg (not_not_intro hok), if_pos hok, h2, Option.map_some]
    exact ⟨d₂, rfl, H3, hsame'.client.trans hsame.client, hsame'.stream.trans hsame.stream,
      hsame'.calls.trans hsame.calls⟩
  · rw [if_pos hok, if_neg hok]
    exact ⟨d₁, rfl, H1, hsame.client, hsame.stream, hsame.calls⟩

/-- The loop ends with the first failure. -/
theorem Ready.loop {c c' : σ} {str : Stream τ} {ops : List O} {err : Status}
    (h : Fails env c str ops err c') : ∀ {d : WorkloadDriver σ τ O}, Ready d → d.client = c →
      d.stream = str → ∀ {f : ℕ}, ops.length < f → ∀ status, ∃ d',
        d.loop env f status = some (err, d') ∧ d'.client = c'
          ∧ d'.calls = d.calls ++ ops.map .apply := by
  induction h with
  | @stream c str str' v hn hf hr =>
    rintro d - rfl rfl fuel hfuel status
    obtain ⟨fuel, rfl⟩ := Nat.exists_eq_add_of_lt hfuel
    refine ⟨{ d with stream := str' }, ?_, rfl, by simp⟩
    rw [Nat.add_assoc, List.length_nil, Nat.zero_add, WorkloadDriver.loop, body_stream hn hf hr]
    rfl
  | apply hn ha hf =>
    rintro d H rfl rfl fuel hfuel status
    obtain ⟨fuel, rfl⟩ := Nat.exists_eq_add_of_lt hfuel
    obtain ⟨d', h1, -, h2, -, h3⟩ := H.body hn ha
    refine ⟨d', ?_, h2, h3⟩
    rw [WorkloadDriver.loop, h1, if_neg hf]
    rfl
  | @later c c' c'' str str' s err op ops m hn ha hok _ ih =>
    rintro d H rfl rfl fuel hfuel status
    obtain ⟨fuel, rfl⟩ : ∃ n, fuel = n + 1 := ⟨fuel - 1, by omega⟩
    obtain ⟨d₁, h1, H1, h2, h3, h4⟩ := H.body hn ha
    obtain ⟨d', h5, h6, h7⟩ := ih H1 h2 h3 (f := fuel)
      (by rw [List.length_cons] at hfuel; omega) status
    refine ⟨d', ?_, h6, ?_⟩
    · rw [WorkloadDriver.loop, h1, if_pos hok]
      exact h5
    · rw [h7, h4, List.append_assoc]
      rfl

end WorkloadDriver

section Main

open WorkloadDriver

/-- When the client starts well and then the client or the stream fails, `Run` stops at the
operation that failed and stops the client once; it returns the failure exactly when `Stop` returns
the same. -/
theorem workload_errors (env : DriverEnv σ τ O) (c c₀ c' : σ) (str : Stream τ) (rate : ℤ)
    (started : Status) (ops : List O) (err : Status) (hstart : env.client.start c = (started, c₀))
    (hok : started.t = .ok) (hf : Fails env c₀ str ops err c') (fuel : ℕ)
    (hfuel : ops.length < fuel) :
    ∃ status d', (create c str rate).run env fuel = some (status, d')
      ∧ d'.calls = .start :: ops.map .apply ++ [.stop]
      ∧ (status.t ≠ .ok ∧ status = err ↔ (env.client.stop c').1 = err) := by
  have H : Ready (createStopwatch env
      { (create c str rate : WorkloadDriver σ τ O) with client := c₀, calls := [.start] }) :=
    ⟨Option.some_ne_none _, Summary.good_init _ _, Summary.good_init _ _⟩
  obtain ⟨d', h1, h2, h3⟩ := H.loop hf rfl rfl hfuel started
  refine ⟨(d'.finish env err).1, (d'.finish env err).2, ?_, ?_, ?_⟩
  · unfold WorkloadDriver.run
    simp only [create, hstart, List.nil_append] at h1 ⊢
    rw [if_neg (not_not_intro hok), h1]
    rfl
  · show d'.calls ++ [.stop] = _
    rw [h3]
    rfl
  · show (env.client.stop d'.client).1.t ≠ .ok ∧ (env.client.stop d'.client).1 = err ↔ _
    rw [h2]
    refine ⟨And.right, fun h => ⟨?_, h⟩⟩
    rw [h]
    exact hf.failed

/-- A client whose operations fail, if `failing` says so, and which stops with `stopped`. -/
def testClient (failing : ℕ → Bool) (stopped : Status) : DriverEnv Unit (TestStream ℕ) ℕ where
  client :=
    { start _ := (.ok, ())
      apply op _ := (if failing op then ⟨.unavailable, none⟩ else .ok, ())
      stop _ := (stopped, ()) }
  nextInternal := TestStream.nextInternal
  clock _ := 0
  tscFreqKhz := 1

/-- The stream of the operations 0, 1 and 2. -/
def threeOps : Stream (TestStream ℕ) := ⟨false, [0, 1, 2], 0⟩

theorem fails_threeOps (stopped : Status) :
    Fails (testClient (· == 1) stopped) () threeOps [0, 1] ⟨.unavailable, none⟩ () :=
  .later rfl rfl rfl (.apply rfl rfl (by decide))

/-- A client that stops with the failure of its operation. -/
theorem workload_errors_threeOps : ∃ status d',
    (create () threeOps 0).run (testClient (· == 1) ⟨.unavailable, none⟩) 3 = some (status, d')
      ∧ status = ⟨.unavailable, none⟩ := by
  obtain ⟨status, d', h1, -, h2⟩ := workload_errors (testClient (· == 1) ⟨.unavailable, none⟩) () ()
    () threeOps 0 .ok [0, 1] ⟨.unavailable, none⟩ rfl rfl (fails_threeOps _) 3 (by decide)
  exact ⟨status, d', h1, (h2.2 rfl).2⟩

/-- The second operation fails, the client stops well, and `Run` returns `Ok`. -/
theorem threeOps_hidden : Fails (testClient (· == 1) .ok) () threeOps [0, 1] ⟨.unavailable, none⟩ ()
    ∧ ∃ d', (create () threeOps 0).run (testClient (· == 1) .ok) 3 = some (.ok, d')
      ∧ d'.calls = [.start, .apply 0, .apply 1, .stop] := by
  refine ⟨fails_threeOps _, ?_⟩
  have hrun : ((create () threeOps 0).run (testClient (· == 1) .ok) 3).map
      (fun x => (x.1, x.2.calls)) = some (.ok, [.start, .apply 0, .apply 1, .stop]) := by
    decide +kernel
  obtain ⟨⟨status, d'⟩, h1, h2⟩ := Option.map_eq_some_iff.1 hrun
  obtain ⟨rfl, h3⟩ := Prod.mk.inj h2
  exact ⟨d', h1, h3⟩

end Main

end Rome

import Rome.Tcp
import Rome.Lib.Machine

/-!
# Framing and the stop barrier

A `read` may return a part of a message, and none of the receiving functions reads on. Where every
read returns a whole message, the messages received are the first of those sent; a part leaves the
rest of the buffer as it was, and the rest of the message in the stream, where it is taken for the
beginning of the next. Whole messages provided, the stop barrier is one: the messages on each socket
count how far its client is ahead of the server, or behind.
-/

namespace Rome

open Machine

/-! ## Framing -/

theorem readMessage_whole (buf m : Message) (stream : List UInt8) :
    readMessage (tcpMessageSize + 1) buf (m.bytes ++ stream) = some (m, stream) := by
  have hm := m.length_eq
  unfold readMessage
  rw [dif_pos ⟨by omega, le_rfl, by rw [List.length_append]; omega⟩]
  have htake : (m.bytes ++ stream).take (tcpMessageSize + 1) = m.bytes := List.take_left' hm
  have hdrop : (m.bytes ++ stream).drop (tcpMessageSize + 1) = stream := List.drop_left' hm
  simp only [hdrop, Option.some.injEq, Prod.mk.injEq, and_true]
  cases m with
  | mk bytes hlen =>
    simp only [Message.overwrite, Message.mk.injEq] at htake ⊢
    rw [htake, List.drop_eq_nil_of_le (by rw [buf.length_eq, hlen]), List.append_nil]

/-- Whole reads return the messages. -/
theorem readMessages_whole : ∀ (reads : List (ℕ × Message)) (ms : List Message)
    (rest : List UInt8), reads.length = ms.length → (∀ x ∈ reads, x.1 = tcpMessageSize + 1) →
    readMessages reads (streamOf ms ++ rest) = some ms
  | [], ms, rest, hlen, _ => by
    have hms : ms = [] := List.length_eq_zero_iff.1 hlen.symm
    rw [hms]
    rfl
  | (c, buf) :: reads, [], rest, hlen, _ => by simp at hlen
  | (c, buf) :: reads, m :: ms, rest, hlen, hc => by
    have hc₁ : c = tcpMessageSize + 1 := hc (c, buf) List.mem_cons_self
    have ih := readMessages_whole reads ms rest (by simpa using hlen)
      fun x hx => hc x (List.mem_cons_of_mem _ hx)
    subst hc₁
    unfold readMessages
    rw [streamOf, List.flatMap_cons, List.append_assoc, readMessage_whole]
    simp only [Option.bind_some]
    rw [← streamOf, ih]
    rfl

/-- Reads of zeroes into messages of ones. -/
theorem readMessages_zero : ∀ (cs : List ℕ) (n : ℕ) (ms : List Message),
    (∀ c ∈ cs, c ≤ tcpMessageSize + 1) →
    readMessages (cs.map fun c => (c, Message.fill 1)) (List.replicate n 0) = some ms →
    ∀ c ∈ cs, ∃ m ∈ ms, m.bytes = List.replicate c 0 ++ List.replicate (tcpMessageSize + 1 - c) 1
  | [], _, _, _, _ => by simp
  | c :: cs, n, ms, hc, hr => by
    simp only [List.map_cons, readMessages] at hr
    obtain ⟨⟨m, stream⟩, h1, h2⟩ := Option.bind_eq_some_iff.1 hr
    obtain ⟨ms', h3, rfl⟩ := Option.map_eq_some_iff.1 h2
    unfold readMessage at h1
    split_ifs at h1 with hlt
    simp only [Option.some.injEq, Prod.mk.injEq, List.length_replicate] at h1 hlt
    obtain ⟨rfl, rfl⟩ := h1
    rw [List.drop_replicate] at h3
    have ih := readMessages_zero cs (n - c) ms' (fun x hx => hc x (List.mem_cons_of_mem _ hx)) h3
    intro c' hc'
    rcases List.mem_cons.1 hc' with rfl | hc'
    · refine ⟨_, List.mem_cons_self, ?_⟩
      simp only [Message.overwrite, Message.fill, List.take_replicate, List.length_replicate,
        List.drop_replicate]
      rw [min_eq_left hlt.2.2]
    · obtain ⟨m, hm, h4⟩ := ih c' hc'
      exact ⟨m, List.mem_cons_of_mem _ hm, h4⟩

theorem streamOf_fill (x : UInt8) (n : ℕ) :
    streamOf (List.replicate n (.fill x)) = List.replicate (n * (tcpMessageSize + 1)) x := by
  induction n with
  | zero => simp [streamOf]
  | succ n ih =>
    rw [List.replicate_succ, streamOf, List.flatMap_cons, ← streamOf, ih]
    simp only [Message.fill]
    rw [List.replicate_append_replicate]
    congr 1
    rw [Nat.succ_mul, Nat.add_comm]

theorem zip_replicate_length {α β : Type*} (x : β) (cs : List α) :
    cs.zip (List.replicate cs.length x) = cs.map fun c => (c, x) := by
  induction cs with
  | nil => rfl
  | cons c cs ih =>
    rw [List.length_cons, List.replicate_succ, List.zip_cons_cons, ih, List.map_cons]

/-- The reads of a stream return its messages, whatever these and the buffers are, exactly if each
returns a whole message. -/
theorem readMessages_iff (cs : List ℕ) (hcs : ∀ c ∈ cs, 1 ≤ c ∧ c ≤ tcpMessageSize + 1) :
    (∀ ms bufs : List Message, ms.length = cs.length → bufs.length = cs.length →
      readMessages (cs.zip bufs) (streamOf ms) = some ms) ↔ ∀ c ∈ cs, c = tcpMessageSize + 1 := by
  constructor
  · intro h c hc
    have h1 := h (List.replicate cs.length (.fill 0)) (List.replicate cs.length (.fill 1)) (by simp)
      (by simp)
    rw [streamOf_fill] at h1
    rw [zip_replicate_length] at h1
    obtain ⟨m, hm, h2⟩ := readMessages_zero cs _ _ (fun c hc => (hcs c hc).2) h1 c hc
    rw [List.mem_replicate] at hm
    rw [hm.2] at h2
    by_contra hne
    have hlt : c < tcpMessageSize + 1 := lt_of_le_of_ne (hcs c hc).2 hne
    have h3 : (1 : UInt8) ∈ (Message.fill 0).bytes := by
      rw [h2, List.mem_append, List.mem_replicate, List.mem_replicate]
      exact .inr ⟨by omega, rfl⟩
    simp only [Message.fill, List.mem_replicate] at h3
    exact absurd h3.2 (by decide)
  · intro hc ms bufs hms hbufs
    have h1 := readMessages_whole (cs.zip bufs) ms [] (by simp [hms, hbufs]) fun x hx =>
      hc x.1 (List.of_mem_zip hx).1
    rwa [List.append_nil] at h1

/-- The event does not read, or its read returns a whole message. -/
def WholeRead (_ : SocketId → Socket) : TcpEvent → Prop
  | .write _ _ => True
  | .read _ c _ => c = tcpMessageSize + 1

instance (s : SocketId → Socket) (e : TcpEvent) : Decidable (WholeRead s e) := by
  cases e <;> unfold WholeRead <;> infer_instance

/-- The stream of a socket is that of the messages sent and not yet received. -/
def Socket.Framed (k : Socket) : Prop :=
  ∃ rest, k.sent = k.got ++ rest ∧ k.stream = streamOf rest

theorem Socket.Framed.write {k : Socket} (H : k.Framed) (m : Message) :
    Socket.Framed { k with stream := k.stream ++ m.bytes, sent := k.sent ++ [m] } := by
  obtain ⟨rest, h1, h2⟩ := H
  refine ⟨rest ++ [m], ?_, ?_⟩
  · rw [h1, List.append_assoc]
  · rw [h2]
    simp [streamOf]

theorem Socket.Framed.read {k : Socket} (H : k.Framed) {buf m : Message} {stream : List UInt8}
    (h : readMessage (tcpMessageSize + 1) buf k.stream = some (m, stream)) :
    Socket.Framed { k with stream := stream, got := k.got ++ [m] } := by
  obtain ⟨rest, h1, h2⟩ := H
  rw [h2] at h
  cases rest with
  | nil =>
    unfold readMessage at h
    simp [streamOf] at h
  | cons m' rest =>
    rw [streamOf, List.flatMap_cons, readMessage_whole, Option.some.injEq, Prod.mk.injEq] at h
    obtain ⟨rfl, rfl⟩ := h
    refine ⟨rest, ?_, rfl⟩
    rw [h1, List.append_assoc, List.singleton_append]

theorem tcpStep_framed (s : SocketId → Socket) (e : TcpEvent) (s' : SocketId → Socket)
    (H : ∀ k, (s k).Framed) (hok : WholeRead s e) (hs : tcpStep s e = some s') (k : SocketId) :
    (s' k).Framed := by
  cases e with
  | write k' m =>
    simp only [tcpStep, Option.some.injEq] at hs
    subst hs
    rcases eq_or_ne k k' with rfl | hne
    · rw [Function.update_self]
      exact (H k).write m
    · rw [Function.update_of_ne hne]
      exact H k
  | read k' c buf =>
    obtain rfl : c = tcpMessageSize + 1 := hok
    simp only [tcpStep] at hs
    obtain ⟨⟨m, stream⟩, h1, rfl⟩ := Option.map_eq_some_iff.1 hs
    rcases eq_or_ne k k' with rfl | hne
    · rw [Function.update_self]
      exact (H k).read h1
    · rw [Function.update_of_ne hne]
      exact H k

/-- The messages received on a socket are those sent, whatever they are, exactly for the
segmentations in which each read returns a whole message; and in a run of the server and its clients
with whole reads they are the first of those sent on it. -/
theorem tcp_framing (cs : List ℕ) (hcs : ∀ c ∈ cs, 1 ≤ c ∧ c ≤ tcpMessageSize + 1)
    (es : List TcpEvent) (s : SocketId → Socket) (hr : run tcpStep tcpInit es = some s)
    (hm : Meets tcpStep WholeRead tcpInit es) :
    ((∀ ms bufs : List Message, ms.length = cs.length → bufs.length = cs.length →
      readMessages (cs.zip bufs) (streamOf ms) = some ms) ↔ ∀ c ∈ cs, c = tcpMessageSize + 1) ∧
    ∀ k, (s k).got <+: (s k).sent := by
  refine ⟨readMessages_iff cs hcs, fun k => ?_⟩
  have H : ∀ k, (s k).Framed := by
    refine run_inv (I := fun s => ∀ k, (s k).Framed) tcpStep_framed hr hm fun k => ?_
    exact ⟨[], rfl, rfl⟩
  obtain ⟨rest, h1, -⟩ := H k
  exact ⟨rest, h1.symm⟩

/-- Two clients send a message, the server receives both and answers, and the clients receive the
answer. -/
def tcpRound (c : ℕ) : List TcpEvent :=
  sendServer 1 (.fill 1) ++ sendServer 0 (.fill 2) ++
    recvFromAll [(c, .fill 0), (tcpMessageSize + 1, .fill 0)] ++ sendToAll 2 (.fill 3) ++
    recvServer 0 (tcpMessageSize + 1) (.fill 0) ++ recvServer 1 (tcpMessageSize + 1) (.fill 0)

theorem tcp_framing_tcpRound :
    readMessages [(33, .fill 0), (33, .fill 0)] (streamOf [.fill 1, .fill 2])
      = some [.fill 1, .fill 2] ∧
    ∃ s, run tcpStep tcpInit (tcpRound 33) = some s ∧ (s (.up 0)).got = [.fill 2] ∧
      (s (.down 1)).got = [.fill 3] ∧ ∀ k, (s k).got <+: (s k).sent := by
  obtain ⟨s, hs, hg⟩ := Option.map_eq_some_iff.1
    (show (run tcpStep tcpInit (tcpRound 33)).map (fun s => ((s (.up 0)).got, (s (.down 1)).got))
      = some ([.fill 2], [.fill 3]) by decide +kernel)
  simp only [Prod.mk.injEq] at hg
  obtain ⟨h1, h2⟩ := tcp_framing [33, 33] (by decide) (tcpRound 33) s hs (by decide +kernel)
  exact ⟨h1.2 (by decide) [.fill 1, .fill 2] [.fill 0, .fill 0] rfl rfl, s, hs, hg.1, hg.2, h2⟩

/-- A read of the server returns the first byte of a message: the rest of it are the bytes of the
buffer. -/
theorem tcpRound_short : ∃ s, run tcpStep tcpInit (tcpRound 1) = some s ∧
    (s (.up 0)).sent = [.fill 2] ∧ (s (.up 0)).got.map Message.bytes = [2 :: List.replicate 32 0] ∧
    ¬ (s (.up 0)).got <+: (s (.up 0)).sent := by
  obtain ⟨s, hs, hg⟩ := Option.map_eq_some_iff.1
    (show (run tcpStep tcpInit (tcpRound 1)).map
      (fun s => ((s (.up 0)).sent, (s (.up 0)).got.map Message.bytes))
      = some ([.fill 2], [2 :: List.replicate 32 0]) by decide +kernel)
  simp only [Prod.mk.injEq] at hg
  refine ⟨s, hs, hg.1, hg.2, fun hpre => ?_⟩
  have h1 : (s (.up 0)).got.map Message.bytes <+: (s (.up 0)).sent.map Message.bytes :=
    hpre.map Message.bytes
  rw [hg.1, hg.2] at h1
  exact absurd h1 (by decide)

/-! ## The stop barrier -/

/-- The messages of client `j` that the server has received, or the answers it has sent, if its
socket is the `k`th that the server gets to in a round. -/
def StopState.served (s : StopState) (k : ℕ) : ℕ := s.round + if k < s.pc then 1 else 0

/-- What each client has sent is received or on its way, what it is sent too, and it is at most one
message ahead. -/
structure StopInv (n : ℕ) (s : StopState) : Prop where
  pc_le : s.pc ≤ 2 * n
  started : ∀ j < n, (s.client j).started = s.served j + (s.up j).length
  completed : ∀ j < n, (s.client j).completed + (s.down j).length = s.served (n + j)
  ahead : ∀ j < n, (s.client j).completed ≤ (s.client j).started ∧
    (s.client j).started ≤ (s.client j).completed + 1

theorem stopInv_init (n : ℕ) : StopInv n stopInit where
  pc_le := by simp [stopInit]
  started := by simp [stopInit, StopState.served]
  completed := by simp [stopInit, StopState.served]
  ahead := by simp [stopInit]

theorem StopInv.send {n : ℕ} {s s' : StopState} (H : StopInv n s) {i : ℕ} {m : Message}
    (hs : stopStep n s (.send i m) = some s') : StopInv n s' := by
  simp only [stopStep] at hs
  split_ifs at hs with hi
  rw [Option.some.injEq] at hs
  subst hs
  refine ⟨H.pc_le, fun j hj => ?_, fun j hj => ?_, fun j hj => ?_⟩
  all_goals rcases eq_or_ne j i with rfl | hne
  · have h1 := H.started j hj
    simp only [Function.update_self, List.length_append, List.length_singleton]
    unfold StopState.served at h1 ⊢
    simp only []
    omega
  · simp only [Function.update_of_ne hne]
    exact H.started j hj
  · simp only [Function.update_self]
    exact H.completed j hj
  · simp only [Function.update_of_ne hne]
    exact H.completed j hj
  · simp only [Function.update_self]
    omega
  · simp only [Function.update_of_ne hne]
    exact H.ahead j hj

theorem StopInv.recv {n : ℕ} {s s' : StopState} (H : StopInv n s) {i : ℕ}
    (hs : stopStep n s (.recv i) = some s') : StopInv n s' := by
  simp only [stopStep] at hs
  split_ifs at hs with hi
  split at hs
  · cases hs
  rename_i m ms hdown
  rw [Option.some.injEq] at hs
  subst hs
  refine ⟨H.pc_le, fun j hj => ?_, fun j hj => ?_, fun j hj => ?_⟩
  all_goals rcases eq_or_ne j i with rfl | hne
  · simp only [Function.update_self]
    exact H.started j hj
  · simp only [Function.update_of_ne hne]
    exact H.started j hj
  · have h1 := H.completed j hj
    rw [hdown, List.length_cons] at h1
    simp only [Function.update_self]
    unfold StopState.served at h1 ⊢
    simp only []
    omega
  · simp only [Function.update_of_ne hne]
    exact H.completed j hj
  · have h1 := H.ahead j hj
    simp only [Function.update_self]
    omega
  · simp only [Function.update_of_ne hne]
    exact H.ahead j hj

theorem StopInv.serve {n : ℕ} {s s' : StopState} (H : StopInv n s) {m : Message}
    (hs : stopStep n s (.serve m) = some s') : StopInv n s' := by
  have hpc := H.pc_le
  simp only [stopStep] at hs
  split_ifs at hs with hlt hlt'
  · split at hs
    · cases hs
    rename_i m' ms hup
    rw [Option.some.injEq] at hs
    subst hs
    refine ⟨by simp only []; omega, fun j hj => ?_, fun j hj => ?_, H.ahead⟩
    · have h1 := H.started j hj
      unfold StopState.served at h1 ⊢
      rcases eq_or_ne j s.pc with rfl | hne
      · rw [hup, List.length_cons] at h1
        simp only [Function.update_self]
        split_ifs at h1 ⊢ <;> omega
      · simp only [Function.update_of_ne hne]
        split_ifs at h1 ⊢ <;> omega
    · have h1 := H.completed j hj
      unfold StopState.served at h1 ⊢
      simp only []
      split_ifs at h1 ⊢ <;> omega
  · rw [Option.some.injEq] at hs
    subst hs
    refine ⟨by simp only []; omega, fun j hj => ?_, fun j hj => ?_, H.ahead⟩
    · have h1 := H.started j hj
      unfold StopState.served at h1 ⊢
      simp only []
      split_ifs at h1 ⊢ <;> omega
    · have h1 := H.completed j hj
      unfold StopState.served at h1 ⊢
      rcases eq_or_ne j (s.pc - n) with rfl | hne
      · simp only [Function.update_self, List.length_append, List.length_singleton]
        split_ifs at h1 ⊢ <;> omega
      · simp only [Function.update_of_ne hne]
        split_ifs at h1 ⊢ <;> omega
  · rw [Option.some.injEq] at hs
    subst hs
    refine ⟨by simp only []; omega, fun j hj => ?_, fun j hj => ?_, H.ahead⟩
    · have h1 := H.started j hj
      unfold StopState.served at h1 ⊢
      simp only []
      split_ifs at h1 ⊢ <;> omega
    · have h1 := H.completed j hj
      unfold StopState.served at h1 ⊢
      simp only []
      split_ifs at h1 ⊢ <;> omega

theorem StopInv.step {n : ℕ} {s s' : StopState} {e : StopEvent} (H : StopInv n s)
    (hs : stopStep n s e = some s') : StopInv n s' := by
  cases e with
  | send i m => exact H.send hs
  | recv i => exact H.recv hs
  | serve m => exact H.serve hs

theorem StopInv.completed_le_started {n : ℕ} {s : StopState} (H : StopInv n s) {i j : ℕ}
    (hi : i < n) (hj : j < n) : (s.client i).completed ≤ (s.client j).started := by
  have h1 := H.completed i hi
  have h2 := H.started j hj
  unfold StopState.served at h1 h2
  split_ifs at h1 h2 <;> omega

theorem StopInv.received_le_started {n : ℕ} {s : StopState} (H : StopInv n s) {j : ℕ} (hj : j < n) :
    s.received n ≤ (s.client j).started := by
  have h1 := H.started j hj
  unfold StopState.served at h1
  unfold StopState.received
  split_ifs at h1 ⊢ <;> omega

/-- The stop barrier: a client completes a round, and the server finishes to receive in it, only
once all clients have started it. -/
theorem stop_barrier (n : ℕ) (es : List StopEvent) (s : StopState)
    (hr : run (stopStep n) stopInit es = some s) :
    (∀ i < n, ∀ j < n, (s.client i).completed ≤ (s.client j).started) ∧
      ∀ j < n, s.received n ≤ (s.client j).started := by
  have H : StopInv n s := run_inv' (fun _ _ _ H hs => H.step hs) hr (stopInv_init n)
  exact ⟨fun i hi j hj => H.completed_le_started hi hj, fun j hj => H.received_le_started hj⟩

/-- Two clients stop; the first is at once in the next round. -/
def stopRound : List StopEvent :=
  [.send 1 (.fill 0), .send 0 (.fill 0), .serve (.fill 0), .serve (.fill 0), .serve (.fill 0),
    .recv 0, .send 0 (.fill 0), .serve (.fill 0), .serve (.fill 0), .serve (.fill 0), .recv 1]

theorem stop_barrier_stopRound : ∃ s, run (stopStep 2) stopInit stopRound = some s ∧
    (s.client 0, s.client 1) = (⟨2, 1⟩, ⟨1, 1⟩) ∧ s.received 2 = 1 ∧
    (∀ i < 2, ∀ j < 2, (s.client i).completed ≤ (s.client j).started) ∧
      ∀ j < 2, s.received 2 ≤ (s.client j).started := by
  obtain ⟨s, hs, hg⟩ := Option.map_eq_some_iff.1
    (show (run (stopStep 2) stopInit stopRound).map
      (fun s => ((s.client 0, s.client 1), s.received 2)) = some ((⟨2, 1⟩, ⟨1, 1⟩), 1) by
      decide +kernel)
  simp only [Prod.mk.injEq] at hg
  refine ⟨s, hs, ?_, hg.2, stop_barrier 2 stopRound s hs⟩
  rw [hg.1.1, hg.1.2]

end Rome

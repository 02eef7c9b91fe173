import Rome.Messenger
import Rome.Lib.Machine

/-!
# The messages of a connection

The slots of the receiving end are used one after the other; those from the next to be returned on
hold the messages that have come and are not returned, the ones behind are posted. `TryPollMessage`
takes an empty queue for a completion: it looks at a record that nothing was written to.
-/

namespace Rome

open Machine

/-- The slots of the receive buffer. -/
def recvSlots : ℕ := 8

theorem recvCap_div : recvCap / kRecvMaxBytes = recvSlots := rfl

/-! ## Bytes -/

theorem length_readBytes (mem : ℕ → UInt8) (addr len : ℕ) :
    (readBytes mem addr len).length = len := by
  unfold readBytes
  rw [List.length_map, List.length_range]

theorem readBytes_congr {mem mem' : ℕ → UInt8} {addr len : ℕ}
    (h : ∀ i < len, mem' (addr + i) = mem (addr + i)) :
    readBytes mem' addr len = readBytes mem addr len := by
  unfold readBytes
  refine List.map_congr_left fun i hi => h i (List.mem_range.1 hi)

theorem readBytes_writeBytes_self (mem : ℕ → UInt8) (addr : ℕ) (bs : List UInt8) :
    readBytes (writeBytes mem addr bs) addr bs.length = bs := by
  refine List.ext_getElem (length_readBytes _ _ _) fun i h1 h2 => ?_
  simp only [readBytes, List.getElem_map, List.getElem_range, writeBytes]
  rw [if_pos ⟨by omega, by omega⟩, Nat.add_sub_cancel_left, List.getD_eq_getElem _ _ h2]

theorem readBytes_writeBytes_of_disjoint (mem : ℕ → UInt8) {addr addr' len : ℕ} (bs : List UInt8)
    (h : addr + len ≤ addr' ∨ addr' + bs.length ≤ addr) :
    readBytes (writeBytes mem addr' bs) addr len = readBytes mem addr len := by
  refine readBytes_congr fun i hi => ?_
  unfold writeBytes
  rw [if_neg]
  omega

/-! ## The slots -/

/-- The slot of the message number `n`. -/
def slotAddr (n : ℕ) : ℕ := recvBase + kRecvMaxBytes * n

/-- The message that `SendMessage` has posted, where it is not taken to the other end yet. -/
def Channel.flying (s : Channel) : List (List UInt8) :=
  match s.sending with
  | .posted addr len => [readBytes s.sender.mem addr len]
  | _ => []

/-- The send buffer has room for what is posted or has just been sent. -/
def Channel.SendOk (s : Channel) : Prop :=
  match s.sending with
  | .idle => s.sender.sendNext ≤ sendBase + sendCap
  | .posted addr len =>
    len < kRecvMaxBytes ∧ s.sender.sendNext = addr ∧ addr + len ≤ sendBase + sendCap
  | .acked len => s.sender.sendNext + len ≤ sendBase + sendCap

/-- The messages `waiting` have come and are not returned. -/
structure ChannelInv (s : Channel) (waiting : List (List UInt8)) : Prop where
  sent : s.sent = s.got ++ waiting ++ s.flying
  send : s.SendOk
  ranges : ∀ x ∈ s.ranges, sendBase ≤ x.1 ∧ x.1 + x.2 ≤ sendBase + sendCap
  recvTotal : s.receiver.recvTotal = s.got.length % 2 ^ 32
  recvNext : s.receiver.recvNext = slotAddr (s.got.length % recvSlots)
  room : s.got.length % recvSlots + waiting.length ≤ recvSlots
  posted : s.posted = List.range' (slotAddr (s.got.length % recvSlots + waiting.length))
    (recvSlots - (s.got.length % recvSlots + waiting.length)) kRecvMaxBytes
  comps : s.comps = waiting.map fun msg => ⟨.success, msg.length⟩
  short : ∀ msg ∈ waiting, msg.length < kRecvMaxBytes
  bytes : ∀ j msg, waiting[j]? = some msg →
    readBytes s.receiver.mem (slotAddr (s.got.length % recvSlots + j)) msg.length = msg

theorem channelInv_init (mem mem' : ℕ → UInt8) : ChannelInv (channelInit mem mem') [] where
  sent := rfl
  send := by simp [Channel.SendOk, channelInit]
  ranges := by simp [channelInit]
  recvTotal := rfl
  recvNext := rfl
  room := Nat.zero_le _
  posted := rfl
  comps := rfl
  short := by simp
  bytes := by simp

/-- `SendMessage` puts the message where it fits into the send buffer. -/
theorem sendPost_spec {m m' : Messenger} {msg : List UInt8} {addr : ℕ}
    (h : sendPost m msg = .ok (m', addr)) : msg.length < kRecvMaxBytes ∧ m'.sendNext = addr ∧
      m'.mem = writeBytes m.mem addr msg ∧ addr + msg.length ≤ sendBase + sendCap := by
  unfold sendPost at h
  split_ifs at h with hlen hwrap
  all_goals
    obtain ⟨rfl, rfl⟩ := Prod.mk.inj (Except.ok.inj h)
    refine ⟨by omega, rfl, rfl, ?_⟩
  · have h1 : kRecvMaxBytes ≤ sendCap := by decide
    omega
  · omega

section Inv

variable {s s' : Channel} {waiting : List (List UInt8)}

theorem ChannelInv.send_step (H : ChannelInv s waiting) {msg : List UInt8}
    (hs : channelStep s (.send msg) = some s') : ChannelInv s' waiting := by
  simp only [channelStep] at hs
  split at hs
  · rename_i m addr hidle hpost
    obtain rfl := Option.some.inj hs
    obtain ⟨hlen, hnext, hmem, hfit⟩ := sendPost_spec hpost
    refine ⟨?_, ⟨hlen, hnext, hfit⟩, fun x hx => ?_, H.recvTotal, H.recvNext, H.room, H.posted,
      H.comps, H.short, H.bytes⟩
    · have hfly : s.flying = [] := by simp only [Channel.flying, hidle]
      simp only [Channel.flying, hmem, readBytes_writeBytes_self]
      rw [H.sent, hfly, List.append_nil]
    · rcases List.mem_append.1 hx with hx | hx
      · exact H.ranges x hx
      · rw [List.mem_singleton.1 hx]
        exact ⟨Nat.zero_le _, hfit⟩
  · obtain rfl := Option.some.inj hs
    exact H
  · cases hs

theorem slotAddr_succ (n : ℕ) : slotAddr (n + 1) = slotAddr n + kRecvMaxBytes := by
  unfold slotAddr
  rw [Nat.mul_succ, Nat.add_assoc]

theorem slotAddr_lt {n k : ℕ} (h : n < k) : slotAddr n + kRecvMaxBytes ≤ slotAddr k := by
  unfold slotAddr
  have h1 : kRecvMaxBytes * (n + 1) ≤ kRecvMaxBytes * k := Nat.mul_le_mul_left _ h
  rw [Nat.mul_succ] at h1
  omega

/-- A message is taken to the first posted slot, behind those that wait. -/
theorem ChannelInv.transmit_step (H : ChannelInv s waiting)
    (hs : channelStep s .transmit = some s') : ∃ msg, ChannelInv s' (waiting ++ [msg]) := by
  simp only [channelStep] at hs
  split at hs
  · rename_i addr len slot posted hsending hposted
    obtain rfl := Option.some.inj hs
    have hsend := H.send
    simp only [Channel.SendOk, hsending] at hsend
    obtain ⟨hlen, hnext, hfit⟩ := hsend
    have hpost := H.posted
    rw [hposted] at hpost
    have hroom : s.got.length % recvSlots + waiting.length < recvSlots := by
      by_contra h
      rw [Nat.sub_eq_zero_of_le (by omega)] at hpost
      cases hpost
    obtain ⟨k, hk⟩ : ∃ k, recvSlots - (s.got.length % recvSlots + waiting.length) = k + 1 :=
      ⟨_, (Nat.succ_pred_eq_of_pos (by omega)).symm⟩
    rw [hk, List.range'_succ, List.cons.injEq] at hpost
    obtain ⟨hslot, hrest⟩ := hpost
    have hread : (readBytes s.sender.mem addr len).length = len := length_readBytes _ _ _
    refine ⟨readBytes s.sender.mem addr len, ?_, ?_, H.ranges, H.recvTotal, H.recvNext, ?_, ?_, ?_,
      fun msg hmsg => ?_, fun j msg hj => ?_⟩
    · have hfly : s.flying = [readBytes s.sender.mem addr len] := by
        simp only [Channel.flying, hsending]
      simp only [Channel.flying, List.append_nil]
      rw [H.sent, hfly, List.append_assoc]
    · simp only [Channel.SendOk]
      omega
    · simp only [List.length_append, List.length_singleton]
      omega
    · simp only [List.length_append, List.length_singleton]
      rw [hrest, ← Nat.add_assoc, slotAddr_succ]
      congr 1
      omega
    · simp only [List.map_append, List.map_cons, List.map_nil, hread, H.comps]
    · rcases List.mem_append.1 hmsg with hmsg | hmsg
      · exact H.short msg hmsg
      · rw [List.mem_singleton.1 hmsg, hread]
        exact hlen
    · simp only []
      rcases Nat.lt_or_ge j waiting.length with hlt | hge
      · rw [List.getElem?_append_left hlt] at hj
        have hmsg := H.short msg (List.mem_of_getElem? hj)
        have h1 : slotAddr (s.got.length % recvSlots + j) + kRecvMaxBytes ≤ slot := by
          rw [hslot]
          exact slotAddr_lt (by omega)
        rw [readBytes_writeBytes_of_disjoint _ _ (.inl (by omega))]
        exact H.bytes j msg hj
      · rw [List.getElem?_append_right hge, List.getElem?_singleton] at hj
        split_ifs at hj with h0
        obtain rfl := Option.some.inj hj
        have hj' : j = waiting.length := by omega
        rw [hj', ← hslot]
        exact readBytes_writeBytes_self _ _ _
  · cases hs

theorem ChannelInv.complete_step (H : ChannelInv s waiting)
    (hs : channelStep s .complete = some s') : ChannelInv s' waiting := by
  simp only [channelStep] at hs
  split at hs
  · rename_i len hsending
    obtain rfl := Option.some.inj hs
    have hsend := H.send
    simp only [Channel.SendOk, hsending] at hsend
    refine ⟨?_, hsend, H.ranges, H.recvTotal, H.recvNext, H.room, H.posted, H.comps, H.short,
      H.bytes⟩
    have hfly : s.flying = [] := by simp only [Channel.flying, hsending]
    rw [H.sent, hfly]
    rfl
  · cases hs

theorem succ_mod_recvSlots (d : ℕ) :
    (d % 2 ^ 32 + 1) % 2 ^ 32 % recvSlots = (d + 1) % recvSlots := by
  unfold recvSlots
  omega

theorem prepareRecvBuffer_eq {m : Messenger} (h : m.recvTotal % recvSlots = 0) :
    prepareRecvBuffer m =
      some ({ m with recvNext := recvBase }, List.range' recvBase recvSlots kRecvMaxBytes) := by
  unfold prepareRecvBuffer
  rw [recvCap_div, if_pos h]

/-- The next message that waits is returned; after that in the last slot all are posted again. -/
theorem ChannelInv.deliver_next {msg : List UInt8} (H : ChannelInv s (msg :: waiting)) :
    ∃ r, deliverWc s.receiver ⟨.success, msg.length⟩ = some r ∧
      ChannelInv (s.received (waiting.map fun msg => ⟨.success, msg.length⟩) r) waiting := by
  have hread : readBytes s.receiver.mem s.receiver.recvNext msg.length = msg := by
    rw [H.recvNext]
    exact H.bytes 0 msg rfl
  have hroom := H.room
  have hposted := H.posted
  simp only [List.length_cons] at hroom hposted
  have hcap : recvBase + (recvCap - kRecvMaxBytes) = slotAddr (recvSlots - 1) := rfl
  have hmod : s.got.length % recvSlots < recvSlots := Nat.mod_lt _ (by decide)
  have hnext : s.receiver.recvNext + kRecvMaxBytes = slotAddr (s.got.length % recvSlots + 1) := by
    rw [H.recvNext, slotAddr_succ]
  have hsent : s.sent = (s.got ++ [msg]) ++ waiting ++ s.flying := by
    rw [H.sent]
    simp
  have hshort : ∀ m ∈ waiting, m.length < kRecvMaxBytes :=
    fun m hm => H.short m (List.mem_cons_of_mem _ hm)
  rcases Nat.lt_or_ge (s.got.length % recvSlots + 1) recvSlots with hlt | hge
  · have hd : (s.got.length + 1) % recvSlots = s.got.length % recvSlots + 1 := by
      unfold recvSlots at hlt ⊢
      omega
    have hstay : ¬ slotAddr (recvSlots - 1) < slotAddr (s.got.length % recvSlots + 1) := by
      unfold slotAddr
      rw [not_lt]
      exact Nat.add_le_add_left (Nat.mul_le_mul_left _ (by omega)) _
    refine ⟨(⟨.ok, some msg⟩, { s.receiver with
      recvTotal := (s.receiver.recvTotal + 1) % 2 ^ 32
      recvNext := s.receiver.recvNext + kRecvMaxBytes }, []), ?_, ?_⟩
    · simp only [deliverWc, hread, hcap, hnext, if_neg hstay]
    · simp only [Channel.received, Status.ok, if_true, Option.toList_some, List.append_nil]
      refine ⟨hsent, H.send, H.ranges, ?_, ?_, ?_, ?_, rfl, hshort, fun j m hj => ?_⟩
      · simp only [List.length_append, List.length_singleton, H.recvTotal]
        omega
      · simp only [List.length_append, List.length_singleton, hd, hnext]
      · simp only [List.length_append, List.length_singleton, hd]
        omega
      · simp only [List.length_append, List.length_singleton, hd]
        rw [hposted]
        congr 2 <;> omega
      · simp only [List.length_append, List.length_singleton, hd]
        have h1 := H.bytes (j + 1) m hj
        rwa [Nat.add_assoc, Nat.add_comm 1 j]
  · have hd : (s.got.length + 1) % recvSlots = 0 := by
      unfold recvSlots at hge hmod ⊢
      omega
    have hnil : waiting = [] := List.length_eq_zero_iff.1 (by omega)
    have hover : slotAddr (recvSlots - 1) < slotAddr (s.got.length % recvSlots + 1) := by
      have h1 : recvSlots - 1 < s.got.length % recvSlots + 1 := by omega
      have h2 := slotAddr_lt h1
      have h3 : 0 < kRecvMaxBytes := by decide
      omega
    have hassert : (s.receiver.recvTotal + 1) % 2 ^ 32 % recvSlots = 0 := by
      rw [H.recvTotal, succ_mod_recvSlots, hd]
    refine ⟨(⟨.ok, some msg⟩, { s.receiver with
      recvTotal := (s.receiver.recvTotal + 1) % 2 ^ 32
      recvNext := recvBase }, List.range' recvBase recvSlots kRecvMaxBytes), ?_, ?_⟩
    · simp only [deliverWc, hread, hcap, hnext, if_pos hover]
      rw [prepareRecvBuffer_eq hassert]
      rfl
    · simp only [Channel.received, Status.ok, if_true, Option.toList_some]
      subst hnil
      refine ⟨hsent, H.send, H.ranges, ?_, ?_, ?_, ?_, rfl, hshort, by simp⟩
      · simp only [List.length_append, List.length_singleton, H.recvTotal]
        omega
      · simp only [List.length_append, List.length_singleton, hd]
        rfl
      · simp only [List.length_append, List.length_singleton, hd]
        decide
      · simp only [List.length_append, List.length_singleton, hd]
        rw [hposted, Nat.sub_eq_zero_of_le (by simpa using hge)]
        rfl

/-- A call that returns no message and leaves the end as it is changes nothing. -/
theorem ChannelInv.received_none (H : ChannelInv s []) {r : StatusVal (List UInt8)}
    (hr : r.status.t ≠ .ok) : ChannelInv (s.received [] (r, s.receiver, [])) [] := by
  simp only [Channel.received, if_neg hr, List.append_nil]
  exact ⟨H.sent, H.send, H.ranges, H.recvTotal, H.recvNext, H.room, H.posted, rfl, H.short, H.bytes⟩

theorem recvFails_ne_ok (again : Bool) (error : String) :
    (recvFails again error).status.t ≠ .ok := by
  unfold recvFails
  split_ifs <;> simp

/-- A call of `TryDeliverMessage` returns, and keeps the invariant. -/
theorem ChannelInv.deliver_step (H : ChannelInv s waiting) :
    ∃ s' waiting', channelStep s .deliver = some s' ∧ ChannelInv s' waiting' := by
  have hcomps := H.comps
  cases waiting with
  | nil =>
    rw [List.map_nil] at hcomps
    refine ⟨_, [], ?_, H.received_none (recvFails_ne_ok true "")⟩
    simp only [channelStep, hcomps, tryDeliverMessage, Option.map_some]
  | cons msg waiting =>
    rw [List.map_cons] at hcomps
    obtain ⟨r, hr, H'⟩ := H.deliver_next
    refine ⟨_, waiting, ?_, H'⟩
    simp only [channelStep, hcomps, tryDeliverMessage, hr, Option.map_some]

/-- The queue is not empty, or the record does not happen to say that a message has come. -/
def NoPhantom (s : Channel) : ChannelEvent → Prop
  | .receive stale => s.comps ≠ [] ∨ stale.status ≠ .success
  | _ => True

instance (s : Channel) (e : ChannelEvent) : Decidable (NoPhantom s e) := by
  unfold NoPhantom
  split <;> infer_instance

theorem deliverWc_of_ne_success {m : Messenger} {wc : Wc} (h : wc.status ≠ .success) :
    ∃ r, deliverWc m wc = some (r, m, []) ∧ r.status.t ≠ .ok := by
  unfold deliverWc
  split
  · exact ⟨_, rfl, by simp⟩
  · contradiction
  · exact ⟨_, rfl, by simp⟩

theorem ChannelInv.receive_step (H : ChannelInv s waiting) {stale : Wc}
    (hok : NoPhantom s (.receive stale)) (hs : channelStep s (.receive stale) = some s') :
    ∃ waiting', ChannelInv s' waiting' := by
  have hcomps := H.comps
  cases waiting with
  | nil =>
    rw [List.map_nil] at hcomps
    have hstale : stale.status ≠ .success := hok.resolve_left (by simp [hcomps])
    obtain ⟨r, hr, hne⟩ := deliverWc_of_ne_success (m := s.receiver) hstale
    simp only [channelStep, hcomps, tryPollMessage, hr, Option.map_some, Option.some.injEq] at hs
    subst hs
    exact ⟨[], H.received_none hne⟩
  | cons msg waiting =>
    rw [List.map_cons] at hcomps
    obtain ⟨r, hr, H'⟩ := H.deliver_next
    simp only [channelStep, hcomps, tryPollMessage, hr, Option.map_some, Option.some.injEq] at hs
    subst hs
    exact ⟨waiting, H'⟩

theorem ChannelInv.step {e : ChannelEvent} (H : ∃ waiting, ChannelInv s waiting)
    (hok : NoPhantom s e) (hs : channelStep s e = some s') :
    ∃ waiting, ChannelInv s' waiting := by
  obtain ⟨waiting, H⟩ := H
  cases e with
  | send msg => exact ⟨waiting, H.send_step hs⟩
  | transmit =>
    obtain ⟨msg, H'⟩ := H.transmit_step hs
    exact ⟨waiting ++ [msg], H'⟩
  | complete => exact ⟨waiting, H.complete_step hs⟩
  | deliver =>
    obtain ⟨s₁, waiting', h1, H'⟩ := H.deliver_step
    obtain rfl := Option.some.inj (h1.symm.trans hs)
    exact ⟨waiting', H'⟩
  | receive stale => exact H.receive_step hok hs

theorem run_channelInv {mem mem' : ℕ → UInt8} {es : List ChannelEvent}
    (hr : run channelStep (channelInit mem mem') es = some s)
    (hm : Meets channelStep NoPhantom (channelInit mem mem') es) :
    ∃ waiting, ChannelInv s waiting :=
  run_inv (I := fun s => ∃ waiting, ChannelInv s waiting)
    (fun _ _ _ H hok hs => ChannelInv.step H hok hs) hr hm ⟨[], channelInv_init mem mem'⟩

theorem ChannelInv.got_prefix (H : ChannelInv s waiting) : s.got <+: s.sent := by
  rw [H.sent, List.append_assoc]
  exact List.prefix_append _ _

end Inv

/-- `SendMessage` at one end and `TryDeliverMessage` at the other: the messages returned are the
first of those sent, every message is posted from the send half, the next slot is the one that the
number of messages says, and the assertion of `PrepareRecvBuffer` does not fail. -/
theorem messenger_fifo (mem mem' : ℕ → UInt8) (es : List ChannelEvent) (s : Channel)
    (hr : run channelStep (channelInit mem mem') es = some s)
    (hd : ∀ e ∈ es, ∀ stale, e ≠ .receive stale) :
    s.got <+: s.sent ∧
    (∀ x ∈ s.ranges, sendBase ≤ x.1 ∧ x.1 + x.2 ≤ sendBase + sendCap) ∧
    s.receiver.recvNext =
      recvBase + kRecvMaxBytes * (s.receiver.recvTotal % (recvCap / kRecvMaxBytes)) ∧
    (channelStep s .deliver).isSome := by
  have hm : Meets channelStep NoPhantom (channelInit mem mem') es := by
    refine meets_of_inv (J := fun _ => True) (fun s e _ he => ?_) (fun _ _ _ _ _ _ => trivial) hd
      trivial
    cases e with
    | receive stale => exact absurd rfl (he stale)
    | _ => trivial
  obtain ⟨waiting, H⟩ := run_channelInv hr hm
  refine ⟨H.got_prefix, H.ranges, ?_, ?_⟩
  · rw [H.recvNext, H.recvTotal, recvCap_div, slotAddr]
    have h1 : s.got.length % 2 ^ 32 % recvSlots = s.got.length % recvSlots := by
      unfold recvSlots
      omega
    rw [h1]
  · obtain ⟨s', -, h1, -⟩ := H.deliver_step
    rw [h1]
    rfl

/-- Two messages, of which the first is returned while the second is sent. -/
def twoSends : List ChannelEvent :=
  [.send [1, 2, 3], .transmit, .complete, .send [4], .deliver, .transmit]

theorem messenger_fifo_twoSends : ∃ s,
    run channelStep (channelInit (fun _ => 0) fun _ => 0) twoSends = some s ∧
    s.got = [[1, 2, 3]] ∧ s.ranges = [(0, 3), (3, 1)] ∧ s.got <+: s.sent ∧
    s.receiver.recvNext =
      recvBase + kRecvMaxBytes * (s.receiver.recvTotal % (recvCap / kRecvMaxBytes)) := by
  obtain ⟨s, hs, hg⟩ := Option.map_eq_some_iff.1
    (show (run channelStep (channelInit (fun _ => 0) fun _ => 0) twoSends).map
      (fun s => (s.got, s.ranges)) = some ([[1, 2, 3]], [(0, 3), (3, 1)]) by decide +kernel)
  simp only [Prod.mk.injEq] at hg
  obtain ⟨h1, -, h2, -⟩ := messenger_fifo (fun _ => 0) (fun _ => 0) twoSends s hs
    (by simp [twoSends])
  exact ⟨s, hs, hg.1, hg.2, h1, h2⟩

/-! ## Phantom messages -/

/-- A call that gets no completion returns no message and leaves the end as it is. -/
def PollSound (m : Messenger) (stale : Wc) (poll : CqPoll) : Prop :=
  (∀ wc, poll ≠ .one wc) →
    ∃ r, tryPollMessage m stale poll = some (r, m, []) ∧ r.status.t ≠ .ok

theorem pollSound_iff (m : Messenger) (stale : Wc) (poll : CqPoll) :
    PollSound m stale poll ↔ ¬ (poll = .empty ∧ stale.status = .success) := by
  constructor
  · rintro h ⟨rfl, hstale⟩
    obtain ⟨r, hr, hne⟩ := h (by simp)
    simp only [tryPollMessage, deliverWc, hstale] at hr
    split_ifs at hr
    · obtain ⟨x, -, hx⟩ := Option.map_eq_some_iff.1 hr
      rw [← (Prod.mk.inj hx).1] at hne
      exact hne rfl
    · rw [← (Prod.mk.inj (Option.some.inj hr)).1] at hne
      exact hne rfl
  · intro h hone
    cases poll with
    | fails again error => exact ⟨_, rfl, recvFails_ne_ok again error⟩
    | empty => exact deliverWc_of_ne_success fun hstale => h ⟨rfl, hstale⟩
    | one wc => exact absurd rfl (hone wc)

/-- `TryPollMessage` invents no message exactly if it does not find the queue empty with a record
that says success; and in a run in which it never does, the messages returned are the first of those
sent. -/
theorem poll_sound (m : Messenger) (stale : Wc) (poll : CqPoll) (mem mem' : ℕ → UInt8)
    (es : List ChannelEvent) (s : Channel)
    (hr : run channelStep (channelInit mem mem') es = some s)
    (hm : Meets channelStep NoPhantom (channelInit mem mem') es) :
    (PollSound m stale poll ↔ ¬ (poll = .empty ∧ stale.status = .success)) ∧ s.got <+: s.sent := by
  obtain ⟨waiting, H⟩ := run_channelInv hr hm
  exact ⟨pollSound_iff m stale poll, H.got_prefix⟩

/-- A record that says flushed, on an empty queue; then a message comes. -/
def pollRun : List ChannelEvent :=
  [.receive ⟨.wrFlushErr, 0⟩, .send [7], .transmit, .receive ⟨.success, 9⟩]

theorem poll_sound_pollRun : ∃ s,
    run channelStep (channelInit (fun _ => 0) fun _ => 0) pollRun = some s
    ∧ s.got = [[7]] ∧ PollSound s.receiver ⟨.wrFlushErr, 0⟩ .empty ∧ s.got <+: s.sent := by
  obtain ⟨s, hs, hg⟩ := Option.map_eq_some_iff.1
    (show (run channelStep (channelInit (fun _ => 0) fun _ => 0) pollRun).map Channel.got
      = some [[7]] by decide +kernel)
  obtain ⟨h1, h2⟩ := poll_sound s.receiver ⟨.wrFlushErr, 0⟩ .empty (fun _ => 0) (fun _ => 0)
    pollRun s hs (by decide +kernel)
  exact ⟨s, hs, hg, h1.2 (by simp), h2⟩

/-- On an empty queue, with a record left from an earlier call: a message that was never sent. -/
theorem phantom_message : (∃ s, run channelStep (channelInit (fun _ => 0) fun _ => 0)
      [.receive ⟨.success, 2⟩] = some s ∧ s.sent = [] ∧ s.got = [[0, 0]] ∧ ¬ s.got <+: s.sent) ∧
    ¬ PollSound (channelInit (fun _ => 0) fun _ => 0).receiver ⟨.success, 2⟩ .empty := by
  refine ⟨?_, fun h => (pollSound_iff _ _ _).1 h ⟨rfl, rfl⟩⟩
  obtain ⟨s, hs, hg⟩ := Option.map_eq_some_iff.1
    (show (run channelStep (channelInit (fun _ => 0) fun _ => 0) [.receive ⟨.success, 2⟩]).map
      (fun s => (s.sent, s.got)) = some ([], [[0, 0]]) by decide +kernel)
  simp only [Prod.mk.injEq] at hg
  refine ⟨s, hs, hg.1, hg.2, fun h => ?_⟩
  rw [hg.1, hg.2] at h
  exact absurd h (by decide)

end Rome

import Rome.Bootstrap
import Rome.Lib.Exchange

/-!
# Every node starts with what its peers have sent

A node's start is an exchange of messages with its peers (`bootstrap_sim`): the starting of the
manager and the connecting are the exchange's time before, whatever they return. So a node returns
only when each of its peers has connected to all of its own and has sent it its message, and its
table is made of the messages that its peers send it; and unless a call fails, none waits forever.
-/

namespace Rome

open Machine

variable {ι M T X : Type*}

/-- The place of a node in the exchange. -/
def InitPhase.place : InitPhase ι → Exchange.Phase ι
  | .start | .connecting _ => .before
  | .sending rest => .sending rest
  | .delivering rest => .receiving rest
  | .returned st => if st.t = .ok then .done else .stopped
  | .died => .stopped

/-- The nodes are where those of the exchange are, and their tables are made of what these got. -/
structure Bootstrap.Sim (B : Bootstrap ι M T) (s : BootstrapState ι M T X)
    (e : Exchange.State ι M X) : Prop where
  phase : ∀ a, (s.phase a).place = e.phase a
  channel : s.channel = e.channel
  sent : s.sent = e.sent
  table : ∀ a, s.table a = (e.got a).foldl (fun t x => B.store a t x.1 x.2) B.empty

section Sim

variable [DecidableEq ι] {B : Bootstrap ι M T} {s s' : BootstrapState ι M T X}
  {e : Exchange.State ι M X} {a p : ι}

omit [DecidableEq ι] in
theorem sim_init (B : Bootstrap ι M T) : B.Sim (bootstrapInit X B) (Exchange.init ι M X) :=
  ⟨fun _ => rfl, rfl, rfl, fun _ => rfl⟩

namespace Bootstrap.Sim

theorem goto (h : B.Sim s e) {ph : InitPhase ι} {ph' : Exchange.Phase ι} (hph : ph.place = ph') :
    B.Sim (s.goto a ph) (e.goto a ph') := by
  refine ⟨fun b => ?_, h.channel, h.sent, h.table⟩
  by_cases hba : b = a
  · subst hba
    simp [BootstrapState.goto, Exchange.State.goto, hph]
  · simp [BootstrapState.goto, Exchange.State.goto, hba, h.phase]

/-- A node stays where it is. -/
theorem stay (h : B.Sim s e) {ph : InitPhase ι} (hph : ph.place = (s.phase a).place) :
    B.Sim (s.goto a ph) e := by
  refine ⟨fun b => ?_, h.channel, h.sent, h.table⟩
  by_cases hba : b = a
  · subst hba
    simp [BootstrapState.goto, hph, h.phase]
  · simp [BootstrapState.goto, hba, h.phase]

theorem setChannel (h : B.Sim s e) {q : List (M ⊕ X)} :
    B.Sim (s.setChannel a p q) (e.setChannel a p q) :=
  ⟨h.phase, by rw [BootstrapState.setChannel, Exchange.State.setChannel, h.channel], h.sent,
    h.table⟩

theorem say (h : B.Sim s e) : B.Sim (s.say B a p) (e.say B.message a p) :=
  ⟨h.phase, by simp [BootstrapState.say, Exchange.State.say, BootstrapState.setChannel,
      Exchange.State.setChannel, h.channel],
    by simp [BootstrapState.say, Exchange.State.say, h.sent], h.table⟩

theorem hear (h : B.Sim s e) {m : M} : B.Sim (s.hear B a p m) (e.hear a p m) := by
  refine ⟨h.phase, h.channel, h.sent, fun b => ?_⟩
  by_cases hba : b = a
  · subst hba
    simp [BootstrapState.hear, Exchange.State.hear, h.table]
  · simp [BootstrapState.hear, Exchange.State.hear, hba, h.table]

omit [DecidableEq ι] in
theorem phase_eq (h : B.Sim s e) {ph : InitPhase ι} (hph : s.phase a = ph) :
    e.phase a = ph.place := by
  rw [← h.phase, hph]

/-- A node whose part in the exchange has not ended can fail or die. -/
theorem stop (h : B.Sim s e) {ph : InitPhase ι} (hdone : e.phase a ≠ .done)
    (hstop : e.phase a ≠ .stopped) (hph : ph.place = .stopped) :
    ∃ e', B.Sim (s.goto a ph) e'
      ∧ (e' = e ∨ ∃ ev, Exchange.step B.peers B.message e ev = some e') :=
  ⟨_, h.goto hph, .inr ⟨.stop a false, Exchange.step_stop hdone hstop⟩⟩

end Bootstrap.Sim

omit [DecidableEq ι] in
theorem place_failed {st : Status} (h : st.t ≠ .ok) :
    (InitPhase.returned st : InitPhase ι).place = .stopped := if_neg h

/-- A step of a node is one of the exchange, or of the time before it. -/
theorem bootstrap_sim {ev : BootstrapEvent ι X} (h : B.Sim s e)
    (hs : bootstrapStep B s ev = some s') :
    ∃ e', B.Sim s' e' ∧ (e' = e ∨ ∃ ev', Exchange.step B.peers B.message e ev' = some e') := by
  cases ev with
  | start a st =>
    simp only [bootstrapStep] at hs
    split at hs
    · rename_i hph
      obtain rfl := Option.some.inj hs
      have he : e.phase a = .before := h.phase_eq hph
      split_ifs with hok
      · exact ⟨e, h.stay (by rw [hph]; rfl), .inl rfl⟩
      · exact h.stop (by simp [he]) (by simp [he]) (place_failed hok)
    · cases hs
  | connect a st =>
    simp only [bootstrapStep] at hs
    split at hs
    · rename_i p rest hph
      obtain rfl := Option.some.inj hs
      have he : e.phase a = .before := h.phase_eq hph
      split_ifs with hun hok
      · exact ⟨e, h.stay (by rw [hph]), .inl rfl⟩
      · exact ⟨e, h.stay (by rw [hph]; rfl), .inl rfl⟩
      · exact h.stop (by simp [he]) (by simp [he]) (place_failed hok)
    · cases hs
  | send a st arrives =>
    simp only [bootstrapStep] at hs
    split at hs
    · rename_i p rest hph
      have he : e.phase a = .sending (p :: rest) := h.phase_eq hph
      split_ifs at hs with hok harr
      · obtain rfl := Option.some.inj hs
        exact ⟨_, h.say.goto rfl, .inr ⟨.send a, Exchange.step_send he⟩⟩
      · obtain rfl := Option.some.inj hs
        exact ⟨_, h.say.goto (place_failed hok), .inr ⟨.stop a true, Exchange.step_stop_send he⟩⟩
      · obtain rfl := Option.some.inj hs
        exact h.stop (by simp [he]) (by simp [he]) (place_failed hok)
    · cases hs
  | deliver a st =>
    simp only [bootstrapStep] at hs
    split at hs
    · rename_i p rest hph
      have he : e.phase a = .receiving (p :: rest) := h.phase_eq hph
      split_ifs at hs with hok
      · split at hs
        · rename_i m q hq
          obtain rfl := Option.some.inj hs
          rw [h.channel] at hq
          exact ⟨_, h.setChannel.hear.goto rfl, .inr ⟨.receive a, Exchange.step_receive he hq⟩⟩
        · cases hs
      · obtain rfl := Option.some.inj hs
        exact h.stop (by simp [he]) (by simp [he]) (place_failed hok)
    · cases hs
  | next a =>
    simp only [bootstrapStep] at hs
    split at hs
    · rename_i hph
      obtain rfl := Option.some.inj hs
      exact ⟨_, h.goto rfl, .inr ⟨.enter a, Exchange.step_enter (h.phase_eq hph)⟩⟩
    · rename_i hph
      obtain rfl := Option.some.inj hs
      exact ⟨_, h.goto rfl, .inr ⟨.turn a, Exchange.step_turn (h.phase_eq hph)⟩⟩
    · rename_i hph
      obtain rfl := Option.some.inj hs
      exact ⟨_, h.goto rfl, .inr ⟨.finish a, Exchange.step_finish (h.phase_eq hph)⟩⟩
    · cases hs
  | die a =>
    simp only [bootstrapStep] at hs
    split at hs
    · rename_i p rest hph
      obtain rfl := Option.some.inj hs
      have he : e.phase a = .sending (p :: rest) := h.phase_eq hph
      exact h.stop (by simp [he]) (by simp [he]) rfl
    · rename_i p rest hph
      obtain rfl := Option.some.inj hs
      have he : e.phase a = .receiving (p :: rest) := h.phase_eq hph
      exact h.stop (by simp [he]) (by simp [he]) rfl
    · cases hs
  | post a p x =>
    simp only [bootstrapStep] at hs
    split at hs
    · rename_i st hph
      split_ifs at hs with hok
      obtain rfl := Option.some.inj hs
      have he : e.phase a = .done := (h.phase_eq hph).trans (if_pos hok.1)
      rw [h.channel]
      exact ⟨_, h.setChannel, .inr ⟨.post a p x, Exchange.step_post he hok.2 x⟩⟩
    · cases hs
  | take a p =>
    simp only [bootstrapStep] at hs
    split at hs
    · rename_i st hph
      split_ifs at hs with hok
      split at hs
      · rename_i y q hq
        obtain rfl := Option.some.inj hs
        rw [h.channel] at hq
        have he : e.phase a = .done := (h.phase_eq hph).trans (if_pos hok.1)
        exact ⟨_, h.setChannel, .inr ⟨.take a p, Exchange.step_take he hok.2 hq⟩⟩
      · cases hs
    · cases hs

/-- A run is one of the exchange. -/
theorem bootstrap_run (hn : ∀ a, (B.peers a).Nodup) {es : List (BootstrapEvent ι X)}
    (hr : run (bootstrapStep B) (bootstrapInit X B) es = some s) :
    ∃ e, B.Sim s e ∧ Exchange.Inv B.peers B.message e := by
  refine run_inv' (I := fun s => ∃ e, B.Sim s e ∧ Exchange.Inv B.peers B.message e) ?_ hr
    ⟨_, sim_init B, Exchange.inv_init⟩
  rintro s ev s' ⟨e, h, H⟩ hs
  obtain ⟨e', h', rfl | ⟨ev', he⟩⟩ := bootstrap_sim h hs
  · exact ⟨e', h', H⟩
  · exact ⟨e', h', H.step hn he⟩

end Sim

/-! ## What a node returns with -/

section Results

variable [DecidableEq ι] {B : Bootstrap ι M T} {s s' : BootstrapState ι M T X}

/-- A node has connected to all of its peers. One that has returned an error has done so if it has
sent to one of them. -/
def BootstrapState.Connected (s : BootstrapState ι M T X) (p : ι) : Prop :=
  match s.phase p with
  | .start | .connecting _ => False
  | .returned st => st.t = .ok ∨ s.sent p ≠ []
  | .sending _ | .delivering _ | .died => True

omit [DecidableEq ι] in
theorem connected_of_sent {p : ι} (h : (s.phase p).place ≠ .before) (hs : s.sent p ≠ []) :
    s.Connected p := by
  unfold BootstrapState.Connected
  cases hph : s.phase p with
  | start => exact h (by rw [hph]; rfl)
  | connecting rest => exact h (by rw [hph]; rfl)
  | returned st => exact .inr hs
  | sending rest => trivial
  | delivering rest => trivial
  | died => trivial

/-- A node that returns has made its table of what its peers send, and each of them has connected to
all of its own and sent its message to the node. -/
theorem bootstrap_returned (hn : ∀ a, (B.peers a).Nodup) {es : List (BootstrapEvent ι X)}
    (hr : run (bootstrapStep B) (bootstrapInit X B) es = some s) {a : ι}
    (ha : s.phase a = .returned .ok) :
    s.table a = (B.peers a).foldl (fun t p => B.store a t p (B.message p)) B.empty
      ∧ ∀ p ∈ B.peers a, s.Connected p ∧ a ∈ s.sent p := by
  obtain ⟨e, h, H⟩ := bootstrap_run hn hr
  have hdone : e.phase a = .done := by
    rw [← h.phase, ha]
    rfl
  obtain ⟨hgot, hsent⟩ := H.done hdone
  refine ⟨?_, fun p hp => ⟨connected_of_sent (fun hb => ?_) ?_, h.sent ▸ hsent p hp⟩⟩
  · rw [h.table, hgot, List.foldl_map]
  · have hpl := H.place p
    rw [← h.phase, hb] at hpl
    have := hsent p hp
    rw [hpl.1] at this
    cases this
  · rw [h.sent]
    exact List.ne_nil_of_mem (hsent p hp)

theorem lookup_append_singleton {β : Type*} (t : List (ι × β)) (p q : ι) (x : β) :
    (t ++ [(p, x)]).lookup q = (t.lookup q).or (if q = p then some x else none) := by
  rw [List.lookup_append, List.lookup_cons]
  split_ifs with h
  · simp [h]
  · simp [beq_eq_false_iff_ne.2 h]

theorem lookup_emplace {β : Type*} (t : List (ι × β)) (p q : ι) (x : β) :
    (emplace t p x).lookup q = (t.lookup q).or (if q = p then some x else none) := by
  unfold emplace
  split_ifs with h hq hq
  · subst hq
    obtain ⟨y, hy⟩ := Option.isSome_iff_exists.1 h
    rw [hy, Option.some_or]
  · rw [Option.or_none]
  · rw [lookup_append_singleton, if_pos hq]
  · rw [lookup_append_singleton, if_neg hq]

/-- The entries for one peer after the other, where each is `f` of its peer. -/
theorem lookup_foldl {β : Type*} {put : List (ι × β) → ι → List (ι × β)} {f : ι → β}
    (hput : ∀ t p q, (∀ r v, t.lookup r = some v → v = f r) →
      (put t p).lookup q = if q = p then some (f p) else t.lookup q) :
    ∀ (ps : List ι) (t : List (ι × β)), (∀ r v, t.lookup r = some v → v = f r) → ∀ q,
      (ps.foldl put t).lookup q = if q ∈ ps then some (f q) else t.lookup q
  | [], _, _, _ => rfl
  | p :: ps, t, ht, q => by
    have hp := fun q => hput t p q ht
    have ht' : ∀ r v, (put t p).lookup r = some v → v = f r := by
      intro r v hr
      rw [hp] at hr
      split_ifs at hr with hrp
      · rw [hrp]
        exact (Option.some.inj hr).symm
      · exact ht r v hr
    rw [List.foldl_cons, lookup_foldl hput ps _ ht', hp]
    by_cases hq : q = p
    · simp [hq]
    · simp [hq]

/-- When `MemoryPool::Init` returns, `conn_info_` has each peer's own key, and no other entry: each
peer has registered its memory, connected to all of its own peers and sent its key. -/
theorem memory_pool_init (peers : ι → List ι) (mr : ι → MemoryRegion)
    (hn : ∀ a, (peers a).Nodup) (es : List (BootstrapEvent ι X))
    (s : BootstrapState ι RemoteObjectProto (List (ι × ConnInfo ι)) X)
    (hr : run (bootstrapStep (memoryPoolInit peers mr)) (bootstrapInit X (memoryPoolInit peers mr))
      es = some s) (a : ι) (ha : s.phase a = .returned .ok) :
    (∀ p, (s.table a).lookup p
        = if p ∈ peers a then some ⟨p, (mr p).rkey, (mr a).lkey⟩ else none)
      ∧ ∀ p ∈ peers a, s.Connected p ∧ a ∈ s.sent p := by
  obtain ⟨htable, hsent⟩ := bootstrap_returned hn hr ha
  have hput : ∀ (t : List (ι × ConnInfo ι)) p q,
      (∀ r v, t.lookup r = some v → v = ⟨r, (mr r).rkey, (mr a).lkey⟩) →
      (emplace t p ⟨p, (mr p).rkey, (mr a).lkey⟩).lookup q
        = if q = p then some ⟨p, (mr p).rkey, (mr a).lkey⟩ else t.lookup q := by
    intro t p q ht
    rw [lookup_emplace]
    split_ifs with hq
    · subst hq
      cases hl : t.lookup q with
      | none => rfl
      | some v =>
        rw [ht q v hl]
        rfl
    · rw [Option.or_none]
  refine ⟨fun p => ?_, hsent⟩
  rw [htable]
  exact lookup_foldl (f := fun p => (⟨p, (mr p).rkey, (mr a).lkey⟩ : ConnInfo ι)) hput (peers a) []
    (fun r v hr => by cases hr) p

/-- Two nodes that have each other and themselves for peers. The first starts before the second and
is told to connect again, and waits for the second's message. -/
def bothStart : List (BootstrapEvent Bool Unit) :=
  [.start false .ok, .connect false ⟨.unavailable, some "Retry"⟩, .connect false .ok,
    .connect false .ok, .next false, .send false .ok false, .send false .ok false, .next false,
    .deliver false .ok, .start true .ok, .connect true .ok, .connect true .ok, .next true,
    .send true .ok false, .deliver false .ok, .next false]

def bothPeers (_ : Bool) : List Bool := [false, true]

def bothRegions (a : Bool) : MemoryRegion := if a then ⟨4096, 2, 7⟩ else ⟨8192, 1, 5⟩

theorem memory_pool_init_bothStart : ∃ s,
    run (bootstrapStep (memoryPoolInit bothPeers bothRegions))
      (bootstrapInit Unit (memoryPoolInit bothPeers bothRegions)) bothStart = some s
    ∧ (s.table false).lookup true = some ⟨true, 7, 1⟩ ∧ false ∈ s.sent true := by
  have hrun : (run (bootstrapStep (memoryPoolInit bothPeers bothRegions))
      (bootstrapInit Unit (memoryPoolInit bothPeers bothRegions)) bothStart).map
      (fun s => s.phase false) = some (.returned .ok) := by decide +kernel
  obtain ⟨s, hs, hph⟩ := Option.map_eq_some_iff.1 hrun
  obtain ⟨h1, h2⟩ := memory_pool_init bothPeers bothRegions (by decide) bothStart s hs false hph
  exact ⟨s, hs, h1 true, (h2 true (by decide)).2⟩

end Results

/-! ## Progress -/

/-- The steps that a node with `n` peers has still to take, if no call fails. -/
def InitPhase.left (n : ℕ) : InitPhase ι → ℕ
  | .start => 3 * n + 4
  | .connecting rest => rest.length + 2 * n + 3
  | .sending rest => rest.length + n + 2
  | .delivering rest => rest.length + 1
  | .returned _ | .died => 0

/-- No call fails, unless it is a `Connect` that is to be made again. -/
def BootstrapEvent.succeeds : BootstrapEvent ι X → Bool
  | .start _ st | .send _ st _ | .deliver _ st => st.t = .ok
  | .connect _ st => st.t = .ok ∨ st.t = .unavailable
  | .die _ => false
  | .next _ | .post _ _ _ | .take _ _ => true

/-- A step of `Init` that is not to be made again. -/
def BootstrapEvent.moves : BootstrapEvent ι X → Bool
  | .start _ _ | .send _ _ _ | .deliver _ _ | .next _ => true
  | .connect _ st => st.t ≠ .unavailable
  | .die _ | .post _ _ _ | .take _ _ => false

section Progress

variable {B : Bootstrap ι M T} {s s' : BootstrapState ι M T X}

/-- The steps that the nodes have still to take. -/
def BootstrapState.left [Fintype ι] (B : Bootstrap ι M T) (s : BootstrapState ι M T X) : ℕ :=
  ∑ a, (s.phase a).left (B.peers a).length

/-- No node has returned an error or died. -/
def BootstrapState.Sound (s : BootstrapState ι M T X) : Prop :=
  ∀ a st, s.phase a = .returned st ∨ s.phase a = .died → s.phase a = .returned .ok

variable [DecidableEq ι]

theorem BootstrapState.left_goto [Fintype ι] {t : BootstrapState ι M T X} {a : ι}
    {ph : InitPhase ι} {k : ℕ} (ht : t.phase = s.phase)
    (hph : ph.left (B.peers a).length + k = (s.phase a).left (B.peers a).length) :
    (t.goto a ph).left B + k = s.left B := by
  have h : (fun b => ((t.goto a ph).phase b).left (B.peers b).length)
      = Function.update (fun b => (s.phase b).left (B.peers b).length) a
        (ph.left (B.peers a).length) := by
    funext b
    by_cases hba : b = a
    · subst hba
      simp [BootstrapState.goto]
    · simp [BootstrapState.goto, hba, ht]
  have hsum := Exchange.left_update (fun b => (s.phase b).left (B.peers b).length) a
    (ph.left (B.peers a).length)
  rw [← h] at hsum
  simp only [BootstrapState.left] at hsum ⊢
  omega

theorem BootstrapState.Sound.goto (h : s.Sound) {t : BootstrapState ι M T X} {a : ι}
    {ph : InitPhase ι} (ht : t.phase = s.phase)
    (hph : ∀ st, ph = .returned st ∨ ph = .died → ph = .returned .ok) : (t.goto a ph).Sound := by
  intro b st hb
  by_cases hba : b = a
  · subst hba
    simp only [BootstrapState.goto, Function.update_self] at hb ⊢
    exact hph st hb
  · simp only [BootstrapState.goto, Function.update_of_ne hba, ht] at hb ⊢
    exact h b st hb

/-- A step in which no call fails is one of those that were left, unless it is to be made again. -/
theorem bootstrapStep_left [Fintype ι] {ev : BootstrapEvent ι X}
    (hs : bootstrapStep B s ev = some s') (hok : ev.succeeds = true) :
    s'.left B + (if ev.moves then 1 else 0) = s.left B ∧ (s.Sound → s'.Sound) := by
  cases ev with
  | start a st =>
    have hst : st.t = .ok := of_decide_eq_true hok
    simp only [bootstrapStep, if_pos hst] at hs
    split at hs
    · rename_i hph
      obtain rfl := Option.some.inj hs
      refine ⟨BootstrapState.left_goto rfl ?_, fun h => h.goto rfl (by simp)⟩
      rw [hph]
      simp only [InitPhase.left, BootstrapEvent.moves, if_true]
      omega
    · cases hs
  | connect a st =>
    have hst : st.t = .ok ∨ st.t = .unavailable := of_decide_eq_true hok
    simp only [bootstrapStep] at hs
    split at hs
    · rename_i p rest hph
      obtain rfl := Option.some.inj hs
      by_cases hun : st.t = .unavailable
      · rw [if_pos hun]
        refine ⟨BootstrapState.left_goto rfl ?_, fun h => h.goto rfl (by simp)⟩
        rw [hph]
        simp [BootstrapEvent.moves, hun]
      · rw [if_neg hun, if_pos (hst.resolve_right hun)]
        refine ⟨BootstrapState.left_goto rfl ?_, fun h => h.goto rfl (by simp)⟩
        have hmoves : (BootstrapEvent.connect a st : BootstrapEvent ι X).moves = true :=
          decide_eq_true hun
        rw [hph, hmoves]
        simp only [InitPhase.left, List.length_cons, if_true]
        omega
    · cases hs
  | send a st arrives =>
    have hst : st.t = .ok := of_decide_eq_true hok
    simp only [bootstrapStep, if_pos hst] at hs
    split at hs
    · rename_i p rest hph
      obtain rfl := Option.some.inj hs
      refine ⟨BootstrapState.left_goto rfl ?_, fun h => h.goto rfl (by simp)⟩
      rw [hph]
      simp only [InitPhase.left, BootstrapEvent.moves, List.length_cons, if_true]
      omega
    · cases hs
  | deliver a st =>
    have hst : st.t = .ok := of_decide_eq_true hok
    simp only [bootstrapStep, if_pos hst] at hs
    split at hs
    · rename_i p rest hph
      split at hs
      · obtain rfl := Option.some.inj hs
        refine ⟨BootstrapState.left_goto rfl ?_, fun h => h.goto rfl (by simp)⟩
        rw [hph]
        simp only [InitPhase.left, BootstrapEvent.moves, List.length_cons, if_true]
      · cases hs
    · cases hs
  | next a =>
    simp only [bootstrapStep] at hs
    split at hs
    · rename_i hph
      obtain rfl := Option.some.inj hs
      refine ⟨BootstrapState.left_goto rfl ?_, fun h => h.goto rfl (by simp)⟩
      rw [hph]
      simp only [InitPhase.left, BootstrapEvent.moves, List.length_nil, if_true]
      omega
    · rename_i hph
      obtain rfl := Option.some.inj hs
      refine ⟨BootstrapState.left_goto rfl ?_, fun h => h.goto rfl (by simp)⟩
      rw [hph]
      simp only [InitPhase.left, BootstrapEvent.moves, List.length_nil, if_true]
      omega
    · rename_i hph
      obtain rfl := Option.some.inj hs
      refine ⟨BootstrapState.left_goto rfl ?_, fun h => h.goto rfl fun _ _ => rfl⟩
      rw [hph]
      simp only [InitPhase.left, BootstrapEvent.moves, List.length_nil, if_true]
    · cases hs
  | die a => cases hok
  | post a p x =>
    simp only [bootstrapStep] at hs
    split at hs
    · split_ifs at hs
      obtain rfl := Option.some.inj hs
      exact ⟨rfl, id⟩
    · cases hs
  | take a p =>
    simp only [bootstrapStep] at hs
    split at hs
    · split_ifs at hs
      split at hs
      · obtain rfl := Option.some.inj hs
        exact ⟨rfl, id⟩
      · cases hs
    · cases hs

omit [DecidableEq ι] in
theorem left_eq_zero [Fintype ι] (h : s.Sound) :
    s.left B = 0 ↔ ∀ a, s.phase a = .returned .ok := by
  rw [BootstrapState.left, Finset.sum_eq_zero_iff]
  refine ⟨fun h0 a => ?_, fun h0 a _ => by rw [h0 a]; rfl⟩
  have hleft := h0 a (Finset.mem_univ a)
  cases hph : s.phase a with
  | returned st => exact hph ▸ h a st (.inl hph)
  | died => exact hph ▸ h a .ok (.inr hph)
  | _ =>
    rw [hph] at hleft
    simp [InitPhase.left] at hleft

omit [DecidableEq ι] in
theorem phase_of_sending (h : s.Sound) {a : ι} {rest : List ι}
    (ha : (s.phase a).place = .sending rest) : s.phase a = .sending rest := by
  cases hph : s.phase a with
  | sending rest' =>
    rw [hph] at ha
    rw [Exchange.Phase.sending.inj ha]
  | returned st =>
    rw [h a st (.inl hph)] at ha
    cases ha
  | _ =>
    rw [hph] at ha
    cases ha

omit [DecidableEq ι] in
theorem phase_of_receiving (h : s.Sound) {a : ι} {rest : List ι}
    (ha : (s.phase a).place = .receiving rest) : s.phase a = .delivering rest := by
  cases hph : s.phase a with
  | delivering rest' =>
    rw [hph] at ha
    rw [Exchange.Phase.receiving.inj ha]
  | returned st =>
    rw [h a st (.inl hph)] at ha
    cases ha
  | _ =>
    rw [hph] at ha
    cases ha

/-- A node that has not returned can take its next step, or one that it waits for can. -/
theorem bootstrap_progress (hn : ∀ a, (B.peers a).Nodup)
    (hsymm : ∀ a, ∀ p ∈ B.peers a, a ∈ B.peers p) {e : Exchange.State ι M X} (h : B.Sim s e)
    (H : Exchange.Inv B.peers B.message e) (hsound : s.Sound)
    (hex : ∃ a, s.phase a ≠ .returned .ok) :
    ∃ ev s', ev.moves = true ∧ ev.succeeds = true
      ∧ bootstrapStep (X := X) B s ev = some s' := by
  have hstop : ∀ a, e.phase a ≠ .stopped := by
    intro a ha
    rw [← h.phase] at ha
    cases hph : s.phase a with
    | returned st =>
      rw [hsound a st (.inl hph)] at ha
      cases ha
    | died =>
      rw [hsound a .ok (.inr hph)] at hph
      cases hph
    | _ =>
      rw [hph] at ha
      cases ha
  have hne : ∃ a, e.phase a ≠ .done := by
    obtain ⟨a, ha⟩ := hex
    refine ⟨a, fun hd => ha ?_⟩
    rw [← h.phase] at hd
    cases hph : s.phase a with
    | returned st => exact (hph.symm.trans (hsound a st (.inl hph)))
    | _ =>
      rw [hph] at hd
      cases hd
  obtain ⟨ev, e', hmoves, hstep⟩ := H.progress hn hsymm hstop hne
  have hplace : ∀ a, (s.phase a).place = e.phase a := h.phase
  cases ev with
  | enter a =>
    simp only [Exchange.step] at hstep
    split at hstep
    · rename_i he
      rw [← hplace] at he
      cases hph : s.phase a with
      | start => exact ⟨.start a .ok, _, rfl, rfl, by simp only [bootstrapStep, hph]; rfl⟩
      | connecting rest =>
        cases rest with
        | nil => exact ⟨.next a, _, rfl, rfl, by simp only [bootstrapStep, hph]; rfl⟩
        | cons p rest =>
          exact ⟨.connect a .ok, _, rfl, rfl, by simp only [bootstrapStep, hph]; rfl⟩
      | returned st =>
        rw [hsound a st (.inl hph)] at he
        cases he
      | _ =>
        rw [hph] at he
        cases he
    · cases hstep
  | send a =>
    simp only [Exchange.step] at hstep
    split at hstep
    · rename_i p rest he
      have hph := phase_of_sending hsound ((hplace a).trans he)
      exact ⟨.send a .ok false, _, rfl, rfl, by simp only [bootstrapStep, hph]; rfl⟩
    · cases hstep
  | turn a =>
    simp only [Exchange.step] at hstep
    split at hstep
    · rename_i he
      have hph := phase_of_sending hsound ((hplace a).trans he)
      exact ⟨.next a, _, rfl, rfl, by simp only [bootstrapStep, hph]; rfl⟩
    · cases hstep
  | receive a =>
    simp only [Exchange.step] at hstep
    split at hstep
    · rename_i p rest he
      have hph := phase_of_receiving hsound ((hplace a).trans he)
      split at hstep
      · rename_i m q hq
        rw [← h.channel] at hq
        exact ⟨.deliver a .ok, _, rfl, rfl, by simp only [bootstrapStep, hph, hq]; rfl⟩
      · cases hstep
    · cases hstep
  | finish a =>
    simp only [Exchange.step] at hstep
    split at hstep
    · rename_i he
      have hph := phase_of_receiving hsound ((hplace a).trans he)
      exact ⟨.next a, _, rfl, rfl, by simp only [bootstrapStep, hph]; rfl⟩
    · cases hstep
  | stop a sends => cases hmoves
  | post a p x => cases hmoves
  | take a p => cases hmoves

/-- Runs in which no call fails but for a `Connect` that is made again, of nodes that are peers of
their peers: they have taken and have still to take as many steps together as all the functions
have, they have all returned when none is left, and until then one of them can take its next. -/
theorem bootstrap_completes [Fintype ι] (B : Bootstrap ι M T) (hn : ∀ a, (B.peers a).Nodup)
    (hsymm : ∀ a, ∀ p ∈ B.peers a, a ∈ B.peers p) (es : List (BootstrapEvent ι X))
    (s : BootstrapState ι M T X) (hr : run (bootstrapStep B) (bootstrapInit X B) es = some s)
    (hok : ∀ ev ∈ es, ev.succeeds = true) :
    es.countP BootstrapEvent.moves + s.left B = ∑ a, (3 * (B.peers a).length + 4)
      ∧ (s.left B = 0 ↔ ∀ a, s.phase a = .returned .ok)
      ∧ (s.left B ≠ 0 → ∃ ev s', ev.moves = true ∧ ev.succeeds = true
        ∧ bootstrapStep B s ev = some s') := by
  have hrun : ∀ {es : List (BootstrapEvent ι X)} {s₀ : BootstrapState ι M T X},
      run (bootstrapStep B) s₀ es = some s → (∀ ev ∈ es, ev.succeeds = true) → s₀.Sound →
      es.countP BootstrapEvent.moves + s.left B = s₀.left B ∧ s.Sound := by
    intro es
    induction es with
    | nil =>
      intro s₀ hr _ h
      obtain rfl := Option.some.inj hr
      exact ⟨Nat.zero_add _, h⟩
    | cons ev es ih =>
      intro s₀ hr hok h
      obtain ⟨s₁, h1, h2⟩ := run_cons_some hr
      obtain ⟨h3, h4⟩ := bootstrapStep_left h1 (hok ev List.mem_cons_self)
      obtain ⟨h5, h6⟩ := ih h2 (fun ev' h => hok ev' (List.mem_cons_of_mem _ h)) (h4 h)
      refine ⟨?_, h6⟩
      rw [List.countP_cons]
      omega
  obtain ⟨hcount, hsound⟩ := hrun hr hok (fun a st h => by rcases h with h | h <;> cases h)
  obtain ⟨e, h, H⟩ := bootstrap_run hn hr
  refine ⟨hcount, left_eq_zero hsound, fun hne => ?_⟩
  refine bootstrap_progress hn hsymm h H hsound ?_
  by_contra hall
  exact hne ((left_eq_zero hsound).2 fun a => by
    by_contra ha
    exact hall ⟨a, ha⟩)

end Progress

/-- The first node waits for the second, which has not started. -/
theorem bootstrap_completes_bothStart : ∃ s,
    run (bootstrapStep (initCm bothPeers)) (bootstrapInit Unit (initCm bothPeers))
      (bothStart.take 9) = some s ∧ 8 + s.left (initCm bothPeers) = 20
    ∧ ∃ ev s', ev.moves = true ∧ bootstrapStep (initCm bothPeers) s ev = some s' := by
  have hrun : (run (bootstrapStep (initCm bothPeers)) (bootstrapInit Unit (initCm bothPeers))
      (bothStart.take 9)).isSome := by decide +kernel
  obtain ⟨s, hs⟩ := Option.isSome_iff_exists.1 hrun
  obtain ⟨h1, -, h3⟩ := bootstrap_completes (initCm bothPeers) (by decide) (by decide)
    (bothStart.take 9) s hs (by decide)
  have hsum : 8 + s.left (initCm bothPeers) = 20 := h1
  obtain ⟨ev, s', hmoves, -, hstep⟩ := h3 (by omega)
  exact ⟨s, hs, hsum, ev, s', hmoves, hstep⟩

end Rome

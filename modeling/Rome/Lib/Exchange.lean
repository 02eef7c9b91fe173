import Rome.Lib.Machine

/-!
# All-to-all exchanges

Each node sends a message of its own to each of its peers, one after the other, and then waits for
the message of each; what it sends later comes behind, on channels that keep the order. A node may
stop on the way. What a node has received is what its peers are to send, and a node is done only
when each of its peers has sent to it. Unless a node stops, none waits forever.
-/

namespace Exchange

open Machine

variable {ι M X : Type*}

/-- Where a node is, with the peers that it has still to send to or to hear from. -/
inductive Phase (ι : Type*)
  | before
  | sending (rest : List ι)
  | receiving (rest : List ι)
  | done
  | stopped

/-- The nodes, whom each has sent to and what it has received from whom, and the channel from each
node to each, with later messages on the right. -/
structure State (ι M X : Type*) where
  phase : ι → Phase ι
  sent : ι → List ι
  got : ι → List (ι × M)
  channel : ι → ι → List (M ⊕ X)

/-- A node enters; it sends to the next peer; it has sent to all; it receives from the next peer; it
has received from all; it stops, maybe with its message to the next peer on the way. When it is
done, it sends other messages and takes those that come. -/
inductive Event (ι X : Type*)
  | enter (a : ι)
  | send (a : ι)
  | turn (a : ι)
  | receive (a : ι)
  | finish (a : ι)
  | stop (a : ι) (sends : Bool)
  | post (a p : ι) (x : X)
  | take (a p : ι)

section Machine

variable [DecidableEq ι]

namespace State

def goto (s : State ι M X) (a : ι) (ph : Phase ι) : State ι M X :=
  { s with phase := Function.update s.phase a ph }

@[simp] theorem goto_phase_self (s : State ι M X) (a : ι) (ph : Phase ι) :
    (s.goto a ph).phase a = ph := Function.update_self _ _ _

theorem goto_phase_ne (s : State ι M X) {a b : ι} (ph : Phase ι) (h : b ≠ a) :
    (s.goto a ph).phase b = s.phase b := Function.update_of_ne h _ _

def setChannel (s : State ι M X) (a p : ι) (q : List (M ⊕ X)) : State ι M X :=
  { s with channel := Function.update s.channel a (Function.update (s.channel a) p q) }

/-- The message of `a` is put on the channel to `p`. -/
def say (own : ι → M) (s : State ι M X) (a p : ι) : State ι M X :=
  { s.setChannel a p (s.channel a p ++ [.inl (own a)]) with
    sent := Function.update s.sent a (s.sent a ++ [p]) }

/-- `a` has the message `m` of `p`. -/
def hear (s : State ι M X) (a p : ι) (m : M) : State ι M X :=
  { s with got := Function.update s.got a (s.got a ++ [(p, m)]) }

end State

def step (peers : ι → List ι) (own : ι → M) (s : State ι M X) : Event ι X → Option (State ι M X)
  | .enter a =>
    match s.phase a with
    | .before => some (s.goto a (.sending (peers a)))
    | _ => none
  | .send a =>
    match s.phase a with
    | .sending (p :: rest) => some ((s.say own a p).goto a (.sending rest))
    | _ => none
  | .turn a =>
    match s.phase a with
    | .sending [] => some (s.goto a (.receiving (peers a)))
    | _ => none
  | .receive a =>
    match s.phase a with
    | .receiving (p :: rest) =>
      match s.channel p a with
      | .inl m :: q => some (((s.setChannel p a q).hear a p m).goto a (.receiving rest))
      | _ => none
    | _ => none
  | .finish a =>
    match s.phase a with
    | .receiving [] => some (s.goto a .done)
    | _ => none
  | .stop a sends =>
    match s.phase a, sends with
    | .done, _ | .stopped, _ => none
    | .sending (p :: _), true => some ((s.say own a p).goto a .stopped)
    | _, _ => some (s.goto a .stopped)
  | .post a p x =>
    match s.phase a with
    | .done => if p ∈ peers a then some (s.setChannel a p (s.channel a p ++ [.inr x])) else none
    | _ => none
  | .take a p =>
    match s.phase a with
    | .done =>
      if p ∈ peers a then
        match s.channel p a with
        | _ :: q => some (s.setChannel p a q)
        | [] => none
      else none
    | _ => none

section Enabled

variable {peers : ι → List ι} {own : ι → M} {s : State ι M X} {a p : ι} {rest : List ι}

theorem step_enter (h : s.phase a = .before) :
    step peers own s (.enter a) = some (s.goto a (.sending (peers a))) := by
  unfold step
  simp only [h]

theorem step_send (h : s.phase a = .sending (p :: rest)) :
    step peers own s (.send a) = some ((s.say own a p).goto a (.sending rest)) := by
  unfold step
  simp only [h]

theorem step_turn (h : s.phase a = .sending []) :
    step peers own s (.turn a) = some (s.goto a (.receiving (peers a))) := by
  unfold step
  simp only [h]

theorem step_receive {m : M} {q : List (M ⊕ X)} (h : s.phase a = .receiving (p :: rest))
    (hq : s.channel p a = .inl m :: q) : step peers own s (.receive a)
      = some (((s.setChannel p a q).hear a p m).goto a (.receiving rest)) := by
  unfold step
  simp only [h, hq]

theorem step_finish (h : s.phase a = .receiving []) :
    step peers own s (.finish a) = some (s.goto a .done) := by
  unfold step
  simp only [h]

theorem step_stop (h : s.phase a ≠ .done) (h' : s.phase a ≠ .stopped) :
    step peers own s (.stop a false) = some (s.goto a .stopped) := by
  unfold step
  cases hph : s.phase a with
  | before => simp only [hph]
  | sending rest => cases rest <;> simp only [hph]
  | receiving rest => simp only [hph]
  | done => exact absurd hph h
  | stopped => exact absurd hph h'

theorem step_stop_send (h : s.phase a = .sending (p :: rest)) :
    step peers own s (.stop a true) = some ((s.say own a p).goto a .stopped) := by
  unfold step
  simp only [h]

theorem step_post (h : s.phase a = .done) (hp : p ∈ peers a) (x : X) :
    step peers own s (.post a p x) = some (s.setChannel a p (s.channel a p ++ [.inr x])) := by
  unfold step
  simp only [h, if_pos hp]

theorem step_take {x : M ⊕ X} {q : List (M ⊕ X)} (h : s.phase a = .done) (hp : p ∈ peers a)
    (hq : s.channel p a = x :: q) :
    step peers own s (.take a p) = some (s.setChannel p a q) := by
  unfold step
  simp only [h, if_pos hp, hq]

end Enabled

variable (ι M X) in
def init : State ι M X := ⟨fun _ => .before, fun _ => [], fun _ => [], fun _ _ => []⟩

end Machine

/-- Where a node is goes with whom it has sent to and heard from. -/
def Phase.Place (peers sent heard : List ι) : Phase ι → Prop
  | .before => sent = [] ∧ heard = []
  | .sending rest => sent ++ rest = peers ∧ heard = []
  | .receiving rest => sent = peers ∧ heard ++ rest = peers
  | .done => sent = peers ∧ heard = peers
  | .stopped => sent <+: peers ∧ heard <+: peers

theorem Phase.Place.sublists {peers sent heard : List ι} {ph : Phase ι}
    (h : ph.Place peers sent heard) : sent <+: peers ∧ heard <+: peers := by
  cases ph with
  | before =>
    obtain ⟨rfl, rfl⟩ := h
    exact ⟨ List.nil_prefix, List.nil_prefix⟩
  | sending rest =>
    obtain ⟨h, rfl⟩ := h
    exact ⟨⟨rest, h⟩, List.nil_prefix⟩
  | receiving rest =>
    obtain ⟨rfl, h⟩ := h
    exact ⟨List.prefix_rfl, ⟨rest, h⟩⟩
  | done =>
    obtain ⟨rfl, rfl⟩ := h
    exact ⟨List.prefix_rfl, List.prefix_rfl⟩
  | stopped => exact h

namespace State

/-- Whom a node has heard from. -/
def heard (s : State ι M X) (a : ι) : List ι := (s.got a).map Prod.fst

/-- What is on a channel: the message of its node, if it was sent and not received, and later
messages of a node that is done. -/
def Holds (own : ι → M) (s : State ι M X) (a p : ι) : Prop :=
  ∃ xs : List X, (xs ≠ [] → s.phase a = .done ∧ p ∈ s.sent a) ∧
    (s.channel a p = .inl (own a) :: xs.map .inr ∧ p ∈ s.sent a ∧ a ∉ s.heard p ∨
      s.channel a p = xs.map .inr ∧ (p ∈ s.sent a → a ∈ s.heard p))

end State

/-- The invariant. -/
structure Inv (peers : ι → List ι) (own : ι → M) (s : State ι M X) : Prop where
  place : ∀ a, (s.phase a).Place (peers a) (s.sent a) (s.heard a)
  got : ∀ a x, x ∈ s.got a → x.2 = own x.1 ∧ a ∈ s.sent x.1
  holds : ∀ a p, s.Holds own a p

section Inv

variable {peers : ι → List ι} {own : ι → M} {s s' : State ι M X} {a p : ι}

theorem inv_init : Inv peers own (init ι M X) :=
  ⟨fun _ => ⟨rfl, rfl⟩, fun _ _ h => absurd h List.not_mem_nil,
    fun _ _ => ⟨[], fun h => absurd rfl h, .inr ⟨rfl, fun h => absurd h List.not_mem_nil⟩⟩⟩

/-- A channel that a step leaves alone. -/
theorem State.Holds.congr (h : s.Holds own a p) (hc : s'.channel a p = s.channel a p)
    (hs : p ∈ s'.sent a ↔ p ∈ s.sent a) (hh : a ∈ s'.heard p ↔ a ∈ s.heard p)
    (hd : s.phase a = .done → s'.phase a = .done) : s'.Holds own a p := by
  obtain ⟨xs, h1, h2⟩ := h
  refine ⟨xs, fun hx => ⟨hd (h1 hx).1, hs.2 (h1 hx).2⟩, ?_⟩
  rw [hc, hs, hh]
  exact h2

/-- Nothing is on a channel before its node has sent to it. -/
theorem Inv.channel_nil (H : Inv peers own s) (hp : p ∉ s.sent a) : s.channel a p = [] := by
  obtain ⟨xs, h1, ⟨-, h2, -⟩ | ⟨h2, -⟩⟩ := H.holds a p
  · exact absurd h2 hp
  · have hx : xs = [] := by
      by_contra hx
      exact hp (h1 hx).2
    rw [h2, hx, List.map_nil]

theorem Inv.heard_sent (H : Inv peers own s) (h : a ∈ s.heard p) : p ∈ s.sent a := by
  obtain ⟨x, hx, rfl⟩ := List.mem_map.1 h
  exact (H.got p x hx).2

section Step

variable [DecidableEq ι]

/-- A node that is not done goes on to another place. -/
theorem Inv.goto (H : Inv peers own s) {ph : Phase ι} (ha : s.phase a ≠ .done)
    (hph : ph.Place (peers a) (s.sent a) (s.heard a)) : Inv peers own (s.goto a ph) := by
  refine ⟨fun b => ?_, H.got, fun b q => (H.holds b q).congr rfl Iff.rfl Iff.rfl fun hb => ?_⟩
  · by_cases hba : b = a
    · subst hba
      rw [State.goto_phase_self]
      exact hph
    · rw [State.goto_phase_ne _ _ hba]
      exact H.place b
  · have hba : b ≠ a := by
      rintro rfl
      exact ha hb
    rw [State.goto_phase_ne _ _ hba]
    exact hb

/-- A node sends to a peer that it has not sent to. -/
theorem Inv.say (H : Inv peers own s) {ph : Phase ι} (ha : s.phase a ≠ .done) (hp : p ∉ s.sent a)
    (hph : ph.Place (peers a) (s.sent a ++ [p]) (s.heard a)) :
    Inv peers own ((s.say own a p).goto a ph) := by
  have hsent : ∀ b, (s.say own a p).sent b = if b = a then s.sent a ++ [p] else s.sent b := by
    intro b
    by_cases hba : b = a
    · subst hba
      simp [State.say]
    · simp [State.say, hba]
  have hmono : ∀ b q, q ∈ s.sent b → q ∈ (s.say own a p).sent b := by
    intro b q hq
    rw [hsent]
    split_ifs with hba
    · subst hba
      exact List.mem_append_left _ hq
    · exact hq
  refine ⟨fun b => ?_, fun b x hx => ⟨(H.got b x hx).1, hmono _ _ (H.got b x hx).2⟩,
    fun b q => ?_⟩
  · by_cases hba : b = a
    · subst hba
      rw [State.goto_phase_self, State.goto, hsent, if_pos rfl]
      exact hph
    · rw [State.goto_phase_ne _ _ hba, State.goto, hsent, if_neg hba]
      exact H.place b
  · by_cases hba : b = a
    · subst hba
      by_cases hqp : q = p
      · subst hqp
        refine ⟨[], fun h => absurd rfl h, .inl ⟨?_, ?_, fun h => hp (H.heard_sent h)⟩⟩
        · simp [State.say, State.goto, State.setChannel, H.channel_nil hp]
        · rw [State.goto, hsent, if_pos rfl]
          exact List.mem_append_right _ (List.mem_singleton_self _)
      · refine (H.holds b q).congr ?_ ?_ Iff.rfl fun h => absurd h ha
        · simp [State.say, State.goto, State.setChannel, Function.update_of_ne hqp]
        · rw [State.goto, hsent, if_pos rfl]
          simp [hqp]
    · refine (H.holds b q).congr ?_ ?_ Iff.rfl fun h => ?_
      · simp [State.say, State.goto, State.setChannel, Function.update_of_ne hba]
      · rw [State.goto, hsent, if_neg hba]
      · rw [State.goto_phase_ne _ _ hba]
        exact h

omit [DecidableEq ι] in
/-- What comes first from a peer that a node has not heard from is the peer's message. -/
theorem Inv.first (H : Inv peers own s) {x : M ⊕ X} {q : List (M ⊕ X)} (hp : p ∉ s.heard a)
    (hq : s.channel p a = x :: q) : x = .inl (own p) ∧ a ∈ s.sent p := by
  obtain ⟨xs, h1, ⟨h2, h3, -⟩ | ⟨h2, h3⟩⟩ := H.holds p a
  · rw [h2, List.cons.injEq] at hq
    exact ⟨hq.1.symm, h3⟩
  · have hx : xs ≠ [] := by
      rintro rfl
      rw [h2] at hq
      cases hq
    exact absurd (h3 (h1 hx).2) hp

/-- A node receives the message of a peer that it has not heard from. -/
theorem Inv.receive (H : Inv peers own s) {ph : Phase ι} {x : M ⊕ X} {q : List (M ⊕ X)}
    (ha : s.phase a ≠ .done) (hp : p ∉ s.heard a) (hq : s.channel p a = x :: q)
    (hph : ph.Place (peers a) (s.sent a) (s.heard a ++ [p])) :
    Inv peers own (((s.setChannel p a q).hear a p (own p)).goto a ph) := by
  obtain ⟨-, hsent⟩ := H.first hp hq
  set t := ((s.setChannel p a q).hear a p (own p)).goto a ph with ht
  have hheard : ∀ b, t.heard b = if b = a then s.heard a ++ [p] else s.heard b := by
    intro b
    by_cases hba : b = a
    · subst hba
      simp [ht, State.heard, State.hear, State.goto, State.setChannel]
    · simp [ht, State.heard, State.hear, State.goto, State.setChannel, hba]
  have hdone : ∀ b, s.phase b = .done → t.phase b = .done := by
    intro b hb
    have hba : b ≠ a := by
      rintro rfl
      exact ha hb
    rw [ht, State.goto_phase_ne _ _ hba]
    exact hb
  refine ⟨fun b => ?_, fun b x hx => ?_, fun b r => ?_⟩
  · rw [hheard]
    by_cases hba : b = a
    · subst hba
      rw [if_pos rfl, ht, State.goto_phase_self]
      exact hph
    · rw [if_neg hba, ht, State.goto_phase_ne _ _ hba]
      exact H.place b
  · by_cases hba : b = a
    · subst hba
      simp only [ht, State.goto, State.hear, Function.update_self] at hx
      rcases List.mem_append.1 hx with hx | hx
      · exact H.got b x hx
      · rw [List.mem_singleton.1 hx]
        exact ⟨rfl, hsent⟩
    · simp only [ht, State.goto, State.hear, Function.update_of_ne hba] at hx
      exact H.got b x hx
  · by_cases hbr : b = p ∧ r = a
    · obtain ⟨rfl, rfl⟩ := hbr
      obtain ⟨xs, h1, ⟨h2, -, -⟩ | ⟨h2, h3⟩⟩ := H.holds b r
      · refine ⟨xs, fun hx => ⟨hdone b (h1 hx).1, hsent⟩, .inr ⟨?_, fun _ => ?_⟩⟩
        · rw [h2, List.cons.injEq] at hq
          simp [ht, State.hear, State.goto, State.setChannel, hq.2]
        · rw [hheard, if_pos rfl]
          exact List.mem_append_right _ (List.mem_singleton_self _)
      · exact absurd (h3 hsent) hp
    · refine (H.holds b r).congr ?_ Iff.rfl ?_ (hdone b)
      · by_cases hbp : b = p
        · subst hbp
          have hra : r ≠ a := fun h => hbr ⟨rfl, h⟩
          simp [ht, State.hear, State.goto, State.setChannel, hra]
        · simp [ht, State.hear, State.goto, State.setChannel, hbp]
      · rw [hheard]
        split_ifs with hra
        · subst hra
          have hbp : b ≠ p := fun h => hbr ⟨h, rfl⟩
          simp [hbp]
        · exact Iff.rfl

/-- What nodes that are done do with a channel. -/
theorem Inv.setChannel (H : Inv peers own s) {q : List (M ⊕ X)}
    (hq : (s.setChannel a p q).Holds own a p) : Inv peers own (s.setChannel a p q) := by
  refine ⟨H.place, H.got, fun b r => ?_⟩
  by_cases hbr : b = a ∧ r = p
  · obtain ⟨rfl, rfl⟩ := hbr
    exact hq
  · refine (H.holds b r).congr ?_ Iff.rfl Iff.rfl id
    by_cases hba : b = a
    · subst hba
      have hrp : r ≠ p := fun h => hbr ⟨rfl, h⟩
      simp [State.setChannel, hrp]
    · simp [State.setChannel, hba]

omit [DecidableEq ι] in
/-- The next peer to send to has not been sent to. -/
theorem Inv.unsent (hn : ∀ a, (peers a).Nodup) (H : Inv peers own s) {rest : List ι}
    (hph : s.phase a = .sending (p :: rest)) : p ∉ s.sent a := by
  have hpl := H.place a
  rw [hph] at hpl
  have hn := hn a
  rw [← hpl.1, List.nodup_append] at hn
  exact fun h => hn.2.2 p h p List.mem_cons_self rfl

omit [DecidableEq ι] in
/-- The next peer to hear from has not been heard from. -/
theorem Inv.unheard (hn : ∀ a, (peers a).Nodup) (H : Inv peers own s) {rest : List ι}
    (hph : s.phase a = .receiving (p :: rest)) : p ∉ s.heard a := by
  have hpl := H.place a
  rw [hph] at hpl
  have hn := hn a
  rw [← hpl.2, List.nodup_append] at hn
  exact fun h => hn.2.2 p h p List.mem_cons_self rfl

/-- A node that is done sends another message to a peer. -/
theorem Inv.post (H : Inv peers own s) (hph : s.phase a = .done) (hp : p ∈ peers a) (x : X) :
    Inv peers own (s.setChannel a p (s.channel a p ++ [.inr x])) := by
  have hpl := H.place a
  rw [hph] at hpl
  have hsent : p ∈ s.sent a := hpl.1 ▸ hp
  obtain ⟨xs, -, hx⟩ := H.holds a p
  refine H.setChannel ⟨xs ++ [x], fun _ => ⟨hph, hsent⟩, ?_⟩
  refine hx.imp (fun h => ⟨?_, h.2⟩) fun h => ⟨?_, h.2⟩
  · simp [State.setChannel, h.1]
  · simp [State.setChannel, h.1]

/-- A node that is done takes what comes from a peer. -/
theorem Inv.take (H : Inv peers own s) (hph : s.phase a = .done) (hp : p ∈ peers a) {x : M ⊕ X}
    {q : List (M ⊕ X)} (hq : s.channel p a = x :: q) : Inv peers own (s.setChannel p a q) := by
  have hpl := H.place a
  rw [hph] at hpl
  have hheard : p ∈ s.heard a := hpl.2 ▸ hp
  obtain ⟨xs, hx, ⟨-, -, h1⟩ | ⟨h1, -⟩⟩ := H.holds p a
  · exact absurd hheard h1
  · rcases xs with _ | ⟨y, ys⟩
    · rw [h1] at hq
      cases hq
    · rw [h1, List.map_cons, List.cons.injEq] at hq
      refine H.setChannel ⟨ys, fun _ => hx (List.cons_ne_nil _ _), .inr ⟨?_, fun _ => hheard⟩⟩
      simp [State.setChannel, hq.2]

/-- A node stops, maybe with its message to the next peer on the way. -/
theorem Inv.stop (hn : ∀ a, (peers a).Nodup) (H : Inv peers own s) {sends : Bool}
    (hs : Exchange.step peers own s (.stop a sends) = some s') : Inv peers own s' := by
  simp only [Exchange.step] at hs
  split at hs
  · cases hs
  · cases hs
  · rename_i p rest hph
    obtain rfl := Option.some.inj hs
    have hpl := H.place a
    rw [hph] at hpl
    refine H.say (by simp [hph]) (H.unsent hn hph) ⟨⟨rest, ?_⟩, ?_⟩
    · rw [List.append_assoc, List.singleton_append, hpl.1]
    · rw [hpl.2]
      exact List.nil_prefix
  · rename_i hdone _ _
    obtain rfl := Option.some.inj hs
    exact H.goto hdone (H.place a).sublists

/-- Every step keeps the invariant. -/
theorem Inv.step (hn : ∀ a, (peers a).Nodup) (H : Inv peers own s) {e : Event ι X}
    (hs : Exchange.step peers own s e = some s') : Inv peers own s' := by
  cases e with
  | stop a sends => exact H.stop hn hs
  | enter a =>
    simp only [Exchange.step] at hs
    split at hs
    · rename_i hph
      obtain rfl := Option.some.inj hs
      have hpl := H.place a
      rw [hph] at hpl
      refine H.goto (by simp [hph]) ⟨?_, hpl.2⟩
      rw [hpl.1, List.nil_append]
    · cases hs
  | send a =>
    simp only [Exchange.step] at hs
    split at hs
    · rename_i p rest hph
      obtain rfl := Option.some.inj hs
      have hpl := H.place a
      rw [hph] at hpl
      refine H.say (by simp [hph]) (H.unsent hn hph) ⟨?_, hpl.2⟩
      rw [List.append_assoc, List.singleton_append, hpl.1]
    · cases hs
  | turn a =>
    simp only [Exchange.step] at hs
    split at hs
    · rename_i hph
      obtain rfl := Option.some.inj hs
      have hpl := H.place a
      rw [hph] at hpl
      refine H.goto (by simp [hph]) ⟨?_, ?_⟩
      · rw [← hpl.1, List.append_nil]
      · rw [hpl.2, List.nil_append]
    · cases hs
  | receive a =>
    simp only [Exchange.step] at hs
    split at hs
    · rename_i p rest hph
      split at hs
      · rename_i m q hq
        obtain rfl := Option.some.inj hs
        have hpl := H.place a
        rw [hph] at hpl
        have hp := H.unheard hn hph
        obtain ⟨hm, -⟩ := H.first hp hq
        obtain rfl := Sum.inl.inj hm
        refine H.receive (by simp [hph]) hp hq ⟨hpl.1, ?_⟩
        rw [List.append_assoc, List.singleton_append, hpl.2]
      · cases hs
    · cases hs
  | finish a =>
    simp only [Exchange.step] at hs
    split at hs
    · rename_i hph
      obtain rfl := Option.some.inj hs
      have hpl := H.place a
      rw [hph] at hpl
      refine H.goto (by simp [hph]) ⟨hpl.1, ?_⟩
      rw [← hpl.2, List.append_nil]
    · cases hs
  | post a p x =>
    simp only [Exchange.step] at hs
    split at hs
    · rename_i hph
      split_ifs at hs with hp
      obtain rfl := Option.some.inj hs
      exact H.post hph hp x
    · cases hs
  | take a p =>
    simp only [Exchange.step] at hs
    split at hs
    · rename_i hph
      split_ifs at hs with hp
      split at hs
      · rename_i x q hq
        obtain rfl := Option.some.inj hs
        exact H.take hph hp hq
      · cases hs
    · cases hs

omit [DecidableEq ι] in
/-- A node that is done has the message of each of its peers, which have all sent to it. -/
theorem Inv.done (H : Inv peers own s) (ha : s.phase a = .done) :
    s.got a = (peers a).map (fun p => (p, own p)) ∧ ∀ p ∈ peers a, a ∈ s.sent p := by
  have hpl := H.place a
  rw [ha] at hpl
  have hheard : (s.got a).map Prod.fst = peers a := hpl.2
  refine ⟨?_, fun p hp => H.heard_sent (show p ∈ (s.got a).map Prod.fst from hheard ▸ hp)⟩
  have hmap : (s.got a).map (fun x => (x.1, own x.1)) = (s.got a).map id :=
    List.map_congr_left fun x hx => Prod.ext rfl (H.got a x hx).1.symm
  rw [List.map_id] at hmap
  rw [← hheard, List.map_map]
  exact hmap.symm

end Step

end Inv

/-! ## Progress -/

/-- The steps that a node with `n` peers has still to take. -/
def Phase.left (n : ℕ) : Phase ι → ℕ
  | .before => 2 * n + 3
  | .sending rest => rest.length + n + 2
  | .receiving rest => rest.length + 1
  | .done | .stopped => 0

/-- The events of the exchange itself. -/
def Event.moves : Event ι X → Bool
  | .enter _ | .send _ | .turn _ | .receive _ | .finish _ => true
  | .stop _ _ | .post _ _ _ | .take _ _ => false

section Progress

variable {peers : ι → List ι} {own : ι → M} {s s' : State ι M X}

variable [DecidableEq ι]

theorem left_update [Fintype ι] (f : ι → ℕ) (a : ι) (n : ℕ) :
    ∑ b, Function.update f a n b + f a = ∑ b, f b + n := by
  have hrest : ∑ b ∈ Finset.univ.erase a, Function.update f a n b
      = ∑ b ∈ Finset.univ.erase a, f b :=
    Finset.sum_congr rfl fun b hb => Function.update_of_ne (Finset.ne_of_mem_erase hb) n f
  have h1 := Finset.add_sum_erase Finset.univ (Function.update f a n) (Finset.mem_univ a)
  have h2 := Finset.add_sum_erase Finset.univ f (Finset.mem_univ a)
  rw [Function.update_self, hrest] at h1
  omega

/-- Where every node is a peer of its peers and none has stopped, some node that is not done can
take its next step: a node waits only for one that has not sent to it yet. -/
theorem Inv.progress (hn : ∀ a, (peers a).Nodup) (hsymm : ∀ a, ∀ p ∈ peers a, a ∈ peers p)
    (H : Inv peers own s) (hstop : ∀ a, s.phase a ≠ .stopped) (h : ∃ a, s.phase a ≠ .done) :
    ∃ e s', e.moves = true ∧ Exchange.step (X := X) peers own s e = some s' := by
  have hearly : ∀ b, (s.phase b).left (peers b).length ≠ 0 →
      (∀ p rest, s.phase b ≠ .receiving (p :: rest)) →
      ∃ e s', e.moves = true ∧ Exchange.step (X := X) peers own s e = some s' := by
    intro b hb hrec
    rcases hph : s.phase b with _ | _ | _ | _ | _
    · exact ⟨.enter b, _, rfl, step_enter hph⟩
    · rename_i rest
      cases rest with
      | nil => exact ⟨.turn b, _, rfl, step_turn hph⟩
      | cons p rest => exact ⟨.send b, _, rfl, step_send hph⟩
    · rename_i rest
      cases rest with
      | nil => exact ⟨.finish b, _, rfl, step_finish hph⟩
      | cons p rest => exact absurd hph (hrec p rest)
    · exact absurd (by rw [hph]; rfl) hb
    · exact absurd hph (hstop b)
  obtain ⟨a, ha⟩ := h
  by_cases hrec : ∃ p rest, s.phase a = .receiving (p :: rest)
  swap
  · refine hearly a (fun h0 => ?_) fun p rest h => hrec ⟨p, rest, h⟩
    rcases hph : s.phase a with _ | _ | _ | _ | _ <;> simp_all [Phase.left]
  obtain ⟨p, rest, hph⟩ := hrec
  have hpl := H.place a
  rw [hph] at hpl
  have hp : p ∉ s.heard a := fun h =>
    (List.nodup_append.1 (hpl.2 ▸ hn a)).2.2 p h p List.mem_cons_self rfl
  have hpeer : a ∈ peers p := hsymm a p (hpl.2 ▸ List.mem_append_right _ List.mem_cons_self)
  -- the peer has sent to all, or can go on
  by_cases hsent : a ∈ s.sent p
  · obtain ⟨xs, -, ⟨h1, -, -⟩ | ⟨-, h1⟩⟩ := H.holds p a
    · exact ⟨.receive a, _, rfl, step_receive hph h1⟩
    · exact absurd (h1 hsent) hp
  · have hplp := H.place p
    refine hearly p (fun h0 => ?_) fun q rest' h => ?_
    · rcases hpp : s.phase p with _ | _ | _ | _ | _ <;> rw [hpp] at hplp h0
      · cases h0
      · cases h0
      · cases h0
      · exact hsent (hplp.1 ▸ hpeer)
      · exact hstop p hpp
    · rw [h] at hplp
      exact hsent (hplp.1 ▸ hpeer)

end Progress

end Exchange

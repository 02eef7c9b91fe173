import Rome.Proofs.RpcInv

/-!
# The steps of the two-sided table

A client thread moves its own call on and off the link to the target, a server thread moves it
along; each step keeps the invariant.
-/

namespace Rome

variable {σ : Type*} {m : IntMap σ} {p : RpcParams} {data : ℕ → σ}
variable {s s' : Rpc σ} {link : ℕ × ℕ → Link} {a b t j c : ℕ}

/-! ## The steps of the clients -/

lemma call_of_update {x : ℕ × ℕ} {x' : ClientCall} {y : ℕ × ℕ}
    (hx : x'.call = none ∨ x'.call = (s.clients x).call)
    (h : (Function.update s.clients x x' y).call = some c) : (s.clients y).call = some c := by
  by_cases hy : y = x
  · subst hy
    rw [Function.update_self] at h
    rcases hx with hx | hx
    · rw [hx] at h
      cases h
    · rwa [← hx]
  · rwa [Function.update_of_ne hy] at h

/-- The queues of the link between `a` and `b` are those of the new link. -/
lemma RpcInv.queues (h : RpcInv m p data s link) {L : Link}
    (hreq : s'.requests = Function.update s.requests (a, b) L.requests)
    (hres : s'.responses = Function.update s.responses (b, a) L.responses) (a' b' : ℕ) :
    s'.requests (a', b') = (Function.update link (a, b) L (a', b')).requests
      ∧ s'.responses (b', a') = (Function.update link (a, b) L (a', b')).responses := by
  rw [hreq, hres]
  by_cases hab : (a', b') = (a, b)
  · injection hab with ha hb
    rw [ha, hb, Function.update_self, Function.update_self, Function.update_self]
    exact ⟨rfl, rfl⟩
  · have hba : (b', a') ≠ (b, a) := by
      rintro ⟨⟩
      exact hab rfl
    rw [Function.update_of_ne hab, Function.update_of_ne hab, Function.update_of_ne hba]
    exact ⟨h.requests a' b', h.responses a' b'⟩

/-- A step of a client thread on or off the link to `b`. -/
lemma RpcInv.clientMove (h : RpcInv m p data s link) {x' : ClientCall} {L : Link}
    (hclients : s'.clients = Function.update s.clients (a, t) x') (hlog : s'.log = s.log)
    (hdata : s'.internalData = s.internalData) (hissued : s'.issued = s.issued)
    (hservers : s'.servers = s.servers)
    (hreturned : ∀ x ∈ s'.returns, x ∈ s.returns ∨ ∃ b op, Computed m data s.log x.1 b op x.2)
    (hreq : s'.requests = Function.update s.requests (a, b) L.requests)
    (hres : s'.responses = Function.update s.responses (b, a) L.responses)
    (hholder : LockTable.Held ClientCall.holds s'.lockTableClient s'.clients)
    (hok : x'.Ok m p data s (Function.update link (a, b) L) a)
    (hcall : x'.call = none ∨ x'.call = (s.clients (a, t)).call)
    (hlock : s.lockTableClient (a, b) = some t)
    (hlinked : ∀ c op, L.call = some (c, op) → x' = .deliver c op b)
    (hother : ∀ c op b', s.clients (a, t) = .deliver c op b' → b' = b)
    (hL : L.Ok m data s.log b) (hserver : L.server = none)
    (hserve : ∀ j c op, link (a, b) ≠ .serving j c op)
    (hanswer : ∀ j c op r, link (a, b) ≠ .answering j c op r) :
    RpcInv m p data s' (Function.update link (a, b) L) := by
  refine ⟨?_, hlog ▸ h.nodup, ?_, ?_, ?_, ?_, hholder, ?_, ?_, ?_, ?_, ?_, ?_, ?_⟩
  · rw [hdata, hlog]
    exact h.replayed
  · rw [hlog, hissued]
    exact h.issued
  · intro x hx
    rw [hlog]
    rcases hreturned x hx with hx | hx
    · exact h.returned x hx
    · exact hx
  · exact fun a' b' => (h.queues hreq hres a' b').1
  · exact fun a' b' => (h.queues hreq hres a' b').2
  · intro a' t'
    rw [hclients]
    by_cases hat : (a', t') = (a, t)
    · injection hat with ha ht
      subst ha ht
      rw [Function.update_self]
      exact hok.frame (hissued ▸ fun _ _ => id) ⟨[], by simp [hlog]⟩ fun _ _ _ _ => rfl
    · rw [Function.update_of_ne hat]
      refine (h.clients a' t').frame (hissued ▸ fun _ _ => id) ⟨[], by simp [hlog]⟩ ?_
      intro c op b' hc
      -- another thread waits on another link: the lock of this one is with `t`
      rw [Function.update_of_ne]
      rintro ⟨⟩
      have := (h.holder a b t').mpr (by rw [hc]; exact rfl)
      rw [hlock, Option.some.injEq] at this
      exact hat (by rw [this])
  · intro x c hc
    rw [hissued]
    rw [hclients] at hc
    exact h.called x c (call_of_update hcall hc)
  · intro x y c hx hy
    rw [hclients] at hx hy
    exact h.distinct x y c (call_of_update hcall hx) (call_of_update hcall hy)
  · intro a' b' c op hl
    by_cases hab : (a', b') = (a, b)
    · rw [hab, Function.update_self] at hl
      injection hab with ha hb
      subst ha hb
      exact ⟨t, by rw [hclients, Function.update_self, hlinked c op hl]⟩
    · rw [Function.update_of_ne hab] at hl
      obtain ⟨t', ht'⟩ := h.linked a' b' c op hl
      refine ⟨t', ?_⟩
      rw [hclients, Function.update_of_ne, ht']
      rintro ⟨⟩
      exact hab (by rw [hother c op b' ht'])
  · intro a' b'
    rw [hlog]
    by_cases hab : (a', b') = (a, b)
    · rw [hab, Function.update_self]
      injection hab with ha hb
      rw [hb]
      exact hL
    · rw [Function.update_of_ne hab]
      exact h.links a' b'
  · intro b' j
    rw [hservers]
    exact (h.servers b' j).update (fun _ => hserve j) fun _ => hanswer j
  · intro a' b' j hj
    rw [hservers]
    by_cases hab : (a', b') = (a, b)
    · rw [hab, Function.update_self, hserver] at hj
      cases hj
    · rw [Function.update_of_ne hab] at hj
      exact h.busy a' b' j hj

/-- A step of a client thread that is not waiting, before or after it; it may do its own call. -/
lemma RpcInv.clientGoto (h : RpcInv m p data s link) {z : ClientCall}
    (hclients : s'.clients = Function.update s.clients (a, t) z)
    (hlog : ∃ l, s'.log = s.log ++ l ∧ ∀ e ∈ l, (s.clients (a, t)).call = some e.call)
    (hissued : ∃ l, s'.issued = s.issued ++ l) (hservers : s'.servers = s.servers)
    (hreplayed : s'.internalData = replay m data s'.log) (hnodup : (s'.log.map Exec.call).Nodup)
    (hexec : ∀ e ∈ s'.log, ∃ a, s'.issued[e.call]? = some (a, e.op) ∧ toId p e.op.key = some e.node)
    (hreturned : ∀ x ∈ s'.returns, x ∈ s.returns ∨ ∃ b op, Computed m data s'.log x.1 b op x.2)
    (hreq : s'.requests = s.requests) (hres : s'.responses = s.responses)
    (hholder : LockTable.Held ClientCall.holds s'.lockTableClient s'.clients)
    (hok : z.Ok m p data s' link a)
    (hcalled : ∀ x c, (s'.clients x).call = some c → c < s'.issued.length)
    (hdistinct : ∀ x y c, (s'.clients x).call = some c → (s'.clients y).call = some c → x = y)
    (hnot : ∀ c op b, s.clients (a, t) ≠ .deliver c op b) : RpcInv m p data s' link := by
  obtain ⟨l, hl, hown⟩ := hlog
  obtain ⟨li, hli⟩ := hissued
  have hget : ∀ (c : ℕ) (y : ℕ × RpcOp), s.issued[c]? = some y → s'.issued[c]? = some y := by
    intro c y hc
    rw [hli]
    exact List.getElem?_append_left (List.getElem?_eq_some_iff.mp hc).1 ▸ hc
  refine ⟨hreplayed, hnodup, hexec, ?_, hreq ▸ h.requests, hres ▸ h.responses, hholder, ?_, hcalled,
    hdistinct, ?_, ?_, hservers ▸ h.servers, hservers ▸ h.busy⟩
  · intro x hx
    rcases hreturned x hx with hx | hx
    · obtain ⟨b, op, hc⟩ := h.returned x hx
      exact ⟨b, op, hl ▸ hc.append l⟩
    · exact hx
  · intro a' t'
    rw [hclients]
    by_cases hat : (a', t') = (a, t)
    · injection hat with ha ht
      subst ha ht
      rwa [Function.update_self]
    · rw [Function.update_of_ne hat]
      refine (h.clients a' t').frame hget ⟨l, hl, ?_⟩ fun _ _ _ _ => rfl
      intro e he hc
      exact absurd (h.distinct _ _ _ hc (hown e he)) hat
  · intro a' b' c op hlk
    obtain ⟨t', ht'⟩ := h.linked a' b' c op hlk
    refine ⟨t', ?_⟩
    rw [hclients, Function.update_of_ne, ht']
    rintro ⟨⟩
    exact hnot c op b' ht'
  · intro a' b'
    refine (h.links a' b').frame ⟨l, hl, ?_⟩
    intro e he op hc
    obtain ⟨t', ht'⟩ := h.linked a' b' _ op hc
    have hat := h.distinct (a', t') (a, t) e.call (by rw [ht']; rfl) (hown e he)
    rw [hat] at ht'
    exact hnot _ _ _ ht'

lemma rpcCall_inv {op : RpcOp} (h : RpcInv m p data s link) (hc : s.clients (a, t) = .idle) {b : ℕ}
    (hb : toId p op.key = some b) :
    RpcInv m p data ({ s with issued := s.issued ++ [(a, op)] }.clientAt a t
      (if b = a then .direct s.issued.length op else .lock s.issued.length op b)) link := by
  set x' : ClientCall :=
    if b = a then .direct s.issued.length op else .lock s.issued.length op b with hx'
  have hx : x'.call = some s.issued.length ∧ (∀ b, ¬ x'.holds b) := by
    rw [hx']
    split_ifs
    · exact ⟨rfl, fun b hb => hb⟩
    · exact ⟨rfl, fun b hb => hb⟩
  have hold : ∀ y c, (Function.update s.clients (a, t) x' y).call = some c →
      (y = (a, t) ∧ c = s.issued.length) ∨ ((s.clients y).call = some c ∧ c < s.issued.length) := by
    intro y c hy
    by_cases hat : y = (a, t)
    · rw [hat, Function.update_self, hx.1, Option.some.injEq] at hy
      exact .inl ⟨hat, hy.symm⟩
    · rw [Function.update_of_ne hat] at hy
      exact .inr ⟨hy, h.called y c hy⟩
  have hget : ∀ (c : ℕ) (y : ℕ × RpcOp), s.issued[c]? = some y →
      (s.issued ++ [(a, op)])[c]? = some y := by
    intro c y hy
    exact List.getElem?_append_left (List.getElem?_eq_some_iff.mp hy).1 ▸ hy
  refine h.clientGoto rfl ⟨[], by simp [Rpc.clientAt]⟩ ⟨_, rfl⟩ rfl h.replayed h.nodup ?_
    (fun x hx => .inl hx) rfl rfl ?_ ?_ ?_ ?_ (by simp [hc])
  · intro e he
    obtain ⟨a', ha', he'⟩ := h.issued e he
    exact ⟨a', hget _ _ ha', he'⟩
  · refine h.holder.goto fun b => ?_
    rw [hc]
    exact ⟨fun hb => hx.2 b hb, fun hb => hb.elim⟩
  · have hlen : (s.issued ++ [(a, op)])[s.issued.length]? = some (a, op) := by simp
    rw [hx']
    split_ifs with hba
    · exact ⟨hlen, hba ▸ hb, h.call_notMem⟩
    · exact ⟨hlen, hb, h.call_notMem⟩
  · intro y c hy
    simp only [Rpc.clientAt, List.length_append, List.length_singleton]
    rcases hold y c hy with ⟨-, rfl⟩ | ⟨-, hlt⟩ <;> omega
  · intro y z c hy hz
    rcases hold y c hy with ⟨rfl, rfl⟩ | ⟨hy, hlt⟩ <;>
      rcases hold z _ hz with ⟨rfl, hz⟩ | ⟨hz, hlt'⟩
    · rfl
    · omega
    · omega
    · exact h.distinct y z c hy hz

/-- An operation done for a call that was not done yet. -/
lemma RpcInv.executed (h : RpcInv m p data s link) {op : RpcOp} {a' : ℕ}
    (hissued : s.issued[c]? = some (a', op)) (hid : toId p op.key = some b)
    (hnot : c ∉ s.log.map Exec.call) :
    Function.update s.internalData b (op.direct m (s.internalData b)).2 =
        replay m data (s.log ++ [⟨c, b, op⟩]) ∧
      ((s.log ++ [Exec.mk c b op]).map Exec.call).Nodup ∧
      ∀ e ∈ s.log ++ [Exec.mk c b op], ∃ a, s.issued[e.call]? = some (a, e.op) ∧
        toId p e.op.key = some e.node := by
  refine ⟨?_, ?_, ?_⟩
  · rw [replay_append, ← h.replayed]
  · rw [List.map_append, List.nodup_append]
    refine ⟨h.nodup, by simp, ?_⟩
    intro x hx y hy
    rw [List.map_singleton, List.mem_singleton] at hy
    intro hxy
    rw [hxy, hy] at hx
    exact hnot hx
  · intro e he
    rw [List.mem_append, List.mem_singleton] at he
    rcases he with he | rfl
    · exact h.issued e he
    · exact ⟨a', hissued, hid⟩

lemma direct_inv (h : RpcInv m p data s link) {op : RpcOp} (hc : s.clients (a, t) = .direct c op)
    (hs : clientStep m s a t = some s') : RpcInv m p data s' link := by
  have hcl := h.clients a t
  rw [hc] at hcl
  obtain ⟨hissued, hid, hnot⟩ := hcl
  obtain ⟨hreplayed, hnodup, hexec⟩ := h.executed hissued hid hnot
  simp only [clientStep, hc, Option.some.injEq] at hs
  subst hs
  refine h.clientGoto (a := a) (t := t) (z := .idle) rfl ⟨_, rfl, ?_⟩
    ⟨[], by simp [Rpc.returned, Rpc.clientAt, Rpc.executed]⟩ rfl hreplayed hnodup hexec ?_ rfl rfl
    ?_ trivial ?_ ?_ (by simp [hc])
  · intro e he
    simp only [Option.map_some, Option.toList_some, List.mem_singleton] at he
    rw [hc, he]
    rfl
  · intro x hx
    simp only [Rpc.returned, Rpc.clientAt, Rpc.executed, List.mem_append, List.mem_singleton] at hx
    rcases hx with hx | rfl
    · exact .inl hx
    · refine .inr ⟨a, op, ?_⟩
      simp only [h.replayed]
      exact computed_last s.log c a op
  · refine h.holder.goto fun b => ?_
    rw [hc]
    exact Iff.rfl
  · intro y c hy
    exact h.called y c (call_of_update (.inl rfl) hy)
  · intro y z c hy hz
    exact h.distinct y z c (call_of_update (.inl rfl) hy) (call_of_update (.inl rfl) hz)

/-- A thread takes its node's lock on `b`. -/
lemma clientLock_inv (h : RpcInv m p data s link) {op : RpcOp}
    (hc : s.clients (a, t) = .lock c op b) (hs : clientStep m s a t = some s') :
    RpcInv m p data s' link := by
  simp only [clientStep, hc] at hs
  split at hs
  · rename_i hfree
    rw [Option.some.injEq] at hs
    subst hs
    have hcall : (ClientCall.send c op b).call = (s.clients (a, t)).call := by rw [hc]; rfl
    have hcl := h.clients a t
    rw [hc] at hcl
    refine h.clientGoto (a := a) (t := t) rfl ⟨[], by simp [Rpc.clientAt]⟩
      ⟨[], by simp [Rpc.clientAt]⟩ rfl h.replayed h.nodup h.issued (fun x hx => .inl hx) rfl rfl ?_
      hcl ?_ ?_ (by simp [hc])
    · refine h.holder.take hfree (fun b' hb' => ?_) fun b' => Iff.rfl
      rw [hc] at hb'
      exact hb'
    · intro y c hy
      exact h.called y c (call_of_update (.inr hcall) hy)
    · intro y z c hy hz
      exact h.distinct y z c (call_of_update (.inr hcall) hy) (call_of_update (.inr hcall) hz)
  · cases hs

lemma clientUnlock_inv (h : RpcInv m p data s link) {op : RpcOp} {r : RpcMsg}
    (hc : s.clients (a, t) = .unlock c op b r) (hs : clientStep m s a t = some s') :
    RpcInv m p data s' link := by
  simp only [clientStep, hc, Option.some.injEq] at hs
  subst hs
  have hcall : (ClientCall.check c op b r).call = (s.clients (a, t)).call := by rw [hc]; rfl
  have hcl := h.clients a t
  rw [hc] at hcl
  refine h.clientGoto (a := a) (t := t) rfl ⟨[], by simp [Rpc.clientAt]⟩
    ⟨[], by simp [Rpc.clientAt]⟩ rfl h.replayed h.nodup h.issued (fun x hx => .inl hx) rfl rfl ?_
    hcl ?_ ?_ (by simp [hc])
  · refine h.holder.release (fun b' => ?_) fun b' hb' => hb'
    rw [hc]
    exact Iff.rfl
  · intro y c hy
    exact h.called y c (call_of_update (.inr hcall) hy)
  · intro y z c hy hz
    exact h.distinct y z c (call_of_update (.inr hcall) hy) (call_of_update (.inr hcall) hz)

/-- The assertion on the opcode does not fail. -/
lemma check_inv (h : RpcInv m p data s link) {op : RpcOp} {r : RpcMsg}
    (hc : s.clients (a, t) = .check c op b r) (hs : clientStep m s a t = some s') :
    RpcInv m p data s' link := by
  have hcl := h.clients a t
  rw [hc] at hcl
  obtain ⟨-, v, hv, hcomp⟩ := hcl
  simp only [clientStep, hc, hv, Option.some.injEq] at hs
  subst hs
  refine h.clientGoto (a := a) (t := t) (z := .idle) rfl ⟨[], by simp [Rpc.returned, Rpc.clientAt]⟩
    ⟨[], by simp [Rpc.returned, Rpc.clientAt]⟩ rfl h.replayed h.nodup h.issued ?_ rfl rfl ?_ trivial
    ?_ ?_ (by simp [hc])
  · intro x hx
    simp only [Rpc.returned, Rpc.clientAt, List.mem_append, List.mem_singleton] at hx
    rcases hx with hx | rfl
    · exact .inl hx
    · exact .inr ⟨b, op, hcomp⟩
  · refine h.holder.goto fun b => ?_
    rw [hc]
    exact Iff.rfl
  · intro y c hy
    exact h.called y c (call_of_update (.inl rfl) hy)
  · intro y z c hy hz
    exact h.distinct y z c (call_of_update (.inl rfl) hy) (call_of_update (.inl rfl) hz)

/-- The request goes on the link, which is free. -/
lemma clientSend_inv (h : RpcInv m p data s link) {op : RpcOp}
    (hc : s.clients (a, t) = .send c op b) (hs : clientStep m s a t = some s') :
    ∃ link', RpcInv m p data s' link' := by
  have hcl := h.clients a t
  rw [hc] at hcl
  obtain ⟨hissued, hid, hnot⟩ := hcl
  have hlock : s.lockTableClient (a, b) = some t := (h.holder a b t).mpr (by rw [hc]; exact rfl)
  have hfree := h.link_free hlock (by simp [hc])
  simp only [clientStep, hc, Option.some.injEq] at hs
  subst hs
  refine ⟨_, h.clientMove (a := a) (b := b) (t := t) (L := .requested c op) rfl rfl rfl rfl rfl
    (fun x hx => .inl hx) ?_ ?_ ?_ ⟨hissued, hid, ?_⟩ (.inr (by rw [hc]; rfl)) hlock ?_
    (by simp [hc]) hnot rfl (by simp [hfree]) (by simp [hfree])⟩
  · simp only [Rpc.clientAt, h.requests, hfree]
    rfl
  · simp only [Rpc.clientAt]
    rw [eq_comm, Function.update_eq_self_iff, h.responses, hfree]
    rfl
  · refine h.holder.goto fun b' => ?_
    rw [hc]
    exact Iff.rfl
  · rw [Function.update_self]
    rfl
  · intro c' op' hl
    simp only [Link.call, Option.some.injEq, Prod.mk.injEq] at hl
    rw [← hl.1, ← hl.2]

/-- What a thread receives is the response on its link. -/
lemma deliver_inv (h : RpcInv m p data s link) {op : RpcOp}
    (hc : s.clients (a, t) = .deliver c op b) (hs : clientStep m s a t = some s') :
    ∃ link', RpcInv m p data s' link' := by
  have hcl := h.clients a t
  rw [hc] at hcl
  obtain ⟨hissued, hid, hcall⟩ := hcl
  have hlock : s.lockTableClient (a, b) = some t := (h.holder a b t).mpr (by rw [hc]; exact rfl)
  simp only [clientStep, hc] at hs
  have hres := h.responses a b
  have hreq := h.requests a b
  have hlk := h.links a b
  cases hl : link (a, b) with
  | answered c' op' r =>
    simp only [hl, Link.call, Link.responses, Option.some.injEq, Prod.mk.injEq] at hcall hres hlk
    obtain ⟨rfl, rfl⟩ := hcall
    simp only [hres, Option.some.injEq] at hs
    subst hs
    refine ⟨_, h.clientMove (a := a) (b := b) (t := t) (L := .free) rfl rfl rfl rfl rfl
      (fun x hx => .inl hx) ?_ rfl ?_ ⟨rfl, hlk⟩ (.inr (by rw [hc]; rfl)) hlock
      (by simp [Link.call]) ?_ trivial rfl (by simp [hl]) (by simp [hl])⟩
    · simp only [Rpc.clientAt]
      rw [eq_comm, Function.update_eq_self_iff, hreq, hl]
      rfl
    · refine h.holder.goto fun b' => ?_
      rw [hc]
      exact Iff.rfl
    · intro c' op' b' hb'
      rw [hc] at hb'
      injection hb' with _ _ hb'
      exact hb'.symm
  | _ =>
    simp only [hl, Link.responses] at hres
    simp only [hres, Option.some.injEq] at hs
    exact ⟨link, hs ▸ h⟩

/-! ## The steps of the servers -/

/-- A step of a server thread that takes no message. -/
lemma RpcInv.serverGoto (h : RpcInv m p data s link) {y : ServerLoop}
    (hservers : s'.servers = Function.update s.servers (b, j) y) (hy : y.Ok link b j)
    (hfree : (s.servers (b, j)).serves = none)
    (hdata : s'.internalData = s.internalData) (hlog : s'.log = s.log)
    (hissued : s'.issued = s.issued) (hreturns : s'.returns = s.returns)
    (hreq : s'.requests = s.requests) (hres : s'.responses = s.responses)
    (hlocks : s'.lockTableClient = s.lockTableClient) (hclients : s'.clients = s.clients) :
    RpcInv m p data s' link := by
  refine ⟨?_, hlog ▸ h.nodup, ?_, ?_, hreq ▸ h.requests, hres ▸ h.responses, ?_, ?_, ?_, ?_, ?_, ?_,
    ?_, ?_⟩
  · rw [hdata, hlog]
    exact h.replayed
  · rw [hlog, hissued]
    exact h.issued
  · rw [hlog, hreturns]
    exact h.returned
  · rw [hlocks, hclients]
    exact h.holder
  · intro a t
    rw [hclients]
    exact (h.clients a t).frame (hissued ▸ fun _ _ => id) ⟨[], by simp [hlog]⟩ fun _ _ _ _ => rfl
  · rw [hclients, hissued]
    exact h.called
  · rw [hclients]
    exact h.distinct
  · rw [hclients]
    exact h.linked
  · rw [hlog]
    exact h.links
  · intro b' j'
    rw [hservers]
    by_cases hbj : (b', j') = (b, j)
    · injection hbj with hb hj
      subst hb hj
      rwa [Function.update_self]
    · rw [Function.update_of_ne hbj]
      exact h.servers b' j'
  · intro a' b' j' hj
    have hb := h.busy a' b' j' hj
    rw [hservers, Function.update_of_ne, hb]
    rintro ⟨⟩
    rw [hfree] at hb
    cases hb

/-- A step of a server thread on the link from `a`: it may do the call that is on it. -/
lemma RpcInv.serverMove (h : RpcInv m p data s link) {y : ServerLoop} {L : Link}
    (hservers : s'.servers = Function.update s.servers (b, j) y)
    (hy : y.Ok (Function.update link (a, b) L) b j)
    (hlog : ∃ l, s'.log = s.log ++ l ∧ ∀ e ∈ l, ∃ op, (link (a, b)).call = some (e.call, op))
    (hreplayed : s'.internalData = replay m data s'.log) (hnodup : (s'.log.map Exec.call).Nodup)
    (hexec : ∀ e ∈ s'.log, ∃ a, s.issued[e.call]? = some (a, e.op) ∧ toId p e.op.key = some e.node)
    (hissued : s'.issued = s.issued) (hreturns : s'.returns = s.returns)
    (hreq : s'.requests = Function.update s.requests (a, b) L.requests)
    (hres : s'.responses = Function.update s.responses (b, a) L.responses)
    (hlocks : s'.lockTableClient = s.lockTableClient) (hclients : s'.clients = s.clients)
    (hcall : L.call = (link (a, b)).call) (hL : L.Ok m data s'.log b)
    (hserver : ∀ j', L.server = some j' → j' = j ∧ y.serves = some a)
    (hserves : ∀ a', (s.servers (b, j)).serves = some a' → a' = a)
    (hserve : ∀ j' c op, link (a, b) = .serving j' c op → j' = j)
    (hanswer : ∀ j' c op r, link (a, b) = .answering j' c op r → j' = j) :
    RpcInv m p data s' (Function.update link (a, b) L) := by
  obtain ⟨l, hl, hown⟩ := hlog
  have hcalls : ∀ x, (Function.update link (a, b) L x).call = (link x).call := by
    intro x
    by_cases hx : x = (a, b)
    · rw [hx, Function.update_self, hcall]
    · rw [Function.update_of_ne hx]
  refine ⟨hreplayed, hnodup, hissued ▸ hexec, ?_, ?_, ?_, ?_, ?_, ?_, ?_, ?_, ?_, ?_, ?_⟩
  · intro x hx
    rw [hreturns] at hx
    obtain ⟨b, op, hc⟩ := h.returned x hx
    exact ⟨b, op, hl ▸ hc.append l⟩
  · exact fun a' b' => (h.queues hreq hres a' b').1
  · exact fun a' b' => (h.queues hreq hres a' b').2
  · rw [hlocks, hclients]
    exact h.holder
  · intro a' t'
    rw [hclients]
    refine (h.clients a' t').frame (hissued ▸ fun _ _ => id) ⟨l, hl, ?_⟩ fun c op b' _ => hcalls _
    intro e he hc
    obtain ⟨op, hop⟩ := hown e he
    obtain ⟨t₀, ht₀⟩ := h.linked a b _ op hop
    rw [h.distinct (a', t') (a, t₀) e.call hc (by rw [ht₀]; rfl)]
    exact ⟨op, b, ht₀⟩
  · rw [hclients, hissued]
    exact h.called
  · rw [hclients]
    exact h.distinct
  · intro a' b' c op hc
    rw [hcalls] at hc
    rw [hclients]
    exact h.linked a' b' c op hc
  · intro a' b'
    by_cases hab : (a', b') = (a, b)
    · rw [hab, Function.update_self]
      injection hab with ha hb
      rw [hb]
      exact hL
    · rw [Function.update_of_ne hab]
      refine (h.links a' b').frame ⟨l, hl, ?_⟩
      intro e he op' hc
      obtain ⟨op, hop⟩ := hown e he
      obtain ⟨t₀, ht₀⟩ := h.linked a b _ op hop
      obtain ⟨t₁, ht₁⟩ := h.linked a' b' _ op' hc
      have hx := h.distinct (a', t₁) (a, t₀) e.call (by rw [ht₁]; rfl) (by rw [ht₀]; rfl)
      rw [hx, ht₀] at ht₁
      injection hx with ha
      injection ht₁ with _ _ hb
      exact hab (by rw [ha, hb])
  · intro b' j'
    rw [hservers]
    by_cases hbj : (b', j') = (b, j)
    · injection hbj with hb hj
      subst hb hj
      rwa [Function.update_self]
    · rw [Function.update_of_ne hbj]
      refine (h.servers b' j').update ?_ ?_
      · rintro rfl c op hl'
        exact hbj (by rw [hserve _ _ _ hl'])
      · rintro rfl c op r hl'
        exact hbj (by rw [hanswer _ _ _ _ hl'])
  · intro a' b' j' hj
    rw [hservers]
    by_cases hab : (a', b') = (a, b)
    · rw [hab, Function.update_self] at hj
      injection hab with ha hb
      obtain ⟨rfl, hys⟩ := hserver j' hj
      rw [ha, hb, Function.update_self, hys]
    · rw [Function.update_of_ne hab] at hj
      have hb := h.busy a' b' j' hj
      rw [Function.update_of_ne, hb]
      rintro ⟨⟩
      exact hab (by rw [hserves a' hb])

lemma receive_inv (h : RpcInv m p data s link) {id : ℕ} {answer : ℤ}
    (hc : s.servers (b, j) = .receive id) (hs : serverStep m p s b j answer = some s') :
    ∃ link', RpcInv m p data s' link' := by
  simp only [serverStep, hc] at hs
  have hreq := h.requests id b
  have hres := h.responses id b
  cases hl : link (id, b) with
  | requested c op =>
    simp only [hl, Link.requests] at hreq
    simp only [hreq, Option.some.injEq] at hs
    subst hs
    have hlk := h.links id b
    rw [hl] at hlk
    refine ⟨_, h.serverMove (a := id) (b := b) (j := j) (L := .serving j c op) rfl ⟨op, ?_, rfl⟩
      ⟨[], by simp [Rpc.serverAt]⟩ h.replayed h.nodup h.issued rfl rfl rfl ?_ rfl rfl
      (by rw [hl]; rfl) hlk (by simp [Link.server, ServerLoop.serves])
      (by simp [hc, ServerLoop.serves]) (by simp [hl]) (by simp [hl])⟩
    · rw [Function.update_self]
    · simp only [Rpc.serverAt]
      rw [eq_comm, Function.update_eq_self_iff, hres, hl]
      rfl
  | _ =>
    simp only [hl, Link.requests] at hreq
    simp only [hreq, Option.some.injEq] at hs
    subst hs
    exact ⟨link, h.serverGoto rfl trivial (by rw [hc]; rfl) rfl rfl rfl rfl rfl rfl rfl rfl⟩

/-- The request is done, and the response is what it returned. -/
lemma serve_inv (h : RpcInv m p data s link) {id : ℕ} {r : RpcMsg} {answer : ℤ}
    (hc : s.servers (b, j) = .serve id r) (hs : serverStep m p s b j answer = some s') :
    ∃ link', RpcInv m p data s' link' := by
  have hsv := h.servers b j
  rw [hc] at hsv
  obtain ⟨op, hl, hr⟩ := hsv
  have hlk := h.links id b
  rw [hl] at hlk
  obtain ⟨t, ht⟩ := h.linked id b r.call op (by rw [hl]; rfl)
  have hcl := h.clients id t
  rw [ht] at hcl
  obtain ⟨hissued, hid, -⟩ := hcl
  obtain ⟨hreplayed, hnodup, hexec⟩ := h.executed hissued hid hlk
  simp only [serverStep, hc, hr, servedOp_request, serveRequest_data, Option.some.injEq] at hs
  subst hs
  refine ⟨_, h.serverMove (a := id) (b := b) (j := j)
    (L := .answering j r.call op (serveRequest m op.request answer (s.internalData b)).1) rfl
    ⟨op, ?_⟩ ⟨_, rfl, ?_⟩ hreplayed hnodup hexec rfl rfl ?_ ?_ rfl rfl (by rw [hl]; rfl) ?_
    (by simp [Link.server, ServerLoop.serves]) (by simp [hc, ServerLoop.serves]) ?_ (by simp [hl])⟩
  · rw [Function.update_self]
  · intro e he
    simp only [Option.map_some, Option.toList_some, List.mem_singleton] at he
    exact ⟨op, by rw [hl, he]; rfl⟩
  · simp only [Rpc.serverAt, Rpc.executed]
    rw [eq_comm, Function.update_eq_self_iff, h.requests, hl]
    rfl
  · simp only [Rpc.serverAt, Rpc.executed]
    rw [eq_comm, Function.update_eq_self_iff, h.responses, hl]
    rfl
  · refine ⟨_, result_serveRequest op answer _, ?_⟩
    rw [h.replayed]
    exact computed_last s.log r.call b op
  · intro j' c op' hl'
    rw [hl] at hl'
    injection hl' with hl'
    exact hl'.symm

lemma serverSend_inv (h : RpcInv m p data s link) {id : ℕ} {r : RpcMsg} {answer : ℤ}
    (hc : s.servers (b, j) = .send id r) (hs : serverStep m p s b j answer = some s') :
    ∃ link', RpcInv m p data s' link' := by
  have hsv := h.servers b j
  rw [hc] at hsv
  obtain ⟨op, hl⟩ := hsv
  have hlk := h.links id b
  rw [hl] at hlk
  simp only [serverStep, hc, Option.some.injEq] at hs
  subst hs
  refine ⟨_, h.serverMove (a := id) (b := b) (j := j) (L := .answered r.call op r.proto) rfl trivial
    ⟨[], by simp [Rpc.serverAt]⟩ h.replayed h.nodup h.issued rfl rfl ?_ ?_ rfl rfl (by rw [hl]; rfl)
    hlk (by simp [Link.server]) (by simp [hc, ServerLoop.serves]) (by simp [hl]) ?_⟩
  · simp only [Rpc.serverAt]
    rw [eq_comm, Function.update_eq_self_iff, h.requests, hl]
    rfl
  · simp only [Rpc.serverAt, h.responses, hl]
    rfl
  · intro j' c op' r' hl'
    rw [hl] at hl'
    injection hl' with hl'
    exact hl'.symm

lemma serverStep_inv (h : RpcInv m p data s link) {answer : ℤ}
    (hs : serverStep m p s b j answer = some s') : ∃ link', RpcInv m p data s' link' := by
  cases hc : s.servers (b, j) with
  | lock id =>
    simp only [serverStep, hc] at hs
    split_ifs at hs
    · rw [Option.some.injEq] at hs
      subst hs
      exact ⟨link, h.serverGoto rfl trivial (by rw [hc]; rfl) rfl rfl rfl rfl rfl rfl rfl rfl⟩
    · rw [Option.some.injEq] at hs
      subst hs
      exact ⟨link, h.serverGoto rfl trivial (by rw [hc]; rfl) rfl rfl rfl rfl rfl rfl rfl rfl⟩
    · split at hs
      · rw [Option.some.injEq] at hs
        subst hs
        exact ⟨link, h.serverGoto rfl trivial (by rw [hc]; rfl) rfl rfl rfl rfl rfl rfl rfl rfl⟩
      · cases hs
  | receive id => exact receive_inv h hc hs
  | serve id r => exact serve_inv h hc hs
  | send id r => exact serverSend_inv h hc hs
  | unlockNone id =>
    simp only [serverStep, hc, Option.some.injEq] at hs
    subst hs
    exact ⟨link, h.serverGoto rfl trivial (by rw [hc]; rfl) rfl rfl rfl rfl rfl rfl rfl rfl⟩
  | unlock id =>
    simp only [serverStep, hc, Option.some.injEq] at hs
    subst hs
    exact ⟨link, h.serverGoto rfl trivial (by rw [hc]; rfl) rfl rfl rfl rfl rfl rfl rfl rfl⟩

lemma clientStep_inv (h : RpcInv m p data s link) (hs : clientStep m s a t = some s') :
    ∃ link', RpcInv m p data s' link' := by
  cases hc : s.clients (a, t) with
  | idle => simp [clientStep, hc] at hs
  | aborted => simp [clientStep, hc] at hs
  | direct c op => exact ⟨link, direct_inv h hc hs⟩
  | lock c op b => exact ⟨link, clientLock_inv h hc hs⟩
  | send c op b => exact clientSend_inv h hc hs
  | deliver c op b => exact deliver_inv h hc hs
  | unlock c op b r => exact ⟨link, clientUnlock_inv h hc hs⟩
  | check c op b r => exact ⟨link, check_inv h hc hs⟩

theorem rpcStep_inv (h : RpcInv m p data s link) {e : RpcEvent} (hs : rpcStep m p s e = some s') :
    ∃ link', RpcInv m p data s' link' := by
  cases e with
  | call a t op =>
    simp only [rpcStep] at hs
    split_ifs at hs with hc
    obtain ⟨b, hb, rfl⟩ := Option.map_eq_some_iff.mp hs
    exact ⟨link, rpcCall_inv h hc.2 hb⟩
  | client a t => exact clientStep_inv h hs
  | server b j answer =>
    simp only [rpcStep] at hs
    split_ifs at hs
    exact serverStep_inv h hs

end Rome

import Rome.Proofs.RpcStep
import Rome.Lib.Machine

/-!
# No call is stuck

From every state there is a schedule in which a given call returns: a server thread can always go on
to the next node, another that has the lock it needs can always release it, and so a request on its
way is answered.
-/

namespace Rome

variable {σ : Type*} {m : IntMap σ} {p : RpcParams} {data : ℕ → σ}
variable {s s' : Rpc σ} {link : ℕ × ℕ → Link} {a b t j c : ℕ}

lemma toId_lt {key : ℤ} (h : toId p key = some b) (hp : 0 < p.count) : b < p.count := by
  unfold toId at h
  split_ifs at h with hk h0
  simp only at h
  split_ifs at h with hid
  · rw [Option.some.injEq] at h
    omega
  · rw [Option.some.injEq] at h
    rw [not_or] at h0
    have hlen : 0 < p.keyspaceLen := by omega
    have hnn : 0 ≤ (p.count : ℤ) * (key - p.keyspaceLb) :=
      mul_nonneg (by positivity) (by omega)
    have hle : (p.count : ℤ) * (key - p.keyspaceLb) ≤ p.count * p.keyspaceLen :=
      mul_le_mul_of_nonneg_left hk.2 (by positivity)
    rw [Int.tdiv_eq_ediv_of_nonneg hnn] at h hid
    have hdiv : (p.count : ℤ) * (key - p.keyspaceLb) / p.keyspaceLen ≤ p.count := by
      calc (p.count : ℤ) * (key - p.keyspaceLb) / p.keyspaceLen
          ≤ p.count * p.keyspaceLen / p.keyspaceLen := Int.ediv_le_ediv hlen hle
        _ = p.count := Int.mul_ediv_cancel _ (by omega)
    have hpos := Int.ediv_nonneg hnn hlen.le
    omega

/-! ## The locks of the servers -/

/-- The thread holds its node's lock on `id`. -/
def ServerLoop.holds : ServerLoop → ℕ → Prop
  | lock _, _ => False
  | receive id', id | unlockNone id', id | serve id' _, id | send id' _, id | unlock id', id =>
    id = id'

/-- The node a call away is to. -/
def ClientCall.target : ClientCall → Option ℕ
  | lock _ _ b | send _ _ b | deliver _ _ b | unlock _ _ b _ | check _ _ b _ => some b
  | _ => none

structure RpcLocks (p : RpcParams) (s : Rpc σ) : Prop where
  holder : LockTable.Held ServerLoop.holds s.lockTableServer s.servers
  threads : ∀ b j id, (s.servers (b, j)).holds id → j < p.serverThreads
  nodes : ∀ a t c, (s.clients (a, t)).call = some c → a < p.count
  remote : ∀ a t b, (s.clients (a, t)).target = some b → b ≠ a

lemma rpcLocks_init (p : RpcParams) (data : ℕ → σ) : RpcLocks p (rpcInit data) where
  holder a b t := by simp [rpcInit, ServerLoop.holds]
  threads b j id h := h.elim
  nodes a t c h := by simp [rpcInit, ClientCall.call] at h
  remote a t b h := by simp [rpcInit, ClientCall.target] at h

/-- A step of a client thread leaves the servers alone and goes on with its call. -/
lemma clientStep_frame (hs : clientStep m s a t = some s') :
    s'.servers = s.servers ∧ s'.lockTableServer = s.lockTableServer ∧
      ∃ x, s'.clients = Function.update s.clients (a, t) x ∧
        (x.call = none ∨ x.call = (s.clients (a, t)).call) ∧
        (x.target = none ∨ x.target = (s.clients (a, t)).target) := by
  unfold clientStep at hs
  split at hs <;> rename_i hc
  · cases hs
  · cases hs
  · rw [Option.some.injEq] at hs
    subst hs
    exact ⟨rfl, rfl, _, rfl, .inl rfl, .inl rfl⟩
  · split at hs
    · rw [Option.some.injEq] at hs
      subst hs
      exact ⟨rfl, rfl, _, rfl, .inr (by rw [hc]; rfl), .inr (by rw [hc]; rfl)⟩
    · cases hs
  · rw [Option.some.injEq] at hs
    subst hs
    exact ⟨rfl, rfl, _, rfl, .inr (by rw [hc]; rfl), .inr (by rw [hc]; rfl)⟩
  · split at hs
    · rw [Option.some.injEq] at hs
      subst hs
      exact ⟨rfl, rfl, _, (Function.update_eq_self _ _).symm, .inr rfl, .inr rfl⟩
    · rw [Option.some.injEq] at hs
      subst hs
      exact ⟨rfl, rfl, _, rfl, .inr (by rw [hc]; rfl), .inr (by rw [hc]; rfl)⟩
  · rw [Option.some.injEq] at hs
    subst hs
    exact ⟨rfl, rfl, _, rfl, .inr (by rw [hc]; rfl), .inr (by rw [hc]; rfl)⟩
  · split at hs
    · rw [Option.some.injEq] at hs
      subst hs
      exact ⟨rfl, rfl, _, rfl, .inl rfl, .inl rfl⟩
    · rw [Option.some.injEq] at hs
      subst hs
      exact ⟨rfl, rfl, _, rfl, .inl rfl, .inl rfl⟩

/-- A step of a server thread leaves the clients alone. -/
lemma serverStep_frame {answer : ℤ} (hs : serverStep m p s b j answer = some s') :
    s'.clients = s.clients ∧ s'.lockTableClient = s.lockTableClient ∧ s'.returns = s.returns := by
  unfold serverStep at hs
  split at hs
  · split_ifs at hs
    · rw [Option.some.injEq] at hs
      subst hs
      exact ⟨rfl, rfl, rfl⟩
    · rw [Option.some.injEq] at hs
      subst hs
      exact ⟨rfl, rfl, rfl⟩
    · split at hs
      · rw [Option.some.injEq] at hs
        subst hs
        exact ⟨rfl, rfl, rfl⟩
      · cases hs
  · split at hs <;> rw [Option.some.injEq] at hs <;> subst hs <;> exact ⟨rfl, rfl, rfl⟩
  all_goals
    rw [Option.some.injEq] at hs
    subst hs
    exact ⟨rfl, rfl, rfl⟩

lemma RpcLocks.serverGoto (h : RpcLocks p s) {y : ServerLoop} (hj : j < p.serverThreads)
    (hservers : s'.servers = Function.update s.servers (b, j) y) (hclients : s'.clients = s.clients)
    (hholder : LockTable.Held ServerLoop.holds s'.lockTableServer s'.servers) : RpcLocks p s' := by
  refine ⟨hholder, ?_, hclients ▸ h.nodes, hclients ▸ h.remote⟩
  intro b' j' id hid
  rw [hservers] at hid
  by_cases hbj : (b', j') = (b, j)
  · injection hbj with _ hj'
    rwa [hj']
  · rw [Function.update_of_ne hbj] at hid
    exact h.threads b' j' id hid

lemma serverStep_locks (h : RpcLocks p s) (hj : j < p.serverThreads) {answer : ℤ}
    (hs : serverStep m p s b j answer = some s') : RpcLocks p s' := by
  cases hc : s.servers (b, j) with
  | lock id =>
    have hnot : ∀ id', ¬ (s.servers (b, j)).holds id' := by
      intro id' hid
      rw [hc] at hid
      exact hid
    have hgoto : ∀ id', RpcLocks p (s.serverAt b j (.lock id')) := by
      intro id'
      refine h.serverGoto hj rfl rfl (h.holder.goto fun b' => ?_)
      exact ⟨fun h' => h'.elim, fun h' => absurd h' (hnot b')⟩
    simp only [serverStep, hc] at hs
    split_ifs at hs
    · rw [Option.some.injEq] at hs
      exact hs ▸ hgoto 0
    · rw [Option.some.injEq] at hs
      exact hs ▸ hgoto (id + 1)
    · split at hs
      · rename_i hfree
        rw [Option.some.injEq] at hs
        subst hs
        exact h.serverGoto hj rfl rfl (h.holder.take hfree hnot fun id' => Iff.rfl)
      · cases hs
  | receive id =>
    simp only [serverStep, hc] at hs
    split at hs
    all_goals
      rw [Option.some.injEq] at hs
      subst hs
      refine h.serverGoto hj rfl rfl (h.holder.goto fun b' => ?_)
      rw [hc]
      exact Iff.rfl
  | serve id r =>
    simp only [serverStep, hc, Option.some.injEq] at hs
    subst hs
    refine h.serverGoto hj rfl rfl (h.holder.goto fun b' => ?_)
    rw [hc]
    exact Iff.rfl
  | send id r =>
    simp only [serverStep, hc, Option.some.injEq] at hs
    subst hs
    refine h.serverGoto hj rfl rfl (h.holder.goto fun b' => ?_)
    rw [hc]
    exact Iff.rfl
  | unlockNone id | unlock id =>
    simp only [serverStep, hc, Option.some.injEq] at hs
    subst hs
    refine h.serverGoto hj rfl rfl (h.holder.release (fun id' => ?_) fun id' h' => h')
    rw [hc]
    exact Iff.rfl

lemma rpcStep_locks (h : RpcLocks p s) {e : RpcEvent} (hs : rpcStep m p s e = some s') :
    RpcLocks p s' := by
  cases e with
  | call a t op =>
    simp only [rpcStep] at hs
    split_ifs at hs with hc
    obtain ⟨b, hb, rfl⟩ := Option.map_eq_some_iff.mp hs
    refine ⟨h.holder, h.threads, ?_, ?_⟩
    · intro a' t' c hc'
      simp only [Rpc.clientAt] at hc'
      by_cases hat : (a', t') = (a, t)
      · injection hat with ha
        rw [ha]
        exact hc.1
      · rw [Function.update_of_ne hat] at hc'
        exact h.nodes a' t' c hc'
    · intro a' t' b' hb'
      simp only [Rpc.clientAt] at hb'
      by_cases hat : (a', t') = (a, t)
      · rw [hat, Function.update_self] at hb'
        injection hat with ha
        split_ifs at hb' with hba
        · cases hb'
        · injection hb' with hb'
          rw [← hb', ha]
          exact hba
      · rw [Function.update_of_ne hat] at hb'
        exact h.remote a' t' b' hb'
  | client a t =>
    obtain ⟨hservers, hlocks, x, hclients, hcall, htarget⟩ := clientStep_frame hs
    refine ⟨?_, hservers ▸ h.threads, ?_, ?_⟩
    · rw [hservers, hlocks]
      exact h.holder
    · intro a' t' c hc
      rw [hclients] at hc
      exact h.nodes a' t' c (call_of_update hcall hc)
    · intro a' t' b hb
      rw [hclients] at hb
      by_cases hat : (a', t') = (a, t)
      · rw [hat, Function.update_self] at hb
        injection hat with ha ht
        rcases htarget with h' | h'
        · rw [h'] at hb
          cases hb
        · rw [ha]
          exact h.remote a t b (h' ▸ hb)
      · rw [Function.update_of_ne hat] at hb
        exact h.remote a' t' b hb
  | server b j answer =>
    simp only [rpcStep] at hs
    split_ifs at hs with hbj
    exact serverStep_locks h hbj.2 hs

/-- The invariant of the nodes. -/
def RpcOk (m : IntMap σ) (p : RpcParams) (data : ℕ → σ) (s : Rpc σ) : Prop :=
  (∃ link, RpcInv m p data s link) ∧ RpcLocks p s

theorem RpcOk.run {es : List RpcEvent} (h : RpcOk m p data s)
    (hr : Machine.run (rpcStep m p) s es = some s') : RpcOk m p data s' := by
  refine Machine.run_inv' (I := RpcOk m p data) ?_ hr h
  rintro s e s' ⟨⟨link, hinv⟩, hlocks⟩ hs
  exact ⟨rpcStep_inv hinv hs, rpcStep_locks hlocks hs⟩

theorem RpcOk.reaches (h : RpcOk m p data s) (hr : Machine.Reaches (rpcStep m p) s s') :
    RpcOk m p data s' := by
  obtain ⟨es, hes⟩ := hr
  exact h.run hes

/-! ## The schedule of the servers -/

/-- `s'` is reached from `s` by steps of server threads. -/
structure ServerRun (m : IntMap σ) (p : RpcParams) (s s' : Rpc σ) : Prop where
  reaches : Machine.Reaches (rpcStep m p) s s'
  clients : s'.clients = s.clients
  lockTableClient : s'.lockTableClient = s.lockTableClient

lemma ServerRun.refl (s : Rpc σ) : ServerRun m p s s := ⟨.refl s, rfl, rfl⟩

lemma ServerRun.trans {s₁ : Rpc σ} (h : ServerRun m p s s₁) (h' : ServerRun m p s₁ s') :
    ServerRun m p s s' :=
  ⟨h.reaches.trans h'.reaches, h'.clients.trans h.clients,
    h'.lockTableClient.trans h.lockTableClient⟩

lemma ServerRun.step {s₁ : Rpc σ} (hb : b < p.count) (hj : j < p.serverThreads)
    (hs : serverStep m p s b j 0 = some s₁) (h : ServerRun m p s₁ s') : ServerRun m p s s' := by
  obtain ⟨hclients, hlock, -⟩ := serverStep_frame hs
  refine ⟨.head (e := .server b j 0) ?_ h.reaches, h.clients.trans hclients,
    h.lockTableClient.trans hlock⟩
  simp only [rpcStep, if_pos (And.intro hb hj)]
  exact hs

/-- Thread `j` of `b` has finished with node `id`. -/
structure Drained (m : IntMap σ) (p : RpcParams) (s s' : Rpc σ) (b j id : ℕ) : Prop where
  run : ServerRun m p s s'
  servers : s'.servers = Function.update s.servers (b, j) (.lock (id + 1))
  lock : s'.lockTableServer = Function.update s.lockTableServer (b, id) none
  requests : ∀ a, a ≠ id → s'.requests (a, b) = s.requests (a, b)

lemma drained_step {s₁ : Rpc σ} {id : ℕ} {y : ServerLoop} (hb : b < p.count)
    (hj : j < p.serverThreads) (hs : serverStep m p s b j 0 = some s₁)
    (hservers : s₁.servers = Function.update s.servers (b, j) y)
    (hlock : s₁.lockTableServer = s.lockTableServer)
    (hreq : ∀ a, a ≠ id → s₁.requests (a, b) = s.requests (a, b))
    (h : ∃ s', Drained m p s₁ s' b j id) : ∃ s', Drained m p s s' b j id := by
  obtain ⟨s', h⟩ := h
  refine ⟨s', h.run.step hb hj hs, ?_, ?_, fun a ha => (h.requests a ha).trans (hreq a ha)⟩
  · rw [h.servers, hservers, Function.update_idem]
  · rw [h.lock, hlock]

section
variable {id : ℕ} {r : RpcMsg} {v : ℤ}

lemma serverStep_unlock (hc : s.servers (b, j) = .unlock id ∨ s.servers (b, j) = .unlockNone id) :
    serverStep m p s b j v = some ({ s with
      lockTableServer := Function.update s.lockTableServer (b, id) none }.serverAt b j
        (.lock (id + 1))) := by
  rcases hc with hc | hc
  · simp only [serverStep, hc]
  · simp only [serverStep, hc]

lemma serverStep_send (hc : s.servers (b, j) = .send id r) :
    serverStep m p s b j v = some ({ s with
      responses := Function.update s.responses (b, id) (s.responses (b, id) ++ [r]) }.serverAt b j
        (.unlock id)) := by
  simp only [serverStep, hc]

lemma serverStep_serve (hc : s.servers (b, j) = .serve id r) :
    serverStep m p s b j v = some ((s.executed b
      (serveRequest m r.proto v (s.internalData b)).2 r.call (servedOp r.proto)).serverAt b j
        (.send id ⟨(serveRequest m r.proto v (s.internalData b)).1, r.call⟩)) := by
  simp only [serverStep, hc]

lemma serverStep_receive_nil (hc : s.servers (b, j) = .receive id) (hr : s.requests (id, b) = []) :
    serverStep m p s b j v = some (s.serverAt b j (.unlockNone id)) := by
  simp only [serverStep, hc, hr]

lemma serverStep_receive_cons {rs : List RpcMsg} (hc : s.servers (b, j) = .receive id)
    (hr : s.requests (id, b) = r :: rs) :
    serverStep m p s b j v = some ({ s with
      requests := Function.update s.requests (id, b) rs }.serverAt b j (.serve id r)) := by
  simp only [serverStep, hc, hr]

lemma serverStep_lock (hc : s.servers (b, j) = .lock id) (hid : id < p.count) (hne : id ≠ b)
    (hfree : s.lockTableServer (b, id) = none) :
    serverStep m p s b j v = some ({ s with
      lockTableServer := Function.update s.lockTableServer (b, id) (some j) }.serverAt b j
        (.receive id)) := by
  simp only [serverStep, hc, if_neg (not_le.mpr hid), if_neg hne, hfree]

end

/-- A thread that holds a lock can go on until it has released it. -/
lemma exists_drained {i : ℕ} (hb : b < p.count) (hj : j < p.serverThreads)
    (hh : (s.servers (b, j)).holds i) : ∃ s', Drained m p s s' b j i := by
  have hunlock : ∀ s : Rpc σ, s.servers (b, j) = .unlock i ∨ s.servers (b, j) = .unlockNone i →
      ∃ s', Drained m p s s' b j i := by
    intro s hc
    exact ⟨_, (ServerRun.refl _).step hb hj (serverStep_unlock hc), rfl, rfl, fun a _ => rfl⟩
  have hsend : ∀ (s : Rpc σ) r, s.servers (b, j) = .send i r → ∃ s', Drained m p s s' b j i := by
    intro s r hc
    exact drained_step hb hj (serverStep_send hc) rfl rfl (fun a _ => rfl)
      (hunlock _ (.inl (Function.update_self ..)))
  have hserve : ∀ (s : Rpc σ) r, s.servers (b, j) = .serve i r → ∃ s', Drained m p s s' b j i := by
    intro s r hc
    exact drained_step hb hj (serverStep_serve hc) rfl rfl (fun a _ => rfl)
      (hsend _ _ (Function.update_self ..))
  cases hc : s.servers (b, j) with
  | lock i' =>
    rw [hc] at hh
    exact hh.elim
  | receive i' =>
    rw [hc] at hh
    obtain rfl : i = i' := hh
    cases hr : s.requests (i, b) with
    | nil =>
      exact drained_step hb hj (serverStep_receive_nil hc hr) rfl rfl (fun a _ => rfl)
        (hunlock _ (.inr (Function.update_self ..)))
    | cons r rs =>
      refine drained_step hb hj (serverStep_receive_cons hc hr) rfl rfl (fun a ha => ?_)
        (hserve _ r (Function.update_self ..))
      simp only [Rpc.serverAt]
      rw [Function.update_of_ne (by simp [ha])]
  | unlockNone i' =>
    rw [hc] at hh
    obtain rfl : i = i' := hh
    exact hunlock s (.inr hc)
  | serve i' r =>
    rw [hc] at hh
    obtain rfl : i = i' := hh
    exact hserve s r hc
  | send i' r =>
    rw [hc] at hh
    obtain rfl : i = i' := hh
    exact hsend s r hc
  | unlock i' =>
    rw [hc] at hh
    obtain rfl : i = i' := hh
    exact hunlock s (.inl hc)

lemma RpcLocks.reaches (h : RpcLocks p s) (hr : Machine.Reaches (rpcStep m p) s s') :
    RpcLocks p s' := by
  obtain ⟨es, hes⟩ := hr
  exact Machine.run_inv' (fun _ _ _ h hs => rpcStep_locks h hs) hes h

/-- The steps of its loop that a server thread at node `id` has to node `a`. -/
def turns (p : RpcParams) (a id : ℕ) : ℕ :=
  if id ≤ a then a - id else if id < p.count then p.count - id + 1 + a else a + 1

lemma turns_zero {id : ℕ} (ha : a < p.count) (hid : p.count ≤ id) : turns p a 0 < turns p a id := by
  unfold turns
  rw [if_pos (Nat.zero_le a), if_neg (by omega), if_neg (by omega)]
  omega

lemma turns_succ {id : ℕ} (hid : id < p.count) (hne : id ≠ a) :
    turns p a (id + 1) < turns p a id := by
  unfold turns
  split_ifs <;> omega

/-- What the request from `a` to `b` finds while thread 0 of `b` is on its way to it. -/
structure Passing (p : RpcParams) (s : Rpc σ) (a b id : ℕ) : Prop where
  locks : RpcLocks p s
  server : s.servers (b, 0) = .lock id
  free : s.lockTableServer (b, a) = none

/-- A lock that thread 0 waits for can be released. -/
lemma exists_free {id : ℕ} (hb : b < p.count) (h : Passing p s a b id) (hne : id ≠ a) :
    ∃ s', ServerRun m p s s' ∧ Passing p s' a b id ∧ s'.lockTableServer (b, id) = none ∧
      s'.requests (a, b) = s.requests (a, b) := by
  cases hl : s.lockTableServer (b, id) with
  | none => exact ⟨s, .refl s, h, hl, rfl⟩
  | some j' =>
    have hh := (h.locks.holder b id j').mp hl
    have hj : j' ≠ 0 := by
      rintro rfl
      rw [h.server] at hh
      exact hh
    obtain ⟨s', hs'⟩ := exists_drained (m := m) hb (h.locks.threads b j' id hh) hh
    refine ⟨s', hs'.run, ⟨h.locks.reaches hs'.run.reaches, ?_, ?_⟩, ?_, hs'.requests a hne.symm⟩
    · rw [hs'.servers, Function.update_of_ne (by simp [Ne.symm hj]), h.server]
    · rw [hs'.lock, Function.update_of_ne (by simp [Ne.symm hne]), h.free]
    · rw [hs'.lock, Function.update_self]

/-- Thread 0 can go on to the next node. -/
lemma exists_turn {id : ℕ} (hb : b < p.count) (ha : a < p.count) (hp : 0 < p.serverThreads)
    (h : Passing p s a b id) (hne : id ≠ a) :
    ∃ s' id', ServerRun m p s s' ∧ Passing p s' a b id' ∧ turns p a id' < turns p a id ∧
      s'.requests (a, b) = s.requests (a, b) := by
  by_cases hcount : p.count ≤ id
  · have hs : serverStep m p s b 0 0 = some (s.serverAt b 0 (.lock 0)) := by
      simp only [serverStep, h.server, if_pos hcount]
    have hrun := (ServerRun.refl _).step hb hp hs
    exact ⟨_, 0, hrun, ⟨h.locks.reaches hrun.reaches, Function.update_self .., h.free⟩,
      turns_zero ha hcount, rfl⟩
  · rw [not_le] at hcount
    by_cases hib : id = b
    · have hs : serverStep m p s b 0 0 = some (s.serverAt b 0 (.lock (id + 1))) := by
        simp only [serverStep, h.server, if_neg (not_le.mpr hcount), if_pos hib]
      have hrun := (ServerRun.refl _).step hb hp hs
      exact ⟨_, id + 1, hrun, ⟨h.locks.reaches hrun.reaches, Function.update_self .., h.free⟩,
        turns_succ hcount hne, rfl⟩
    · obtain ⟨s₁, hrun, h₁, hfree, hreq⟩ := exists_free (m := m) hb h hne
      have hs := serverStep_lock (m := m) (v := 0) h₁.server hcount hib hfree
      obtain ⟨s₂, hs₂⟩ := exists_drained (m := m) (i := id) hb hp (s := Rpc.serverAt { s₁ with
        lockTableServer := Function.update s₁.lockTableServer (b, id) (some 0) } b 0 (.receive id))
        (by simp [Rpc.serverAt, ServerLoop.holds])
      have hrun₂ := hrun.trans (hs₂.run.step hb hp hs)
      refine ⟨s₂, id + 1, hrun₂, ⟨h.locks.reaches hrun₂.reaches, ?_, ?_⟩, turns_succ hcount hne, ?_⟩
      · rw [hs₂.servers, Function.update_self]
      · rw [hs₂.lock, Function.update_of_ne (by simp [Ne.symm hne])]
        simp only [Rpc.serverAt]
        rw [Function.update_of_ne (by simp [Ne.symm hne]), h₁.free]
      · rw [hs₂.requests a (Ne.symm hne)]
        exact hreq

/-- A server thread can come to take what `a` has sent. -/
lemma exists_receive (hb : b < p.count) (ha : a < p.count) (hab : a ≠ b)
    (hp : 0 < p.serverThreads) :
    ∀ (n : ℕ) (s : Rpc σ) (id : ℕ), turns p a id = n → Passing p s a b id →
      ∃ s', ServerRun m p s s' ∧ s'.servers (b, 0) = .receive a ∧
        s'.requests (a, b) = s.requests (a, b) := by
  intro n
  induction n using Nat.strong_induction_on with
  | _ n ih =>
    intro s id hn h
    by_cases hne : id = a
    · subst hne
      have hs := serverStep_lock (m := m) (v := 0) h.server ha hab h.free
      exact ⟨_, (ServerRun.refl _).step hb hp hs, Function.update_self .., rfl⟩
    · obtain ⟨s₁, id₁, hrun, h₁, hlt, hreq⟩ := exists_turn (m := m) hb ha hp h hne
      obtain ⟨s₂, hrun₂, hserver, hreq₂⟩ := ih _ (hn ▸ hlt) s₁ id₁ rfl h₁
      exact ⟨s₂, hrun.trans hrun₂, hserver, hreq₂.trans hreq⟩

section
variable (hb : b < p.count) (hj : j < p.serverThreads)
include hb hj

lemma exists_sent {r : RpcMsg} (hc : s.servers (b, j) = .send a r) :
    ∃ s', ServerRun m p s s' ∧ s'.responses (b, a) ≠ [] :=
  ⟨_, (ServerRun.refl _).step hb hj (serverStep_send hc), by simp [Rpc.serverAt]⟩

lemma exists_served {r : RpcMsg} (hc : s.servers (b, j) = .serve a r) :
    ∃ s', ServerRun m p s s' ∧ s'.responses (b, a) ≠ [] := by
  have hs := serverStep_serve (m := m) (p := p) (v := 0) hc
  obtain ⟨s', hrun, hres⟩ := exists_sent (m := m) hb hj (s := (s.executed b
    (serveRequest m r.proto 0 (s.internalData b)).2 r.call (servedOp r.proto)).serverAt b j
      (.send a ⟨(serveRequest m r.proto 0 (s.internalData b)).1, r.call⟩)) (Function.update_self ..)
  exact ⟨s', hrun.step hb hj hs, hres⟩

lemma exists_answered {r : RpcMsg} {rs : List RpcMsg} (hc : s.servers (b, j) = .receive a)
    (hr : s.requests (a, b) = r :: rs) : ∃ s', ServerRun m p s s' ∧ s'.responses (b, a) ≠ [] := by
  have hs := serverStep_receive_cons (m := m) (p := p) (v := 0) hc hr
  obtain ⟨s', hrun, hres⟩ := exists_served (m := m) hb hj (s := Rpc.serverAt { s with
    requests := Function.update s.requests (a, b) rs } b j (.serve a r)) (Function.update_self ..)
  exact ⟨s', hrun.step hb hj hs, hres⟩

end

/-- With the lock on `a` free, what `a` has sent can be answered. -/
lemma exists_response_of_free (hb : b < p.count) (ha : a < p.count) (hab : a ≠ b)
    (hp : 0 < p.serverThreads) (hlocks : RpcLocks p s) (hfree : s.lockTableServer (b, a) = none)
    {r : RpcMsg} {rs : List RpcMsg} (hr : s.requests (a, b) = r :: rs) :
    ∃ s', ServerRun m p s s' ∧ s'.responses (b, a) ≠ [] := by
  have hpass : ∃ s₁ id, ServerRun m p s s₁ ∧ Passing p s₁ a b id ∧
      s₁.requests (a, b) = s.requests (a, b) := by
    by_cases hh : ∃ id, (s.servers (b, 0)).holds id
    · obtain ⟨id, hh⟩ := hh
      have hne : a ≠ id := by
        rintro rfl
        rw [(hlocks.holder b a 0).mpr hh] at hfree
        cases hfree
      obtain ⟨s₁, hs₁⟩ := exists_drained (m := m) hb hp hh
      refine ⟨s₁, id + 1, hs₁.run, ⟨hlocks.reaches hs₁.run.reaches, ?_, ?_⟩, hs₁.requests a hne⟩
      · rw [hs₁.servers, Function.update_self]
      · rw [hs₁.lock, Function.update_of_ne (by simp [hne]), hfree]
    · cases hc : s.servers (b, 0) with
      | lock id => exact ⟨s, id, .refl s, ⟨hlocks, hc, hfree⟩, rfl⟩
      | _ =>
        rw [hc] at hh
        exact absurd ⟨_, rfl⟩ hh
  obtain ⟨s₁, id, hrun₁, h₁, hreq₁⟩ := hpass
  obtain ⟨s₂, hrun₂, hserver, hreq₂⟩ := exists_receive (m := m) hb ha hab hp _ s₁ id rfl h₁
  obtain ⟨s₃, hrun₃, hres⟩ := exists_answered (m := m) hb hp hserver ((hreq₂.trans hreq₁).trans hr)
  exact ⟨s₃, (hrun₁.trans hrun₂).trans hrun₃, hres⟩

/-- A call on its way can be answered. -/
lemma exists_response (h : RpcOk m p data s) (hp : 0 < p.serverThreads) {op : RpcOp}
    (hc : s.clients (a, t) = .deliver c op b) :
    ∃ s', ServerRun m p s s' ∧ s'.responses (b, a) ≠ [] := by
  obtain ⟨⟨link, hinv⟩, hlocks⟩ := h
  have hcl := hinv.clients a t
  rw [hc] at hcl
  obtain ⟨-, hid, hcall⟩ := hcl
  have ha := hlocks.nodes a t c (by rw [hc]; rfl)
  have hb := toId_lt hid (by omega)
  have hab : a ≠ b := (hlocks.remote a t b (by rw [hc]; rfl)).symm
  have hbusy := hinv.busy a b
  have hreq := hinv.requests a b
  have hres := hinv.responses a b
  cases hl : link (a, b) with
  | free => simp [hl, Link.call] at hcall
  | serving j c' op' | answering j c' op' r' =>
    rw [hl] at hbusy
    have hserves := hbusy j rfl
    cases hsv : s.servers (b, j) with
    | serve id r =>
      rw [hsv] at hserves
      obtain rfl : id = a := by simpa [ServerLoop.serves] using hserves
      have hj := hlocks.threads b j id (by rw [hsv]; exact rfl)
      exact exists_served hb hj hsv
    | send id r =>
      rw [hsv] at hserves
      obtain rfl : id = a := by simpa [ServerLoop.serves] using hserves
      have hj := hlocks.threads b j id (by rw [hsv]; exact rfl)
      exact exists_sent hb hj hsv
    | _ =>
      rw [hsv] at hserves
      cases hserves
  | answered c' op' r => exact ⟨s, .refl s, by simp [hres, hl, Link.responses]⟩
  | requested c' op' =>
    rw [hl] at hreq
    cases hlock : s.lockTableServer (b, a) with
    | none => exact exists_response_of_free hb ha hab hp hlocks hlock hreq
    | some j =>
      have hh := (hlocks.holder b a j).mp hlock
      have hj := hlocks.threads b j a hh
      by_cases hrec : s.servers (b, j) = .receive a
      · exact exists_answered hb hj hrec hreq
      · -- the thread has found no request, or has answered the last one
        have hsv := hinv.servers b j
        have hun : s.servers (b, j) = .unlock a ∨ s.servers (b, j) = .unlockNone a := by
          cases hc' : s.servers (b, j) with
          | lock id =>
            rw [hc'] at hh
            exact hh.elim
          | receive id =>
            rw [hc'] at hh hrec
            exact absurd (congrArg ServerLoop.receive hh.symm) hrec
          | serve id r =>
            rw [hc'] at hh hsv
            obtain ⟨op', hl', -⟩ := hsv
            rw [← show a = id from hh, hl] at hl'
            cases hl'
          | send id r =>
            rw [hc'] at hh hsv
            obtain ⟨op', hl'⟩ := hsv
            rw [← show a = id from hh, hl] at hl'
            cases hl'
          | unlockNone id =>
            rw [hc'] at hh
            exact .inr (congrArg ServerLoop.unlockNone hh.symm)
          | unlock id =>
            rw [hc'] at hh
            exact .inl (congrArg ServerLoop.unlock hh.symm)
        have hrun := (ServerRun.refl _).step hb hj (serverStep_unlock (m := m) hun)
        obtain ⟨s', hrun', hres'⟩ := exists_response_of_free (m := m) hb ha hab hp
          (hlocks.reaches hrun.reaches) (Function.update_self ..) hreq
        exact ⟨s', hrun.trans hrun', hres'⟩

/-! ## The schedule of a call -/

lemma reaches_client {s₁ : Rpc σ} (hs : clientStep m s a t = some s₁)
    (h : Machine.Reaches (rpcStep m p) s₁ s') : Machine.Reaches (rpcStep m p) s s' :=
  .head (e := .client a t) hs h

/-- Thread `t` of `a`, in call `c`, has its response and has released the lock on `b`; the other
clients are where they were. -/
structure Released (m : IntMap σ) (p : RpcParams) (s s' : Rpc σ) (a t b c : ℕ) : Prop where
  reaches : Machine.Reaches (rpcStep m p) s s'
  lock : s'.lockTableClient (a, b) = none
  clients : ∀ y, y ≠ (a, t) → s'.clients y = s.clients y
  check : ∃ op r, s'.clients (a, t) = .check c op b r

lemma Released.step {s₁ : Rpc σ} {x : ClientCall} (hs : clientStep m s a t = some s₁)
    (hclients : s₁.clients = Function.update s.clients (a, t) x)
    (h : Released m p s₁ s' a t b c) : Released m p s s' a t b c := by
  refine ⟨reaches_client hs h.reaches, h.lock, fun y hy => ?_, h.check⟩
  rw [h.clients y hy, hclients, Function.update_of_ne hy]

lemma released_of_unlock {op : RpcOp} {r : RpcMsg} (hc : s.clients (a, t) = .unlock c op b r) :
    ∃ s', Released m p s s' a t b c := by
  have hs : clientStep m s a t = some (Rpc.clientAt { s with
      lockTableClient := Function.update s.lockTableClient (a, b) none }
      a t (.check c op b r)) := by
    simp only [clientStep, hc]
  refine ⟨_, reaches_client hs (.refl _), Function.update_self .., fun y hy => ?_, op, r,
    Function.update_self ..⟩
  exact Function.update_of_ne hy _ _

lemma released_of_deliver (h : RpcOk m p data s) (hp : 0 < p.serverThreads) {op : RpcOp}
    (hc : s.clients (a, t) = .deliver c op b) : ∃ s', Released m p s s' a t b c := by
  obtain ⟨s₁, hrun, hres⟩ := exists_response h hp hc
  obtain ⟨r, rs, hrs⟩ := List.exists_cons_of_ne_nil hres
  have hs : clientStep m s₁ a t = some (Rpc.clientAt { s₁ with
      responses := Function.update s₁.responses (b, a) rs } a t (.unlock c op b r)) := by
    simp only [clientStep, hrun.clients, hc, hrs]
  obtain ⟨s₂, h₂⟩ := released_of_unlock (m := m) (p := p) (s := Rpc.clientAt { s₁ with
    responses := Function.update s₁.responses (b, a) rs } a t (.unlock c op b r))
    (Function.update_self ..)
  have h₁ := h₂.step hs rfl
  refine ⟨s₂, hrun.reaches.trans h₁.reaches, h₁.lock, fun y hy => ?_, h₁.check⟩
  rw [h₁.clients y hy, hrun.clients]

lemma released_of_send (h : RpcOk m p data s) (hp : 0 < p.serverThreads) {op : RpcOp}
    (hc : s.clients (a, t) = .send c op b) : ∃ s', Released m p s s' a t b c := by
  have hs : clientStep m s a t = some (Rpc.clientAt { s with
      requests := Function.update s.requests (a, b)
        (s.requests (a, b) ++ [RpcMsg.mk op.request c]) } a t (.deliver c op b)) := by
    simp only [clientStep, hc]
  obtain ⟨s', hs'⟩ := released_of_deliver (h.reaches (reaches_client hs (.refl _))) hp
    (Function.update_self ..)
  exact ⟨s', hs'.step hs rfl⟩

/-- A thread that holds a lock can go on until it has released it. -/
lemma exists_released (h : RpcOk m p data s) (hp : 0 < p.serverThreads)
    (hh : (s.clients (a, t)).holds b) : ∃ s' c, (s.clients (a, t)).call = some c ∧
      Released m p s s' a t b c := by
  cases hc : s.clients (a, t) with
  | send c op b' =>
    rw [hc] at hh
    obtain rfl : b = b' := hh
    obtain ⟨s', hs'⟩ := released_of_send h hp hc
    exact ⟨s', c, rfl, hs'⟩
  | deliver c op b' =>
    rw [hc] at hh
    obtain rfl : b = b' := hh
    obtain ⟨s', hs'⟩ := released_of_deliver h hp hc
    exact ⟨s', c, rfl, hs'⟩
  | unlock c op b' r =>
    rw [hc] at hh
    obtain rfl : b = b' := hh
    obtain ⟨s', hs'⟩ := released_of_unlock (m := m) (p := p) hc
    exact ⟨s', c, rfl, hs'⟩
  | _ =>
    rw [hc] at hh
    exact hh.elim

/-- Some run from `s` ends with call `c` returned. -/
def Returns (m : IntMap σ) (p : RpcParams) (s : Rpc σ) (c : ℕ) : Prop :=
  ∃ s', Machine.Reaches (rpcStep m p) s s' ∧ ∃ v, (c, v) ∈ s'.returns

lemma Returns.of_reaches (hr : Machine.Reaches (rpcStep m p) s s') (h : Returns m p s' c) :
    Returns m p s c := by
  obtain ⟨s₁, hr₁, hv⟩ := h
  exact ⟨s₁, hr.trans hr₁, hv⟩

lemma returns_of_check (h : RpcOk m p data s) {op : RpcOp} {r : RpcMsg}
    (hc : s.clients (a, t) = .check c op b r) : Returns m p s c := by
  obtain ⟨⟨link, hinv⟩, -⟩ := h
  have hcl := hinv.clients a t
  rw [hc] at hcl
  obtain ⟨-, v, hv, -⟩ := hcl
  have hs : clientStep m s a t = some (s.returned a t c v) := by
    simp only [clientStep, hc, hv]
  exact ⟨_, reaches_client hs (.refl _), v, by simp [Rpc.returned]⟩

lemma returns_of_holds (h : RpcOk m p data s) (hp : 0 < p.serverThreads)
    (hh : (s.clients (a, t)).holds b) (hc : (s.clients (a, t)).call = some c) :
    Returns m p s c := by
  obtain ⟨s', c', hc', hs'⟩ := exists_released h hp hh
  obtain rfl : c = c' := Option.some.inj (hc.symm.trans hc')
  obtain ⟨op, r, hcheck⟩ := hs'.check
  exact .of_reaches hs'.reaches (returns_of_check (h.reaches hs'.reaches) hcheck)

lemma returns_of_lock_free (h : RpcOk m p data s) (hp : 0 < p.serverThreads) {op : RpcOp}
    (hc : s.clients (a, t) = .lock c op b) (hfree : s.lockTableClient (a, b) = none) :
    Returns m p s c := by
  have hs : clientStep m s a t = some (Rpc.clientAt { s with
      lockTableClient := Function.update s.lockTableClient (a, b) (some t) }
      a t (.send c op b)) := by
    simp only [clientStep, hc, hfree]
  have hr : Machine.Reaches (rpcStep m p) s _ := reaches_client hs (.refl _)
  refine .of_reaches hr (returns_of_holds (h.reaches hr) hp (a := a) (t := t) (b := b) ?_ ?_)
  · simp [Rpc.clientAt, ClientCall.holds]
  · simp [Rpc.clientAt, ClientCall.call]

/-- Every call can be brought to return. -/
theorem exists_return (h : RpcOk m p data s) (hp : 0 < p.serverThreads)
    (hc : (s.clients (a, t)).call = some c) : Returns m p s c := by
  cases hx : s.clients (a, t) with
  | idle | aborted =>
    rw [hx] at hc
    cases hc
  | direct c' op =>
    rw [hx] at hc
    obtain rfl : c' = c := by simpa [ClientCall.call] using hc
    have hs : clientStep m s a t = some ((s.executed a (op.direct m (s.internalData a)).2 c'
        (some op)).returned a t c' (op.direct m (s.internalData a)).1) := by
      simp only [clientStep, hx]
    refine ⟨_, reaches_client hs (.refl _), (op.direct m (s.internalData a)).1, ?_⟩
    simp [Rpc.returned]
  | lock c' op b =>
    rw [hx] at hc
    obtain rfl : c' = c := by simpa [ClientCall.call] using hc
    cases hl : s.lockTableClient (a, b) with
    | none => exact returns_of_lock_free h hp hx hl
    | some t' =>
      obtain ⟨⟨link, hinv⟩, -⟩ := id h
      have hh := (hinv.holder a b t').mp hl
      have hne : (a, t) ≠ (a, t') := by
        intro heq
        rw [← heq, hx] at hh
        exact hh
      obtain ⟨s', c', -, hs'⟩ := exists_released h hp hh
      have hx' := (hs'.clients (a, t) hne).trans hx
      exact .of_reaches hs'.reaches (returns_of_lock_free (h.reaches hs'.reaches) hp hx' hs'.lock)
  | send c' op b | deliver c' op b | unlock c' op b r =>
    exact returns_of_holds (b := b) h hp (by rw [hx]; exact rfl) hc
  | check c' op b r =>
    rw [hx] at hc
    obtain rfl : c' = c := by simpa [ClientCall.call] using hc
    exact returns_of_check h hx

end Rome

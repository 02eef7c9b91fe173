import Rome.Proofs.ConnectionManager

/-!
# The two ends of a connection agree

Each thread of each node plays a role in the making of a connection: it waits for the answer to its
request, it has the answer, or it serves the request of another node. A node that waits for a peer
has no entry for it, and its broker gets no lock to make one; so a request that a broker has
admitted is the only one between the two nodes, until both have entered it.
-/

namespace Rome

open Machine

/-- What a call of a node does for a connection. -/
inductive Role
  | none
  | waiting (peer c : ℕ)
  | answered (peer c : ℕ)
  | completed (peer c : ℕ)
  | serving (src c : ℕ)
  | admitted (src c : ℕ)
  | excluded
  deriving DecidableEq

/-- The role of a call on node `my`; connections of a node to itself and disconnections are
excluded. -/
def Call.role (my : ℕ) : Call → Role
  | connectAcquire peer | connectFind peer | connectEndpoint peer =>
    if peer = my then .excluded else .none
  | connectWait peer c => .waiting peer c
  | connectRecheck peer c | connectEmplace peer c => .answered peer c
  | connectGet peer c | connectRelease peer c => .completed peer c
  | requestAcquire src c | requestRefuse src c | requestFind src c | requestReject src c
  | requestEmplace src c => .serving src c
  | requestAccept src c => .admitted src c
  | loopbackEmplace _ | loopbackRelease | loopbackGet | disconnectAcquire _ _ | disconnectFind _ _
  | disconnectErase _ | disconnectRelease => .excluded
  | _ => .none

/-- The roles of the threads of the nodes, their connections, and the requests. -/
@[ext]
structure Agents where
  role : ℕ × ℕ → Role
  est : ℕ → List (ℕ × ℕ)
  request : ℕ → Option ConnectRequest

def Net.view (s : Net) : Agents where
  role x := ((s.node x.1).calls x.2).role x.1
  est n := (s.node n).established
  request := s.request

/-- The steps in which a connection is made. -/
inductive Handshake (a : Agents) : Agents → Prop
  | stay : Handshake a a
  | leave (x : ℕ × ℕ) (h : a.role x = .none ∨ ∃ p c, a.role x = .completed p c) :
      Handshake a { a with role := Function.update a.role x .none }
  | send (n t p c : ℕ) (h : a.role (n, t) = .none) (hc : a.request c = none) :
      Handshake a { a with
        role := Function.update a.role (n, t) (.waiting p c)
        request := Function.update a.request c (some ⟨n, p, .sent⟩) }
  | deliver (src dst c : ℕ) (h : a.role (dst, brokerThread) = .none)
      (hc : a.request c = some ⟨src, dst, .sent⟩) :
      Handshake a { a with
        role := Function.update a.role (dst, brokerThread) (.serving src c)
        request := answerRequest a.request c .delivered }
  | reject (n t src c : ℕ) (h : a.role (n, t) = .serving src c) :
      Handshake a { a with
        role := Function.update a.role (n, t) .none
        request := answerRequest a.request c .rejected }
  | enroll (n t src c : ℕ) (h : a.role (n, t) = .serving src c) :
      Handshake a { a with
        role := Function.update a.role (n, t) (.admitted src c)
        est := Function.update a.est n ((src, c) :: a.est n) }
  | accept (n t src c : ℕ) (h : a.role (n, t) = .admitted src c) :
      Handshake a { a with
        role := Function.update a.role (n, t) .none
        request := answerRequest a.request c .accepted }
  | established (n t p c : ℕ) (h : a.role (n, t) = .waiting p c)
      (hc : (a.request c).map ConnectRequest.status = some .accepted) :
      Handshake a { a with role := Function.update a.role (n, t) (.answered p c) }
  | rejected (n t p c : ℕ) (h : a.role (n, t) = .waiting p c)
      (hc : (a.request c).map ConnectRequest.status = some .rejected) :
      Handshake a { a with role := Function.update a.role (n, t) .none }
  | adopt (n t p c : ℕ) (h : a.role (n, t) = .answered p c) :
      Handshake a { a with
        role := Function.update a.role (n, t) (.completed p c)
        est := Function.update a.est n ((p, c) :: a.est n) }

/-! ## The managers make connections in these steps -/

section Simulation

variable {s : Net} {n t : ℕ} {m : CmState} {pc' : Call} {o : Outcome}
  {request : ℕ → Option ConnectRequest}

theorem view_emplace (hcalls : m.calls = Function.update (s.node n).calls t pc') :
    Net.view ⟨Function.update s.node n m, request⟩ =
      ⟨Function.update s.view.role (n, t) (pc'.role n),
        Function.update s.view.est n m.established, request⟩ := by
  ext1
  · funext x
    obtain ⟨n', t'⟩ := x
    simp only [Net.view]
    rcases eq_or_ne n' n with rfl | hn
    · rw [Function.update_self, hcalls]
      rcases eq_or_ne t' t with rfl | ht
      · rw [Function.update_self, Function.update_self]
      · rw [Function.update_of_ne ht, Function.update_of_ne (by simp [ht])]
    · rw [Function.update_of_ne hn, Function.update_of_ne (by simp [hn])]
  · funext n'
    simp only [Net.view]
    rcases eq_or_ne n' n with rfl | hn
    · rw [Function.update_self, Function.update_self]
    · rw [Function.update_of_ne hn, Function.update_of_ne hn]
  · rfl

theorem view_goto (hcalls : m.calls = Function.update (s.node n).calls t pc')
    (hest : m.established = (s.node n).established) :
    Net.view ⟨Function.update s.node n m, request⟩ =
      ⟨Function.update s.view.role (n, t) (pc'.role n), s.view.est, request⟩ := by
  rw [view_emplace hcalls, hest]
  congr 1
  exact Function.update_eq_self n s.view.est

theorem role_eq : s.view.role (n, t) = ((s.node n).calls t).role n := rfl

theorem handshake_goto (hcalls : m.calls = Function.update (s.node n).calls t pc')
    (hest : m.established = (s.node n).established)
    (h : Handshake s.view
      ⟨Function.update s.view.role (n, t) (pc'.role n), s.view.est, request⟩) :
    Handshake s.view (Net.view ⟨Function.update s.node n m, request⟩) := by
  rw [view_goto hcalls hest]
  exact h

/-- A step that leaves the role of its thread as it is. -/
theorem handshake_keep (hcalls : m.calls = Function.update (s.node n).calls t pc')
    (hest : m.established = (s.node n).established)
    (hrole : ((s.node n).calls t).role n = pc'.role n) :
    Handshake s.view (Net.view ⟨Function.update s.node n m, s.request⟩) := by
  rw [view_goto hcalls hest, ← hrole, ← role_eq, Function.update_eq_self]
  exact .stay

/-- A step with which a call is no longer in a role. -/
theorem handshake_leave (hcalls : m.calls = Function.update (s.node n).calls t pc')
    (hest : m.established = (s.node n).established) {p c : ℕ}
    (hrole : ((s.node n).calls t).role n = .completed p c) (hrole' : pc'.role n = .none) :
    Handshake s.view (Net.view ⟨Function.update s.node n m, s.request⟩) := by
  rw [view_goto hcalls hest, hrole']
  exact .leave (n, t) (.inr ⟨p, c, hrole⟩)

theorem handshake_acquire {id : ℕ} {won lost : Call}
    (hwon : ((s.node n).calls t).role n = won.role n)
    (hlost : ((s.node n).calls t).role n = lost.role n) :
    Handshake s.view
      (Net.view ⟨Function.update s.node n ((s.node n).acquire n t id won lost), s.request⟩) := by
  unfold CmState.acquire
  split_ifs
  · exact handshake_keep rfl rfl hwon
  · exact handshake_keep rfl rfl hlost
  · rw [Function.update_eq_self]
    exact .stay

/-- The accepted connection becomes the entry of its peer. -/
theorem handshake_emplace {peer c : ℕ} (H : CmInv n (s.node n))
    (hpc : (s.node n).calls t = .connectEmplace peer c) :
    Handshake s.view (Net.view ⟨Function.update s.node n
      ((s.node n).emplace peer c |>.goto t (.connectGet peer c)), s.request⟩) := by
  have h1 := H.absent t peer (by rw [hpc]; rfl)
  have h2 : ((s.node n).emplace peer c |>.goto t (.connectGet peer c)).calls =
      Function.update (s.node n).calls t (.connectGet peer c) := by
    simp only [CmState.goto, emplace_calls]
  have h3 : ((s.node n).emplace peer c |>.goto t (.connectGet peer c)).established =
      (peer, c) :: s.view.est n := established_emplace peer c h1
  rw [view_emplace h2, h3]
  exact .adopt n t peer c (by rw [role_eq, hpc]; rfl)

theorem role_of_not_excluded {pc : Call} {peer : ℕ} (hpc : pc.role n ≠ .excluded)
    (h : pc.role n = if peer = n then .excluded else .none) : peer ≠ n ∧ pc.role n = .none := by
  split_ifs at h with hn
  · exact absurd h hpc
  · exact ⟨hn, h⟩

theorem connectStep_handshake {pc : Call} (H : CmInv n (s.node n)) (hpc : (s.node n).calls t = pc)
    (hex : pc.role n ≠ .excluded) (hans : netAnswer s.request n pc o = some request)
    (h : connectStep n (s.node n) t pc o = some m) :
    Handshake s.view (Net.view ⟨Function.update s.node n m, request⟩) := by
  have hrole : s.view.role (n, t) = pc.role n := by rw [role_eq, hpc]
  unfold connectStep at h
  split at h
  -- `connectAcquire`, `connectFind` and `connectEndpoint`
  · obtain rfl := Option.some.inj hans
    obtain rfl := Option.some.inj h
    obtain ⟨-, h1⟩ := role_of_not_excluded hex rfl
    refine handshake_acquire ?_ ?_
    · rw [hpc]
      rfl
    · rw [hpc, h1]
      rfl
  · obtain rfl := Option.some.inj hans
    obtain ⟨-, h1⟩ := role_of_not_excluded hex rfl
    split at h <;> obtain rfl := Option.some.inj h
    · refine handshake_keep rfl rfl ?_
      rw [hpc, h1]
      rfl
    · refine handshake_keep rfl rfl ?_
      rw [hpc]
      rfl
  · obtain rfl := Option.some.inj hans
    obtain rfl := Option.some.inj h
    exact handshake_keep rfl rfl (by rw [hpc]; rfl)
  · obtain rfl := Option.some.inj hans
    obtain rfl := Option.some.inj h
    exact handshake_keep rfl rfl (by rw [hpc]; rfl)
  · rename_i peer c
    obtain ⟨hne, h1⟩ := role_of_not_excluded hex rfl
    simp only [netAnswer] at hans
    split_ifs at hans with hfresh
    obtain rfl := Option.some.inj hans
    rw [if_neg hne, Option.some.injEq] at h
    subst h
    exact handshake_goto rfl rfl (.send n t peer c (hrole.trans h1) hfresh)
  · simp [netAnswer] at hans
  -- `connectWait`
  · rename_i peer c
    simp only [netAnswer] at hans
    split_ifs at hans with hacc
    obtain rfl := Option.some.inj hans
    obtain rfl := Option.some.inj h
    exact handshake_goto rfl rfl (.established n t peer c hrole hacc)
  · simp [netAnswer] at hans
  · rename_i peer c
    simp only [netAnswer] at hans
    split_ifs at hans with hrej
    obtain rfl := Option.some.inj hans
    obtain rfl := Option.some.inj h
    exact handshake_goto rfl rfl (.rejected n t peer c hrole hrej)
  · simp [netAnswer] at hans
  · simp [netAnswer] at hans
  -- `connectRecheck`: the entry is not there
  · rename_i peer c
    obtain rfl := Option.some.inj hans
    have h1 := H.absent t peer (by rw [hpc]; rfl)
    simp only [h1, Option.some.injEq] at h
    subst h
    exact handshake_keep rfl rfl (by rw [hpc]; rfl)
  · obtain rfl := Option.some.inj hans
    obtain rfl := Option.some.inj h
    exact handshake_keep rfl rfl (by rw [hpc]; rfl)
  · obtain rfl := Option.some.inj hans
    obtain rfl := Option.some.inj h
    exact handshake_keep rfl rfl (by rw [hpc]; rfl)
  · simp [netAnswer] at hans
  -- `connectEmplace` and what follows
  · obtain rfl := Option.some.inj hans
    obtain rfl := Option.some.inj h
    exact handshake_emplace H hpc
  · simp [netAnswer] at hans
  · rename_i peer c
    obtain rfl := Option.some.inj hans
    have h1 := H.present t (peer, c) (by rw [hpc]; rfl)
    simp only [h1, Option.map_some, Option.some.injEq] at h
    subst h
    exact handshake_keep rfl rfl (by rw [hpc]; rfl)
  · rename_i peer c
    obtain rfl := Option.some.inj hans
    obtain rfl := Option.some.inj h
    exact handshake_leave rfl rfl (hrole : _ = Role.completed peer c) rfl
  · obtain rfl := Option.some.inj hans
    obtain rfl := Option.some.inj h
    exact handshake_keep rfl rfl (by rw [hpc]; rfl)
  -- `ConnectLoopback` is excluded
  · exact absurd rfl hex
  · exact absurd rfl hex
  · exact absurd rfl hex
  · exact absurd rfl hex
  · cases h

theorem getStep_handshake {pc : Call} (hpc : (s.node n).calls t = pc)
    (hans : netAnswer s.request n pc .ok = some request) (h : getStep n (s.node n) t pc = some m) :
    Handshake s.view (Net.view ⟨Function.update s.node n m, request⟩) := by
  unfold getStep at h
  split at h
  · obtain rfl := Option.some.inj hans
    obtain rfl := Option.some.inj h
    exact handshake_acquire (by rw [hpc]; rfl) (by rw [hpc])
  · obtain rfl := Option.some.inj hans
    split at h <;> obtain rfl := Option.some.inj h <;>
      exact handshake_keep rfl rfl (by rw [hpc]; rfl)
  · obtain rfl := Option.some.inj hans
    obtain rfl := Option.some.inj h
    exact handshake_keep rfl rfl (by rw [hpc]; rfl)
  · cases h

theorem requestStep_handshake {pc : Call} (H : CmInv n (s.node n)) (hpc : (s.node n).calls t = pc)
    (hans : netAnswer s.request n pc .ok = some request)
    (h : requestStep n (s.node n) t pc = some m) :
    Handshake s.view (Net.view ⟨Function.update s.node n m, request⟩) := by
  have hrole : s.view.role (n, t) = pc.role n := by rw [role_eq, hpc]
  unfold requestStep at h
  split at h
  · obtain rfl := Option.some.inj hans
    obtain rfl := Option.some.inj h
    exact handshake_acquire (by rw [hpc]; rfl) (by rw [hpc]; rfl)
  · rename_i src c
    obtain rfl := Option.some.inj hans
    obtain rfl := Option.some.inj h
    exact handshake_goto rfl rfl (.reject n t src c hrole)
  · obtain rfl := Option.some.inj hans
    split_ifs at h <;> obtain rfl := Option.some.inj h <;>
      exact handshake_keep rfl rfl (by rw [hpc]; rfl)
  · rename_i src c
    obtain rfl := Option.some.inj hans
    obtain rfl := Option.some.inj h
    exact handshake_goto rfl rfl (.reject n t src c hrole)
  · obtain rfl := Option.some.inj hans
    obtain rfl := Option.some.inj h
    exact handshake_keep rfl rfl (by rw [hpc]; rfl)
  · obtain rfl := Option.some.inj hans
    obtain rfl := Option.some.inj h
    exact handshake_keep rfl rfl (by rw [hpc]; rfl)
  · rename_i src c
    obtain rfl := Option.some.inj hans
    obtain rfl := Option.some.inj h
    have h1 := H.absent t src (by rw [hpc]; rfl)
    have h2 : ((s.node n).emplace src c |>.goto t (.requestAccept src c)).calls =
        Function.update (s.node n).calls t (.requestAccept src c) := by
      simp only [CmState.goto, emplace_calls]
    have h3 : ((s.node n).emplace src c |>.goto t (.requestAccept src c)).established =
        (src, c) :: s.view.est n := established_emplace src c h1
    rw [view_emplace h2, h3]
    exact .enroll n t src c hrole
  · rename_i src c
    obtain rfl := Option.some.inj hans
    obtain rfl := Option.some.inj h
    exact handshake_goto rfl rfl (.accept n t src c hrole)
  · obtain rfl := Option.some.inj hans
    obtain rfl := Option.some.inj h
    exact handshake_keep rfl rfl (by rw [hpc]; rfl)
  · cases h

theorem Call.role_of_over {pc : Call} (h : pc.over) : pc.role n = .none := by
  cases pc <;> first | rfl | cases h

/-- Every step of the managers is one in the making of a connection. -/
theorem netStep_handshake {s' : Net} {e : NetEvent} (H : ∀ n, CmInv n (s.node n))
    (haccepting : ∀ n, (s.node n).accepting) (hex : ∀ x, s.view.role x ≠ .excluded)
    (h : netStep s e = some s') :
    Handshake s.view s'.view := by
  cases e with
  | connect n t peer =>
    simp only [netStep, cmStep] at h
    split_ifs at h with hne hover
    · obtain rfl := Option.some.inj h
      refine handshake_keep rfl rfl ?_
      rw [Call.role_of_over hover]
      simp only [Call.role, if_neg hne.2]
    · cases h
  | deliver c =>
    simp only [netStep] at h
    split at h
    · rename_i src dst hc
      simp only [cmStep, if_pos (haccepting dst)] at h
      split_ifs at h with hover
      · obtain rfl := Option.some.inj h
        exact handshake_goto rfl rfl
          (.deliver src dst c (Call.role_of_over hover.1) hc)
      · cases h
    · cases h
  | step n t o =>
    obtain ⟨request, hans, h⟩ := Option.bind_eq_some_iff.1 h
    obtain ⟨m, hm, rfl⟩ := Option.map_eq_some_iff.1 h
    rcases cmStep_step hm with h | ⟨rfl, h | h | h⟩
    · exact connectStep_handshake (H n) rfl (hex (n, t)) hans h
    · exact getStep_handshake rfl hans h
    · exact requestStep_handshake (H n) rfl hans h
    · have h1 := hex (n, t)
      rw [role_eq] at h1
      unfold disconnectStep at h
      split at h <;> rename_i hpc <;> simp [hpc, Call.role] at h1 h

end Simulation

/-! ## What holds while connections are made -/

/-- What the role of a thread of node `n` says of the requests and the connections. -/
def Role.Ok (request : ℕ → Option ConnectRequest) (est : ℕ → List (ℕ × ℕ)) (n t : ℕ) : Role → Prop
  | .none => True
  | .waiting p c => ∃ st, request c = some ⟨n, p, st⟩
  | .answered p c => request c = some ⟨n, p, .accepted⟩
  | .completed p c => request c = some ⟨n, p, .accepted⟩ ∧ (p, c) ∈ est n
  | .serving src c => t = brokerThread ∧ request c = some ⟨src, n, .delivered⟩
  | .admitted src c =>
    t = brokerThread ∧ request c = some ⟨src, n, .delivered⟩ ∧ (src, c) ∈ est n
  | .excluded => False

/-- The roles, the requests and the connections belong together. -/
structure Agreed (a : Agents) : Prop where
  role : ∀ n t, (a.role (n, t)).Ok a.request a.est n t
  asked : ∀ {c src dst st}, a.request c = some ⟨src, dst, st⟩ → st = .sent ∨ st = .delivered →
    ∃ t, a.role (src, t) = .waiting dst c
  accepted : ∀ {c src dst}, a.request c = some ⟨src, dst, .accepted⟩ → (src, c) ∈ a.est dst
  entry : ∀ {n p c}, (p, c) ∈ a.est n → a.request c = some ⟨n, p, .accepted⟩ ∨
    a.request c = some ⟨p, n, .accepted⟩ ∨ ∃ t, a.role (n, t) = .admitted p c
  entered : ∀ {c src dst st}, a.request c = some ⟨src, dst, st⟩ → (src, c) ∈ a.est dst →
    (∃ t, a.role (src, t) = .waiting dst c ∨ a.role (src, t) = .answered dst c) ∨
      (dst, c) ∈ a.est src

theorem agreed_init : Agreed netInit.view where
  role _ _ := trivial
  asked h := by cases h
  accepted h := by cases h
  entry h := by cases h
  entered h := by cases h

section Agreed

variable {a a' : Agents} {n t p c src dst : ℕ} {r : Role}

theorem Agreed.role_ok (H : Agreed a) (h : a.role (n, t) = r) : r.Ok a.request a.est n t :=
  h ▸ H.role n t

theorem update_role {f : ℕ × ℕ → Role} {x y : ℕ × ℕ} {r r' : Role} (h : f y = r) (hne : f x ≠ r) :
    Function.update f x r' y = r := by
  rw [Function.update_of_ne]
  · exact h
  · rintro rfl
    exact hne h

theorem mem_update_cons {est : ℕ → List (ℕ × ℕ)} {n m : ℕ} {x y : ℕ × ℕ} :
    x ∈ Function.update est n (y :: est n) m ↔ m = n ∧ x = y ∨ x ∈ est m := by
  rcases eq_or_ne m n with rfl | hne
  · rw [Function.update_self, List.mem_cons]
    simp
  · rw [Function.update_of_ne hne]
    simp [hne]

theorem answerRequest_self {request : ℕ → Option ConnectRequest} {st st' : RequestStatus}
    (h : request c = some ⟨src, dst, st⟩) :
    answerRequest request c st' c = some ⟨src, dst, st'⟩ := by
  unfold answerRequest
  rw [Function.update_self, h]
  rfl

theorem answerRequest_of_ne {request : ℕ → Option ConnectRequest} {st' : RequestStatus} {c' : ℕ}
    (h : c' ≠ c) : answerRequest request c st' c' = request c' :=
  Function.update_of_ne h _ _

/-- A role is all right where that of each other thread was, and the new one is. -/
theorem role_update {request : ℕ → Option ConnectRequest} {est : ℕ → List (ℕ × ℕ)}
    (h : ∀ n' t', (n', t') ≠ (n, t) → (a.role (n', t')).Ok request est n' t')
    (hr : r.Ok request est n t) (n' t' : ℕ) :
    (Function.update a.role (n, t) r (n', t')).Ok request est n' t' := by
  rcases eq_or_ne (n', t') (n, t) with heq | hne
  · obtain ⟨rfl, rfl⟩ := Prod.mk.inj heq
    rw [Function.update_self]
    exact hr
  · rw [Function.update_of_ne hne]
    exact h n' t' hne

theorem Role.Ok.mono {request : ℕ → Option ConnectRequest} {est : ℕ → List (ℕ × ℕ)} {n' t' : ℕ}
    (h : r.Ok request est n' t') (y : ℕ × ℕ) :
    r.Ok request (Function.update est n (y :: est n)) n' t' := by
  cases r with
  | completed p c => exact ⟨h.1, mem_update_cons.2 (.inr h.2)⟩
  | admitted src c => exact ⟨h.1, h.2.1, mem_update_cons.2 (.inr h.2.2)⟩
  | _ => exact h

theorem Role.Ok.send {request : ℕ → Option ConnectRequest} {est : ℕ → List (ℕ × ℕ)} {n' t' : ℕ}
    (h : r.Ok request est n' t') (hc : request c = Option.none) (x : Option ConnectRequest) :
    r.Ok (Function.update request c x) est n' t' := by
  have hne : ∀ {c' y}, request c' = some y → Function.update request c x c' = some y := by
    intro c' y hy
    rw [Function.update_of_ne]
    · exact hy
    · rintro rfl
      rw [hc] at hy
      cases hy
  cases r with
  | none => trivial
  | waiting p c =>
    obtain ⟨st, hst⟩ := h
    exact ⟨st, hne hst⟩
  | answered p c => exact hne h
  | completed p c => exact ⟨hne h.1, h.2⟩
  | serving src c => exact ⟨h.1, hne h.2⟩
  | admitted src c => exact ⟨h.1, hne h.2.1, h.2.2⟩
  | excluded => exact h

/-- The answer to a request is news for its broker only. -/
theorem Role.Ok.answer {request : ℕ → Option ConnectRequest} {est : ℕ → List (ℕ × ℕ)} {n' t' : ℕ}
    {st st' : RequestStatus} (h : r.Ok request est n' t') (hc : request c = some ⟨src, dst, st⟩)
    (hst : st = .sent ∨ st = .delivered ∧ (n', t') ≠ (dst, brokerThread)) :
    r.Ok (answerRequest request c st') est n' t' := by
  have hacc : ∀ {c' n p}, request c' = some ⟨n, p, .accepted⟩ →
      answerRequest request c st' c' = some ⟨n, p, .accepted⟩ := by
    intro c' n p hy
    rw [answerRequest_of_ne]
    · exact hy
    · rintro rfl
      rw [hc] at hy
      simp only [Option.some.injEq, ConnectRequest.mk.injEq] at hy
      rcases hst with h1 | h1 <;> simp [h1] at hy
  have hdel : ∀ {c' src'}, t' = brokerThread → request c' = some ⟨src', n', .delivered⟩ →
      answerRequest request c st' c' = some ⟨src', n', .delivered⟩ := by
    rintro c' src' rfl hy
    rw [answerRequest_of_ne]
    · exact hy
    · rintro rfl
      rw [hc] at hy
      simp only [Option.some.injEq, ConnectRequest.mk.injEq] at hy
      rcases hst with h1 | h1
      · simp [h1] at hy
      · exact h1.2 (by rw [hy.2.1])
  cases r with
  | none => trivial
  | waiting p c' =>
    obtain ⟨st₁, h1⟩ := h
    rcases eq_or_ne c' c with rfl | hne
    · rw [hc] at h1
      simp only [Option.some.injEq, ConnectRequest.mk.injEq] at h1
      obtain ⟨rfl, rfl, -⟩ := h1
      exact ⟨st', answerRequest_self hc⟩
    · exact ⟨st₁, (answerRequest_of_ne hne).trans h1⟩
  | answered p c' => exact hacc h
  | completed p c' => exact ⟨hacc h.1, h.2⟩
  | serving src' c' => exact ⟨h.1, hdel h.1 h.2⟩
  | admitted src' c' => exact ⟨h.1, hdel h.1 h.2.1, h.2.2⟩
  | excluded => exact h

/-- A thread whose role no request or entry rests on gets another. -/
theorem Agreed.setRole (H : Agreed a) (hr : r.Ok a.request a.est n t)
    (hasked : ∀ {dst c st}, a.role (n, t) = .waiting dst c → a.request c = some ⟨n, dst, st⟩ →
      st = .accepted ∨ st = .rejected)
    (hentry : ∀ {src c}, a.role (n, t) ≠ .admitted src c)
    (hentered : ∀ {dst c}, a.role (n, t) = .waiting dst c ∨ a.role (n, t) = .answered dst c →
      r = .answered dst c ∨ (n, c) ∉ a.est dst) :
    Agreed { a with role := Function.update a.role (n, t) r } where
  role := role_update (fun n' t' _ => H.role n' t') hr
  asked := by
    intro c' src' dst' st hc hst
    obtain ⟨t', ht'⟩ := H.asked hc hst
    refine ⟨t', ?_⟩
    rcases eq_or_ne (src', t') (n, t) with heq | hne
    · obtain ⟨rfl, rfl⟩ := Prod.mk.inj heq
      rcases hst with rfl | rfl <;> rcases hasked ht' hc with h1 | h1 <;> cases h1
    · simpa only [Function.update_of_ne hne] using ht'
  accepted := H.accepted
  entry := by
    intro n' p' c' he
    rcases H.entry he with h1 | h1 | ⟨t', ht'⟩
    · exact .inl h1
    · exact .inr (.inl h1)
    · exact .inr (.inr ⟨t', update_role ht' hentry⟩)
  entered := by
    intro c' src' dst' st hc he
    rcases H.entered hc he with ⟨t', ht'⟩ | h1
    · refine .inl ⟨t', ?_⟩
      rcases eq_or_ne (src', t') (n, t) with heq | hne
      · obtain ⟨rfl, rfl⟩ := Prod.mk.inj heq
        rcases hentered ht' with rfl | h1
        · exact .inr (Function.update_self ..)
        · exact absurd he h1
      · simpa only [Function.update_of_ne hne] using ht'
    · exact .inr h1

theorem Agreed.leave (H : Agreed a)
    (h : a.role (n, t) = .none ∨ ∃ p c, a.role (n, t) = .completed p c) :
    Agreed { a with role := Function.update a.role (n, t) .none } := by
  have hrole : ∀ r, r ≠ .none → (∀ p c, r ≠ .completed p c) → a.role (n, t) ≠ r := by
    intro r h1 h2 h3
    rcases h with h | ⟨p, c, h⟩
    · exact h1 (h3.symm.trans h)
    · exact h2 p c (h3.symm.trans h)
  refine H.setRole trivial (fun h1 => ?_) (hrole _ (by simp) (by simp)) fun h1 => ?_
  · exact absurd h1 (hrole _ (by simp) (by simp))
  · rcases h1 with h1 | h1 <;> exact absurd h1 (hrole _ (by simp) (by simp))

theorem Agreed.waiting_status (H : Agreed a) {st : RequestStatus}
    (h : a.role (n, t) = .waiting p c)
    (hc : (a.request c).map ConnectRequest.status = some st) : a.request c = some ⟨n, p, st⟩ := by
  obtain ⟨st', hst'⟩ := H.role_ok h
  simp only [hst', Option.map_some, Option.some.injEq] at hc
  rw [hst', hc]

theorem Agreed.established (H : Agreed a) (h : a.role (n, t) = .waiting p c)
    (hc : (a.request c).map ConnectRequest.status = some .accepted) :
    Agreed { a with role := Function.update a.role (n, t) (.answered p c) } := by
  have hc' := H.waiting_status h hc
  refine H.setRole hc' (fun h1 h2 => ?_) (by rw [h]; simp) fun h1 => ?_
  · rw [h, Role.waiting.injEq] at h1
    obtain ⟨rfl, rfl⟩ := h1
    rw [hc', Option.some.injEq, ConnectRequest.mk.injEq] at h2
    exact .inl h2.2.2.symm
  · simp only [h, Role.waiting.injEq, reduceCtorEq, or_false] at h1
    exact .inl (by rw [h1.1, h1.2])

/-- A request that is rejected has not been entered. -/
theorem Agreed.rejected (H : Agreed a) (h : a.role (n, t) = .waiting p c)
    (hc : (a.request c).map ConnectRequest.status = some .rejected) :
    Agreed { a with role := Function.update a.role (n, t) .none } := by
  have hc' := H.waiting_status h hc
  refine H.setRole trivial (fun h1 h2 => ?_) (by rw [h]; simp) fun h1 => .inr fun he => ?_
  · rw [h, Role.waiting.injEq] at h1
    obtain ⟨rfl, rfl⟩ := h1
    rw [hc', Option.some.injEq, ConnectRequest.mk.injEq] at h2
    exact .inr h2.2.2.symm
  · simp only [h, Role.waiting.injEq, reduceCtorEq, or_false] at h1
    obtain ⟨rfl, rfl⟩ := h1
    rcases H.entry he with h1 | h1 | ⟨t', ht'⟩
    · simp [hc'] at h1
    · simp [hc'] at h1
    · have h1 := (H.role_ok ht').2.1
      simp [hc'] at h1

/-- A request is new, and the thread that sends it waits for it. -/
theorem Agreed.send (H : Agreed a) (h : a.role (n, t) = .none) (hc : a.request c = none) :
    Agreed { a with
      role := Function.update a.role (n, t) (.waiting p c)
      request := Function.update a.request c (some ⟨n, p, .sent⟩) } := by
  have hrole : ∀ {y r}, a.role y = r → r ≠ .none →
      Function.update a.role (n, t) (.waiting p c) y = r :=
    fun hy hr => update_role hy (by rw [h]; exact hr.symm)
  have hold : ∀ {c' x}, c' ≠ c → Function.update a.request c (some ⟨n, p, .sent⟩) c' = some x →
      a.request c' = some x := by
    intro c' x hne hx
    rwa [Function.update_of_ne hne] at hx
  have hnew : ∀ {c' x}, a.request c' = some x →
      Function.update a.request c (some ⟨n, p, .sent⟩) c' = some x := by
    intro c' x hx
    rw [Function.update_of_ne]
    · exact hx
    · rintro rfl
      rw [hc] at hx
      cases hx
  have hnot : ∀ {q m}, (q, c) ∉ a.est m := by
    intro q m he
    rcases H.entry he with h1 | h1 | ⟨t', ht'⟩
    · simp [hc] at h1
    · simp [hc] at h1
    · have h1 := (H.role_ok ht').2.1
      simp [hc] at h1
  constructor
  case role =>
    exact role_update (fun n' t' _ => (H.role n' t').send hc _) ⟨.sent, Function.update_self ..⟩
  case asked =>
    intro c' src dst st hc' hst
    rcases eq_or_ne c' c with rfl | hne
    · simp only [Function.update_self, Option.some.injEq, ConnectRequest.mk.injEq] at hc'
      obtain ⟨rfl, rfl, -⟩ := hc'
      exact ⟨t, Function.update_self ..⟩
    · obtain ⟨t', ht'⟩ := H.asked (hold hne hc') hst
      exact ⟨t', hrole ht' (by simp)⟩
  case accepted =>
    intro c' src dst hc'
    rcases eq_or_ne c' c with rfl | hne
    · simp at hc'
    · exact H.accepted (hold hne hc')
  case entry =>
    intro n' p' c' he
    rcases H.entry he with h1 | h1 | ⟨t', ht'⟩
    · exact .inl (hnew h1)
    · exact .inr (.inl (hnew h1))
    · exact .inr (.inr ⟨t', hrole ht' (by simp)⟩)
  case entered =>
    intro c' src dst st hc' he
    rcases eq_or_ne c' c with rfl | hne
    · exact absurd he hnot
    · rcases H.entered (hold hne hc') he with ⟨t', ht' | ht'⟩ | h1
      · exact .inl ⟨t', .inl (hrole ht' (by simp))⟩
      · exact .inl ⟨t', .inr (hrole ht' (by simp))⟩
      · exact .inr h1

/-- A broker moves a request on that is not answered yet. -/
theorem Agreed.answer (H : Agreed a) {st st' : RequestStatus}
    (hc : a.request c = some ⟨src, dst, st⟩) (hst : st = .sent ∨ st = .delivered)
    (hr : r.Ok (answerRequest a.request c st') a.est dst brokerThread)
    (hacc : st' = .accepted → (src, c) ∈ a.est dst)
    (hadm : ∀ {p c'}, a.role (dst, brokerThread) = .admitted p c' →
      p = src ∧ c' = c ∧ st' = .accepted)
    (hrole : ∀ {p c'}, a.role (dst, brokerThread) ≠ .waiting p c' ∧
      a.role (dst, brokerThread) ≠ .answered p c') :
    Agreed { a with
      role := Function.update a.role (dst, brokerThread) r
      request := answerRequest a.request c st' } := by
  have hold : ∀ {c' src' dst' st₁}, answerRequest a.request c st' c' = some ⟨src', dst', st₁⟩ →
      c' = c ∧ src' = src ∧ dst' = dst ∧ st₁ = st' ∨ a.request c' = some ⟨src', dst', st₁⟩ := by
    intro c' src' dst' st₁ h
    rcases eq_or_ne c' c with rfl | hne
    · rw [answerRequest_self hc, Option.some.injEq, ConnectRequest.mk.injEq] at h
      exact .inl ⟨rfl, h.1.symm, h.2.1.symm, h.2.2.symm⟩
    · rw [answerRequest_of_ne hne] at h
      exact .inr h
  have hkeep : ∀ {c' x y}, a.request c' = some ⟨x, y, .accepted⟩ →
      answerRequest a.request c st' c' = some ⟨x, y, .accepted⟩ := by
    intro c' x y h
    rw [answerRequest_of_ne]
    · exact h
    · rintro rfl
      rw [hc, Option.some.injEq, ConnectRequest.mk.injEq] at h
      rcases hst with rfl | rfl <;> simp at h
  constructor
  case role =>
    refine role_update (fun n' t' hne => (H.role n' t').answer hc ?_) hr
    exact hst.imp_right fun h => ⟨h, hne⟩
  case asked =>
    intro c' src' dst' st₁ hc' hst₁
    have h1 : ∃ t, a.role (src', t) = .waiting dst' c' := by
      rcases hold hc' with ⟨rfl, rfl, rfl, -⟩ | h
      · exact H.asked hc hst
      · exact H.asked h hst₁
    obtain ⟨t', ht'⟩ := h1
    exact ⟨t', update_role ht' hrole.1⟩
  case accepted =>
    intro c' src' dst' hc'
    rcases hold hc' with ⟨rfl, rfl, rfl, h⟩ | h
    · exact hacc h.symm
    · exact H.accepted h
  case entry =>
    intro n' p' c' he
    rcases H.entry he with h1 | h1 | ⟨t', ht'⟩
    · exact .inl (hkeep h1)
    · exact .inr (.inl (hkeep h1))
    · rcases eq_or_ne (n', t') (dst, brokerThread) with heq | hne
      · obtain ⟨rfl, rfl⟩ := Prod.mk.inj heq
        obtain ⟨rfl, rfl, rfl⟩ := hadm ht'
        exact .inr (.inl (answerRequest_self hc))
      · exact .inr (.inr ⟨t', by simpa only [Function.update_of_ne hne] using ht'⟩)
  case entered =>
    intro c' src' dst' st₁ hc' he
    have h1 : ∃ st₂, a.request c' = some ⟨src', dst', st₂⟩ := by
      rcases hold hc' with ⟨rfl, rfl, rfl, -⟩ | h
      · exact ⟨st, hc⟩
      · exact ⟨st₁, h⟩
    obtain ⟨st₂, h1⟩ := h1
    rcases H.entered h1 he with ⟨t', ht' | ht'⟩ | h2
    · exact .inl ⟨t', .inl (update_role ht' hrole.1)⟩
    · exact .inl ⟨t', .inr (update_role ht' hrole.2)⟩
    · exact .inr h2

theorem Agreed.deliver (H : Agreed a) (h : a.role (dst, brokerThread) = .none)
    (hc : a.request c = some ⟨src, dst, .sent⟩) :
    Agreed { a with
      role := Function.update a.role (dst, brokerThread) (.serving src c)
      request := answerRequest a.request c .delivered } :=
  H.answer hc (.inl rfl) ⟨rfl, answerRequest_self hc⟩ (by simp) (by simp [h]) (by simp [h])

theorem Agreed.reject (H : Agreed a) (h : a.role (n, t) = .serving src c) :
    Agreed { a with
      role := Function.update a.role (n, t) .none
      request := answerRequest a.request c .rejected } := by
  obtain ⟨rfl, hc⟩ := H.role_ok h
  exact H.answer hc (.inr rfl) trivial (by simp) (by simp [h]) (by simp [h])

theorem Agreed.accept (H : Agreed a) (h : a.role (n, t) = .admitted src c) :
    Agreed { a with
      role := Function.update a.role (n, t) .none
      request := answerRequest a.request c .accepted } := by
  obtain ⟨rfl, hc, he⟩ := H.role_ok h
  refine H.answer hc (.inr rfl) trivial (fun _ => he) (fun h1 => ?_) (by simp [h])
  rw [h, Role.admitted.injEq] at h1
  exact ⟨h1.1.symm, h1.2.symm, rfl⟩

/-- A node enters a connection with the call that made it, at either end. -/
theorem Agreed.enter (H : Agreed a) (h : a.role (n, t) = .serving p c ∧ r = .admitted p c ∨
      a.role (n, t) = .answered p c ∧ r = .completed p c) :
    Agreed { a with
      role := Function.update a.role (n, t) r
      est := Function.update a.est n ((p, c) :: a.est n) } := by
  have hnew : (p, c) ∈ Function.update a.est n ((p, c) :: a.est n) n :=
    mem_update_cons.2 (.inl ⟨rfl, rfl⟩)
  have hrole : ∀ {y r'}, a.role y = r' → (∀ q c', r' ≠ .serving q c') →
      (∀ q c', r' ≠ .answered q c') → Function.update a.role (n, t) r y = r' := by
    intro y r' hy h1 h2
    refine update_role hy ?_
    rcases h with h | h <;> rw [h.1]
    · exact (h1 p c).symm
    · exact (h2 p c).symm
  constructor
  case role =>
    refine role_update (fun n' t' _ => (H.role n' t').mono _) ?_
    rcases h with ⟨h, rfl⟩ | ⟨h, rfl⟩
    · obtain ⟨h1, h2⟩ := H.role_ok h
      exact ⟨h1, h2, hnew⟩
    · exact ⟨H.role_ok h, hnew⟩
  case asked =>
    intro c' src dst st hc' hst
    obtain ⟨t', ht'⟩ := H.asked hc' hst
    exact ⟨t', hrole ht' (by simp) (by simp)⟩
  case accepted => exact fun hc' => mem_update_cons.2 (.inr (H.accepted hc'))
  case entry =>
    intro m q c' he
    rcases mem_update_cons.1 he with ⟨rfl, heq⟩ | he
    · obtain ⟨rfl, rfl⟩ := Prod.mk.inj heq
      rcases h with ⟨h, rfl⟩ | ⟨h, rfl⟩
      · exact .inr (.inr ⟨t, Function.update_self ..⟩)
      · exact .inl (H.role_ok h)
    · rcases H.entry he with h1 | h1 | ⟨t', ht'⟩
      · exact .inl h1
      · exact .inr (.inl h1)
      · exact .inr (.inr ⟨t', hrole ht' (by simp) (by simp)⟩)
  case entered =>
    intro c' src dst st hc' he
    have hold : (∃ t', a.role (src, t') = .waiting dst c' ∨ a.role (src, t') = .answered dst c') ∨
        (dst, c') ∈ Function.update a.est n ((p, c) :: a.est n) src := by
      rcases mem_update_cons.1 he with ⟨rfl, heq⟩ | he
      · obtain ⟨rfl, rfl⟩ := Prod.mk.inj heq
        rcases h with ⟨h, -⟩ | ⟨h, -⟩
        · obtain ⟨t', ht'⟩ := H.asked (H.role_ok h).2 (.inr rfl)
          exact .inl ⟨t', .inl ht'⟩
        · have hc := H.role_ok h
          simp only [Role.Ok] at hc
          rw [hc', Option.some.injEq, ConnectRequest.mk.injEq] at hc
          obtain ⟨rfl, -⟩ := hc
          exact .inr hnew
      · exact (H.entered hc' he).imp_right fun h1 => mem_update_cons.2 (.inr h1)
    rcases hold with ⟨t', ht' | ht'⟩ | h1
    · exact .inl ⟨t', .inl (hrole ht' (by simp) (by simp))⟩
    · rcases eq_or_ne (src, t') (n, t) with heq | hne
      · obtain ⟨rfl, rfl⟩ := Prod.mk.inj heq
        rw [ht'] at h
        simp only [reduceCtorEq, false_and, Role.answered.injEq, false_or] at h
        obtain ⟨⟨rfl, rfl⟩, -⟩ := h
        exact .inr hnew
      · exact .inl ⟨t', .inr (by simpa only [Function.update_of_ne hne] using ht')⟩
    · exact .inr h1

theorem Agreed.handshake (H : Agreed a) (h : Handshake a a') : Agreed a' := by
  cases h with
  | stay => exact H
  | leave x h => exact H.leave h
  | send n t p c h hc => exact H.send h hc
  | deliver src dst c h hc => exact H.deliver h hc
  | reject n t src c h => exact H.reject h
  | enroll n t src c h => exact H.enter (.inl ⟨h, rfl⟩)
  | accept n t src c h => exact H.accept h
  | established n t p c h hc => exact H.established h hc
  | rejected n t p c h hc => exact H.rejected h hc
  | adopt n t p c h => exact H.enter (.inr ⟨h, rfl⟩)

end Agreed

/-! ## Runs -/

structure NetInv (s : Net) : Prop where
  node : ∀ n, CmInv n (s.node n)
  accepting : ∀ n, (s.node n).accepting
  agreed : Agreed s.view

theorem netInv_init : NetInv netInit := ⟨cmInv_init, fun _ => rfl, agreed_init⟩

section Net

variable {s s' : Net}

theorem NetInv.not_excluded (H : NetInv s) (x : ℕ × ℕ) : s.view.role x ≠ .excluded := by
  intro h
  have h1 := H.agreed.role x.1 x.2
  rw [h] at h1
  exact h1

theorem NetInv.noGiveUp (H : NetInv s) (n t : ℕ) (o : Outcome) :
    NoGiveUp n (s.node n) (.step t o) := by
  intro peer c hpc
  have h1 := H.not_excluded (n, t)
  rw [role_eq, hpc] at h1
  exact absurd rfl h1

/-- A step of the net is one of the manager of a node. -/
theorem netStep_node {e : NetEvent} (H : NetInv s) (h : netStep s e = some s') :
    ∃ n e' m, NoGiveUp n (s.node n) e' ∧ cmStep n (s.node n) e' = some m ∧
      s'.node = Function.update s.node n m := by
  cases e with
  | connect n t peer =>
    simp only [netStep] at h
    split_ifs at h
    obtain ⟨m, hm, rfl⟩ := Option.map_eq_some_iff.1 h
    exact ⟨n, .connect t peer, m, trivial, hm, rfl⟩
  | deliver c =>
    simp only [netStep] at h
    split at h
    · rename_i src dst hc
      obtain ⟨m, hm, rfl⟩ := Option.map_eq_some_iff.1 h
      exact ⟨dst, .onConnectRequest brokerThread src c, m, trivial, hm, rfl⟩
    · cases h
  | step n t o =>
    obtain ⟨request, -, h⟩ := Option.bind_eq_some_iff.1 h
    obtain ⟨m, hm, rfl⟩ := Option.map_eq_some_iff.1 h
    exact ⟨n, _, m, H.noGiveUp n t o, hm, rfl⟩

theorem NetInv.step {e : NetEvent} (H : NetInv s) (h : netStep s e = some s') : NetInv s' := by
  obtain ⟨n, e', m, hok, hm, hnode⟩ := netStep_node H h
  refine ⟨fun n' => ?_, fun n' => ?_,
    H.agreed.handshake (netStep_handshake H.node H.accepting H.not_excluded h)⟩
  all_goals
    rw [hnode]
    rcases eq_or_ne n' n with rfl | hne
  · rw [Function.update_self]
    exact (H.node n').step hok hm
  · rw [Function.update_of_ne hne]
    exact H.node n'
  · rw [Function.update_self, (cmStep_effect hm hok).accepting_eq]
    exact H.accepting n'
  · rw [Function.update_of_ne hne]
    exact H.accepting n'

theorem eq_of_mem_nodup {l : List (ℕ × ℕ)} {p c c' : ℕ} (hl : (l.map Prod.fst).Nodup)
    (h : (p, c) ∈ l) (h' : (p, c') ∈ l) : c = c' :=
  (Prod.mk.inj (List.inj_on_of_nodup_map hl h h' rfl)).2

theorem Call.absent_of_role {pc : Call} {n p c : ℕ}
    (h : pc.role n = .waiting p c ∨ pc.role n = .answered p c) : pc.absent n = some p := by
  cases pc with
  | connectWait peer c' =>
    simp only [Call.role, Role.waiting.injEq, reduceCtorEq, or_false] at h
    rw [← h.1]
    rfl
  | connectRecheck peer c' =>
    simp only [Call.role, Role.answered.injEq, reduceCtorEq, false_or] at h
    rw [← h.1]
    rfl
  | connectEmplace peer c' =>
    simp only [Call.role, Role.answered.injEq, reduceCtorEq, false_or] at h
    rw [← h.1]
    rfl
  | connectAcquire peer | connectFind peer | connectEndpoint peer =>
    simp only [Call.role] at h
    split_ifs at h <;> simp at h
  | _ => simp [Call.role] at h

/-- A node that waits for a peer, or has its answer, has no entry for it. -/
theorem NetInv.no_entry (H : NetInv s) {n t p c c' : ℕ}
    (h : s.view.role (n, t) = .waiting p c ∨ s.view.role (n, t) = .answered p c) :
    (p, c') ∉ s.view.est n := by
  intro he
  exact not_mem_of_lookup_none ((H.node n).absent t p (Call.absent_of_role h))
    (List.mem_map_of_mem he)

theorem NetInv.agree (H : NetInv s) {n p c c' : ℕ} (h : (p, c) ∈ s.view.est n)
    (h' : (n, c') ∈ s.view.est p) : c = c' := by
  have hown : ∀ {st}, s.view.request c = some ⟨p, n, st⟩ → c = c' := by
    intro st hc
    rcases H.agreed.entered hc h with ⟨t, ht⟩ | h1
    · exact absurd h' (H.no_entry ht)
    · exact eq_of_mem_nodup (H.node p).nodup h1 h'
  rcases H.agreed.entry h with h1 | h1 | ⟨t, ht⟩
  · exact eq_of_mem_nodup (H.node p).nodup (H.agreed.accepted h1) h'
  · exact hown h1
  · exact hown (H.agreed.role_ok ht).2.1

end Net

/-- In every state that the managers of the nodes reach, a node has at most one entry for each peer,
two nodes have no entries for each other of different connections, and where a call of `Connect` is
about to return with the connection it has made, that is the one the peer has entered. -/
theorem connection_agreement (es : List NetEvent) (s : Net)
    (hr : run netStep netInit es = some s) :
    (∀ n, ((s.node n).established.map Prod.fst).Nodup) ∧
    (∀ n p c c', (p, c) ∈ (s.node n).established → (n, c') ∈ (s.node p).established → c = c') ∧
    ∀ n t p c, (s.node n).calls t = .connectRelease p c →
      (p, c) ∈ (s.node n).established ∧ (n, c) ∈ (s.node p).established := by
  have H : NetInv s := run_inv' (fun _ _ _ H hs => H.step hs) hr netInv_init
  refine ⟨fun n => (H.node n).nodup, fun n p c c' h h' => H.agree h h', fun n t p c h => ?_⟩
  have h1 : s.view.role (n, t) = .completed p c := by
    rw [role_eq, h]
    rfl
  obtain ⟨hc, he⟩ := H.agreed.role_ok h1
  exact ⟨he, H.agreed.accepted hc⟩

/-- Nodes 1 and 2 connect to each other at once: node 2 refuses while it waits itself, and node 1
accepts. -/
def crossingRun : List NetEvent :=
  [.connect 1 1 2, .step 1 1 .ok, .step 1 1 .ok, .connect 2 1 1, .step 2 1 .ok, .step 2 1 .ok,
    .step 1 1 (.endpoint 10), .step 2 1 (.endpoint 11), .deliver 10, .step 2 0 .ok, .step 2 0 .ok,
    .step 1 1 (.event .rejected), .step 1 1 .ok, .deliver 11, .step 1 0 .ok, .step 1 0 .ok,
    .step 1 0 .ok, .step 1 0 .ok, .step 2 1 (.event .established), .step 2 1 .ok, .step 2 1 .ok,
    .step 2 1 .ok]

theorem connection_agreement_crossingRun : ∃ s, run netStep netInit crossingRun = some s ∧
    (s.node 1).calls 1 = .returned ⟨⟨.unavailable, some "Connection request rejected"⟩, none⟩ ∧
    (s.node 2).calls 1 = .connectRelease 1 11 ∧ (2, 11) ∈ (s.node 1).established ∧
    (∀ n, ((s.node n).established.map Prod.fst).Nodup) ∧
    ∀ n p c c', (p, c) ∈ (s.node n).established → (n, c') ∈ (s.node p).established → c = c' := by
  obtain ⟨s, hs, hg⟩ := Option.map_eq_some_iff.1
    (show (run netStep netInit crossingRun).map
      (fun s => ((s.node 1).calls 1, (s.node 2).calls 1))
      = some (.returned ⟨⟨.unavailable, some "Connection request rejected"⟩, none⟩,
        .connectRelease 1 11) by decide +kernel)
  simp only [Prod.mk.injEq] at hg
  obtain ⟨h1, h2, h3⟩ := connection_agreement crossingRun s hs
  exact ⟨s, hs, hg.1, hg.2, (h3 2 1 1 11 hg.2).2, h1, h2⟩

end Rome

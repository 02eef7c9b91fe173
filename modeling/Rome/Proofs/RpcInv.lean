import Rome.Rpc
import Rome.Lib.LockTable

/-!
# One call at a time from node to node

A client thread holds its lock on the target from before it sends to after it has the response, so
there is at most one call on its way from one node to another: in the queue of requests, with a
server thread, or in the queue of responses.
-/

namespace Rome

variable {σ : Type*} {m : IntMap σ} {p : RpcParams} {data : ℕ → σ}

/-! ## A request and its response -/

lemma servedOp_request (op : RpcOp) : servedOp op.request = some op := by
  cases op with
  | get key => rfl
  | insert key val => rfl
  | remove key => rfl

lemma serveRequest_data (op : RpcOp) (answer : ℤ) (d : σ) :
    (serveRequest m op.request answer d).2 = (op.direct m d).2 := by
  cases op with
  | get key => rfl
  | insert key val => rfl
  | remove key => rfl

/-- The opcode and the value of a response say what the operation returned. -/
lemma result_serveRequest (op : RpcOp) (answer : ℤ) (d : σ) :
    op.result (serveRequest m op.request answer d).1 = some (op.direct m d).1 := by
  cases op with
  | get key =>
    cases hr : (m.get key d).1 with
    | none => simp [RpcOp.result, serveRequest, RpcOp.request, RpcOp.direct, hr]
    | some v => simp [RpcOp.result, serveRequest, RpcOp.request, RpcOp.direct, hr]
  | insert key val =>
    cases hr : (m.insert key val d).1 with
    | none => simp [RpcOp.result, serveRequest, RpcOp.request, RpcOp.direct, hr]
    | some v => simp [RpcOp.result, serveRequest, RpcOp.request, RpcOp.direct, hr]
  | remove key =>
    cases hr : (m.remove key d).1 with
    | none => simp [RpcOp.result, serveRequest, RpcOp.request, RpcOp.direct, hr]
    | some v => simp [RpcOp.result, serveRequest, RpcOp.request, RpcOp.direct, hr]

lemma replay_append (data : ℕ → σ) (log : List Exec) (e : Exec) :
    replay m data (log ++ [e]) = Function.update (replay m data log) e.node
      (e.op.direct m (replay m data log e.node)).2 := by
  simp [replay]

lemma Computed.append {log : List Exec} {c b : ℕ} {op : RpcOp} {v : Option ℤ}
    (h : Computed m data log c b op v) (l : List Exec) : Computed m data (log ++ l) c b op v := by
  obtain ⟨l₁, l₂, rfl, hv⟩ := h
  exact ⟨l₁, l₂ ++ l, by simp, hv⟩

lemma computed_last (log : List Exec) (c b : ℕ) (op : RpcOp) :
    Computed m data (log ++ [⟨c, b, op⟩]) c b op (op.direct m (replay m data log b)).1 :=
  ⟨log, [], rfl, rfl⟩

/-! ## The invariant -/

/-- Where the call on its way from one node to another is. -/
inductive Link
  | free
  | requested (c : ℕ) (op : RpcOp)
  | serving (j c : ℕ) (op : RpcOp)
  | answering (j c : ℕ) (op : RpcOp) (response : IhtOpProto)
  | answered (c : ℕ) (op : RpcOp) (response : IhtOpProto)

namespace Link

def call : Link → Option (ℕ × RpcOp)
  | free => none
  | requested c op | serving _ c op | answering _ c op _ | answered c op _ => some (c, op)

def requests : Link → List RpcMsg
  | requested c op => [⟨op.request, c⟩]
  | _ => []

def responses : Link → List RpcMsg
  | answered c _ response => [⟨response, c⟩]
  | _ => []

/-- The server thread that has the call. -/
def server : Link → Option ℕ
  | serving j _ _ | answering j _ _ _ => some j
  | _ => none

/-- The call is not done yet, or the response is the one computed for it. -/
def Ok (m : IntMap σ) (data : ℕ → σ) (log : List Exec) (b : ℕ) : Link → Prop
  | free => True
  | requested c _ | serving _ c _ => c ∉ log.map Exec.call
  | answering _ c op response | answered c op response =>
    ∃ v, op.result response = some v ∧ Computed m data log c b op v

end Link

namespace ClientCall

/-- The thread holds its node's lock on `b`. -/
def holds : ClientCall → ℕ → Prop
  | send _ _ target, b | deliver _ _ target, b | unlock _ _ target _, b => b = target
  | _, _ => False

/-- Before it is sent a call is not done; while it is away it is on the link; what it has got is the
response computed for it. -/
def Ok (m : IntMap σ) (p : RpcParams) (data : ℕ → σ) (s : Rpc σ) (link : ℕ × ℕ → Link) (a : ℕ) :
    ClientCall → Prop
  | idle => True
  | aborted => False
  | direct c op => s.issued[c]? = some (a, op) ∧ toId p op.key = some a ∧ c ∉ s.log.map Exec.call
  | lock c op b | send c op b =>
    s.issued[c]? = some (a, op) ∧ toId p op.key = some b ∧ c ∉ s.log.map Exec.call
  | deliver c op b =>
    s.issued[c]? = some (a, op) ∧ toId p op.key = some b ∧ (link (a, b)).call = some (c, op)
  | unlock c op b r | check c op b r =>
    r.call = c ∧ ∃ v, op.result r.proto = some v ∧ Computed m data s.log c b op v

end ClientCall

/-- The node whose call a server thread has. -/
def ServerLoop.serves : ServerLoop → Option ℕ
  | serve id _ | send id _ => some id
  | _ => none

/-- A server thread that has a request is where the link says. -/
def ServerLoop.Ok (link : ℕ × ℕ → Link) (b j : ℕ) : ServerLoop → Prop
  | serve id r => ∃ op, link (id, b) = .serving j r.call op ∧ r.proto = op.request
  | send id r => ∃ op, link (id, b) = .answering j r.call op r.proto
  | _ => True

structure RpcInv (m : IntMap σ) (p : RpcParams) (data : ℕ → σ) (s : Rpc σ)
    (link : ℕ × ℕ → Link) : Prop where
  replayed : s.internalData = replay m data s.log
  nodup : (s.log.map Exec.call).Nodup
  issued : ∀ e ∈ s.log, ∃ a, s.issued[e.call]? = some (a, e.op) ∧ toId p e.op.key = some e.node
  returned : ∀ x ∈ s.returns, ∃ b op, Computed m data s.log x.1 b op x.2
  requests : ∀ a b, s.requests (a, b) = (link (a, b)).requests
  responses : ∀ a b, s.responses (b, a) = (link (a, b)).responses
  holder : LockTable.Held ClientCall.holds s.lockTableClient s.clients
  clients : ∀ a t, (s.clients (a, t)).Ok m p data s link a
  called : ∀ x c, (s.clients x).call = some c → c < s.issued.length
  distinct : ∀ x y c, (s.clients x).call = some c → (s.clients y).call = some c → x = y
  linked : ∀ a b c op, (link (a, b)).call = some (c, op) → ∃ t, s.clients (a, t) = .deliver c op b
  links : ∀ a b, (link (a, b)).Ok m data s.log b
  servers : ∀ b j, (s.servers (b, j)).Ok link b j
  busy : ∀ a b j, (link (a, b)).server = some j → (s.servers (b, j)).serves = some a

lemma rpcInv_init (m : IntMap σ) (p : RpcParams) (data : ℕ → σ) :
    RpcInv m p data (rpcInit data) fun _ => .free where
  replayed := rfl
  nodup := List.nodup_nil
  issued e h := by cases h
  returned x h := by cases h
  requests a b := rfl
  responses a b := rfl
  holder a b t := by simp [rpcInit, ClientCall.holds]
  clients a t := trivial
  called x c h := by simp [rpcInit, ClientCall.call] at h
  distinct x y c h := by simp [rpcInit, ClientCall.call] at h
  linked a b c op h := by simp [Link.call] at h
  links a b := trivial
  servers b j := trivial
  busy a b j h := by cases h

section
variable {s s' : Rpc σ} {link link' : ℕ × ℕ → Link} {a b t j c : ℕ}

lemma RpcInv.call_notMem (h : RpcInv m p data s link) : s.issued.length ∉ s.log.map Exec.call := by
  intro hmem
  obtain ⟨e, he, hlen⟩ := List.mem_map.mp hmem
  obtain ⟨a, ha, -⟩ := h.issued e he
  rw [hlen] at ha
  simp at ha

/-- No call is on the way where the lock is not with a thread that waits. -/
lemma RpcInv.link_free (h : RpcInv m p data s link) (ht : s.lockTableClient (a, b) = some t)
    (hne : ∀ c op, s.clients (a, t) ≠ .deliver c op b) : link (a, b) = .free := by
  cases hl : (link (a, b)).call with
  | none =>
    cases hl' : link (a, b) with
    | free => rfl
    | _ => simp [hl', Link.call] at hl
  | some x =>
    obtain ⟨t', ht'⟩ := h.linked a b x.1 x.2 hl
    have hold := (h.holder a b t').mpr (by rw [ht']; exact rfl)
    rw [ht, Option.some.injEq] at hold
    exact absurd (hold ▸ ht') (hne _ _)

/-- What a thread knows of its call is kept where the log grows by another call only. -/
lemma ClientCall.Ok.frame {x : ClientCall} (h : x.Ok m p data s link a)
    (hissued : ∀ (c : ℕ) (y : ℕ × RpcOp), s.issued[c]? = some y → s'.issued[c]? = some y)
    (hlog : ∃ l, s'.log = s.log ++ l ∧
      ∀ e ∈ l, x.call = some e.call → ∃ op b, x = .deliver e.call op b)
    (hlink : ∀ c op b, x = .deliver c op b → (link' (a, b)).call = (link (a, b)).call) :
    x.Ok m p data s' link' a := by
  obtain ⟨l, hl, hne⟩ := hlog
  have hnot : ∀ c, x.call = some c → (∀ op b, x ≠ .deliver c op b) → c ∉ s.log.map Exec.call →
      c ∉ s'.log.map Exec.call := by
    intro c hc hx hc'
    rw [hl, List.map_append, List.mem_append]
    rintro (hmem | hmem)
    · exact hc' hmem
    · obtain ⟨e, he, rfl⟩ := List.mem_map.mp hmem
      obtain ⟨op, b, hd⟩ := hne e he hc
      exact hx op b hd
  cases x with
  | idle => trivial
  | aborted => exact h
  | direct c op =>
    obtain ⟨h1, h2, h3⟩ := h
    exact ⟨hissued _ _ h1, h2, hnot c rfl (by simp) h3⟩
  | lock c op b | send c op b =>
    obtain ⟨h1, h2, h3⟩ := h
    exact ⟨hissued _ _ h1, h2, hnot c rfl (by simp) h3⟩
  | deliver c op b =>
    obtain ⟨h1, h2, h3⟩ := h
    exact ⟨hissued _ _ h1, h2, (hlink c op b rfl).trans h3⟩
  | unlock c op b r | check c op b r =>
    obtain ⟨h1, v, h2, h3⟩ := h
    exact ⟨h1, v, h2, hl ▸ h3.append l⟩

/-- A server thread stays where it was when the link that moves is not the one it is on. -/
lemma ServerLoop.Ok.update {x : ServerLoop} {b' j : ℕ} (h : x.Ok link b' j) {L : Link}
    (hserve : b' = b → ∀ c op, link (a, b) ≠ .serving j c op)
    (hanswer : b' = b → ∀ c op r, link (a, b) ≠ .answering j c op r) :
    x.Ok (Function.update link (a, b) L) b' j := by
  cases x with
  | serve id r =>
    obtain ⟨op, hl, hr⟩ := h
    refine ⟨op, ?_, hr⟩
    rw [Function.update_of_ne, hl]
    rintro ⟨⟩
    exact hserve rfl _ _ hl
  | send id r =>
    obtain ⟨op, hl⟩ := h
    refine ⟨op, ?_⟩
    rw [Function.update_of_ne, hl]
    rintro ⟨⟩
    exact hanswer rfl _ _ _ hl
  | _ => trivial

lemma Link.Ok.frame {x : Link} {log log' : List Exec} (h : x.Ok m data log b)
    (hlog : ∃ l, log' = log ++ l ∧ ∀ e ∈ l, ∀ op, x.call ≠ some (e.call, op)) :
    x.Ok m data log' b := by
  obtain ⟨l, rfl, hne⟩ := hlog
  have hnot : ∀ c op, x.call = some (c, op) → c ∉ log.map Exec.call →
      c ∉ (log ++ l).map Exec.call := by
    intro c op hc hc'
    rw [List.map_append, List.mem_append]
    rintro (hmem | hmem)
    · exact hc' hmem
    · obtain ⟨e, he, rfl⟩ := List.mem_map.mp hmem
      exact hne e he op hc
  cases x with
  | free => trivial
  | requested c op => exact hnot c op rfl h
  | serving j c op => exact hnot c op rfl h
  | answering j c op r =>
    obtain ⟨v, hv, hc⟩ := h
    exact ⟨v, hv, hc.append l⟩
  | answered c op r =>
    obtain ⟨v, hv, hc⟩ := h
    exact ⟨v, hv, hc.append l⟩

end

end Rome

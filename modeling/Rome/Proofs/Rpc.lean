import Rome.Proofs.RpcProgress

/-!
# Calls on another node's table

A call on a key of another node does on its table just what the same call on the node itself would
do, once, and returns what that returns.
-/

namespace Rome

/-- In every run, each call is done at most once, on the owner of its key and as it was made; what
it returns is what the operation returned there at that moment; the response it takes is the one to
its own request, and no assertion on an opcode fails. From every state some run brings it to
return. -/
theorem rpc_exact {σ : Type*} (m : IntMap σ) (p : RpcParams) (data : ℕ → σ) (es : List RpcEvent)
    (s : Rpc σ) (hr : Machine.run (rpcStep m p) (rpcInit data) es = some s) :
    s.internalData = replay m data s.log ∧
    (s.log.map Exec.call).Nodup ∧
    (∀ e ∈ s.log, ∃ a, s.issued[e.call]? = some (a, e.op) ∧ toId p e.op.key = some e.node) ∧
    (∀ c v, (c, v) ∈ s.returns → ∃ a b op, s.issued[c]? = some (a, op) ∧
      toId p op.key = some b ∧ Computed m data s.log c b op v) ∧
    (∀ a t c op b r, s.clients (a, t) = .unlock c op b r → r.call = c) ∧
    (∀ a t, s.clients (a, t) ≠ .aborted) ∧
    (0 < p.serverThreads → ∀ a t c, (s.clients (a, t)).call = some c →
      ∃ es' s' v, Machine.run (rpcStep m p) s es' = some s' ∧ (c, v) ∈ s'.returns) := by
  have hinit : RpcOk m p data (rpcInit data) :=
    ⟨⟨_, rpcInv_init m p data⟩, rpcLocks_init p data⟩
  have hok := hinit.run hr
  obtain ⟨⟨link, h⟩, -⟩ := id hok
  refine ⟨h.replayed, h.nodup, h.issued, ?_, ?_, ?_, ?_⟩
  · intro c v hcv
    obtain ⟨b, op, hcomp⟩ := h.returned (c, v) hcv
    obtain ⟨l₁, l₂, hl, -⟩ := id hcomp
    obtain ⟨a, ha, hid⟩ := h.issued ⟨c, b, op⟩ (by rw [hl]; simp)
    exact ⟨a, b, op, ha, hid, hcomp⟩
  · intro a t c op b r hc
    have hcl := h.clients a t
    rw [hc] at hcl
    exact hcl.1
  · intro a t hc
    have hcl := h.clients a t
    rw [hc] at hcl
    exact hcl
  · intro hp a t c hc
    obtain ⟨s', ⟨es', hes'⟩, v, hv⟩ := exists_return hok hp hc
    exact ⟨es', s', v, hes', hv⟩

/-- A table as a function. -/
def funMap : IntMap (ℤ → Option ℤ) where
  get key d := (d key, d)
  insert key val d :=
    match d key with
    | some old => (some old, d)
    | none => (none, Function.update d key (some val))
  remove key d := (d key, Function.update d key none)

/-- Two nodes, with the keys from 0 to 10. -/
def rpcNodes : RpcParams := ⟨2, 0, 10, 1⟩

/-- Node 0 inserts a key of node 1. -/
def insertRun : List RpcEvent :=
  [.call 0 0 (.insert 7 5), .client 0 0, .client 0 0, .server 1 0 9, .server 1 0 9, .server 1 0 9,
    .server 1 0 9, .client 0 0, .client 0 0, .client 0 0]

theorem rpc_exact_insertRun :
    ∃ s, Machine.run (rpcStep funMap rpcNodes) (rpcInit fun _ _ => none) insertRun = some s ∧
      s.returns = [(0, none)] ∧
      ∃ a b op, s.issued[0]? = some (a, op) ∧ toId rpcNodes op.key = some b ∧
        Computed funMap (fun _ _ => none) s.log 0 b op none := by
  refine ⟨_, rfl, rfl, ?_⟩
  exact (rpc_exact funMap rpcNodes (fun _ _ => none) insertRun _ rfl).2.2.2.1 0 none
    List.mem_cons_self

end Rome

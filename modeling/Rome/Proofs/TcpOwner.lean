import Rome.TcpOwner

/-!
# Who closes the sockets

Every socket has one owner until it is closed, and is closed once, in exactly the runs without a
step that goes wrong: an object that is not the owner of open sockets is copied, an assignment
leaves an open socket without its owner or with two, a socket is accepted by an object that will not
close it, or `setsockopt` fails. An object that was made by default and assigned to closes nothing.
-/

namespace Rome

open Machine Ownership

/-- The sockets of the objects of either type have one owner and are closed once after each step of
a run just when each step of the run keeps that. -/
theorem socket_ownership (events : List (Event SocketManager.Failure)) (w : World SocketManager)
    (hrun : run step World.init events = some w) (events' : List (Event EndpointManager.Failure))
    (w' : World EndpointManager) (hrun' : run step World.init events' = some w') :
    ((∀ es, es <+: events → ∀ w₁ : World SocketManager, run step World.init es = some w₁ →
        Unique w₁) ↔ Meets step Keeps (World.init : World SocketManager) events)
    ∧ ((∀ es, es <+: events' → ∀ w₁ : World EndpointManager, run step World.init es = some w₁ →
        Unique w₁) ↔ Meets step Keeps (World.init : World EndpointManager) events') :=
  ⟨unique_run hrun, unique_run hrun'⟩

/-- A server and its copy, and a client of it. -/
theorem socket_ownership_copied :
    ((∀ es, es <+: [.connect 0 none, .accept 0, .copy 1 0, .destroy 1, .destroy 0] →
        ∀ w₁ : World SocketManager, run step World.init es = some w₁ → Unique w₁)
      ↔ Meets step Keeps (World.init : World SocketManager)
        [.connect 0 none, .accept 0, .copy 1 0, .destroy 1, .destroy 0])
    ∧ ((∀ es, es <+: [.connect 0 (some EndpointManager.Failure.getaddrinfo), .connect 0 none,
          .destroy 0] →
        ∀ w₁ : World EndpointManager, run step World.init es = some w₁ → Unique w₁)
      ↔ Meets step Keeps (World.init : World EndpointManager)
        [.connect 0 (some EndpointManager.Failure.getaddrinfo), .connect 0 none, .destroy 0]) :=
  socket_ownership _ _ rfl _ _ rfl

/-- The socket of a server that is assigned to an object made by default is never closed; one whose
server is copied twice is closed twice. -/
theorem socket_lost :
    (∃ w : World SocketManager,
      run step World.init [.construct 0, .connect 1 none, .assign 0 1, .destroy 1, .destroy 0]
        = some w ∧ (∀ i, w.objects i = none) ∧ w.opened = 1 ∧ w.closed = [] ∧ ¬ Unique w)
    ∧ ∃ w : World SocketManager,
      run step World.init [.connect 0 none, .copy 1 0, .copy 2 0, .destroy 1, .destroy 2] = some w
        ∧ w.closed = [0, 0] ∧ ¬ Unique w := by
  refine ⟨⟨_, rfl, ?_⟩, _, rfl, rfl, fun h => absurd h.once (by decide)⟩
  have hnone : ∀ i, Function.update (Function.update (Function.update (Function.update
      (Function.update (Function.update (fun _ => none) 0 (some SocketManager.empty)) 1
        (some (SocketManager.ofPort 0))) 0 (some (SocketManager.assigned .empty (.ofPort 0)))) 1
      (some (SocketManager.ofPort 0).release)) 1 none) 0 none i = none := by
    intro i
    simp only [Function.update_apply]
    split_ifs <;> rfl
  exact ⟨hnone, rfl, rfl, fun h => absurd (h.all hnone 0 Nat.zero_lt_one) (by decide)⟩

end Rome

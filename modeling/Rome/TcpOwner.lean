import Rome.Lib.Ownership

/-!
# Who closes the sockets

A `SocketManager` has the socket it listens on and those of its clients, an `EndpointManager` the
one to its server. Either has a flag that says whether its destructor closes them. A socket is named
by when it was opened: a descriptor that the system gives out again after it was closed is another
socket.
-/

namespace Rome

open Ownership

/-- A `SocketManager`; its `sockfd` is `none` for -1. -/
structure SocketManager where
  sockfd : Option ℕ := none
  clientSockets : List ℕ := []
  owner : Bool := true
  deriving DecidableEq

namespace SocketManager

def release (obj : SocketManager) : SocketManager := { obj with owner := false }

/-- What the copy constructor makes, and the move constructor, before they release `obj`. -/
def copied (obj : SocketManager) : SocketManager :=
  { sockfd := obj.sockfd, clientSockets := obj.clientSockets }

/-- What a copy or a move makes of the object it is assigned to, before it releases `obj`. -/
def assigned (a obj : SocketManager) : SocketManager :=
  { a with sockfd := obj.sockfd, clientSockets := obj.clientSockets }

/-- `accept_conn`, when `accept` returns a socket. -/
def acceptConn (a : SocketManager) (clientSockfd : ℕ) : SocketManager :=
  { a with clientSockets := a.clientSockets ++ [clientSockfd] }

/-- The default constructor. -/
def empty : SocketManager := { owner := false }

/-- The constructor for a port. -/
def ofPort (sockfd : ℕ) : SocketManager := { sockfd := some sockfd }

/-- The call at which the constructor for a port throws. -/
inductive Failure
  | socket
  | setsockopt
  | bind
  | listen
  deriving DecidableEq

def Failure.opens : Failure → Bool
  | .socket => false
  | _ => true

def Failure.closes : Failure → Bool
  | .bind => true
  | .listen => true
  | _ => false

/-- The sockets the destructor of an owner closes, in order. -/
def closing (a : SocketManager) : List ℕ := a.clientSockets ++ a.sockfd.toList

end SocketManager

instance : Handle SocketManager where
  held := SocketManager.closing
  owner := SocketManager.owner
  Failure := SocketManager.Failure
  opens := SocketManager.Failure.opens
  closes := SocketManager.Failure.closes
  closes_opens f h := by cases f <;> first | rfl | exact h
  empty := .empty
  held_empty := rfl
  connected := .ofPort
  held_connected _ := rfl
  owner_connected _ := rfl
  release := SocketManager.release
  owner_release _ := rfl
  held_release _ := rfl
  copied := SocketManager.copied
  held_copied _ := rfl
  owner_copied _ := rfl
  assigned := SocketManager.assigned
  held_assigned _ _ := rfl
  owner_assigned _ _ := rfl
  listens := SocketManager.sockfd
  accepted := SocketManager.acceptConn
  held_accepted a x _ := by
    show ((a.clientSockets ++ [x]) ++ a.sockfd.toList).Perm
      (x :: (a.clientSockets ++ a.sockfd.toList))
    rw [List.append_assoc]
    exact List.perm_middle
  owner_accepted _ _ := rfl

/-- An `EndpointManager`; its `sockfd` is `none` for -1. -/
structure EndpointManager where
  sockfd : Option ℕ := none
  owner : Bool := true
  deriving DecidableEq

namespace EndpointManager

def release (obj : EndpointManager) : EndpointManager := { obj with owner := false }

/-- What the copy constructor makes, and the move constructor, before they release `obj`. -/
def copied (obj : EndpointManager) : EndpointManager := { sockfd := obj.sockfd }

/-- What a copy or a move makes of the object it is assigned to, before it releases `obj`. -/
def assigned (a obj : EndpointManager) : EndpointManager := { a with sockfd := obj.sockfd }

/-- The default constructor. -/
def empty : EndpointManager := { owner := false }

/-- The constructor for a host, which returns once `connect` has succeeded. -/
def ofHost (sockfd : ℕ) : EndpointManager := { sockfd := some sockfd }

/-- The call at which the constructor for a host throws. -/
inductive Failure
  | socket
  | getaddrinfo
  | inetPton
  deriving DecidableEq

def Failure.opens : Failure → Bool
  | .socket => false
  | _ => true

def Failure.closes : Failure → Bool
  | .socket => false
  | _ => true

/-- The sockets the destructor of an owner closes. -/
def closing (a : EndpointManager) : List ℕ := a.sockfd.toList

end EndpointManager

/-- An `EndpointManager` accepts nothing. -/
instance : Handle EndpointManager where
  held := EndpointManager.closing
  owner := EndpointManager.owner
  Failure := EndpointManager.Failure
  opens := EndpointManager.Failure.opens
  closes := EndpointManager.Failure.closes
  closes_opens _ h := h
  empty := .empty
  held_empty := rfl
  connected := .ofHost
  held_connected _ := rfl
  owner_connected _ := rfl
  release := EndpointManager.release
  owner_release _ := rfl
  held_release _ := rfl
  copied := EndpointManager.copied
  held_copied _ := rfl
  owner_copied _ := rfl
  assigned := EndpointManager.assigned
  held_assigned _ _ := rfl
  owner_assigned _ _ := rfl
  listens _ := none
  accepted a _ := a
  held_accepted _ _ h := absurd h Bool.false_ne_true
  owner_accepted _ _ := rfl

end Rome

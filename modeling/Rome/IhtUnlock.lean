import Rome.IhtDs

/-!
# Unlocks on the wire

A client posts all its unlocks from one word, `temp_lock`, and does not wait for them. The network
card reads the word at some moment between the posting and the first later completion that is polled
on the same queue pair; there is a queue pair for each node, and they are not ordered. The steps of
a client are those of the table, on whatever the shared memory holds when it takes them.
-/

namespace Rome

/-- What a client does on the wire, or to `temp_lock`: a request to a node whose completion it
polls, the `memset` and the assignment of `Write`, and the posting of an unlock. -/
inductive Verb
  | complete (node : UInt64)
  | zero
  | assign (status : UInt64)
  | post (w : Posted)

/-- The node of the lock, to whose queue pair the unlock is posted. -/
def Posted.node (w : Posted) : UInt64 := w.ptr.id

/-- `Write` of an unlock from `temp_lock`, without an acknowledgement. -/
def unlockVerbs (w : Posted) : List Verb := [.zero, .assign w.status, .post w]

section Unlock

variable {ι K V : Type*}

/-- A `Read` of a P-List, unless it is cached. -/
def readVerbs (cached : Option (List PlistPair)) (ptr : RemotePtr) : List Verb :=
  if cached.isSome then [] else [.complete ptr.id]

/-- A `Read` or an acknowledged `Write` of what lies on another node. -/
def remoteVerbs (self : UInt16) (ptr : RemotePtr) : List Verb :=
  if isLocal self ptr then [] else [.complete ptr.id]

/-- The verbs of the next step of client `i`. -/
def clientVerbs (C : IhtCfg ι K) (i : ι) (c : Client K V) : List Verb :=
  let fetch := c.cache.fetch C.plistSize (C.cacheDepth i)
  match c.phase with
  | .idle => []
  | .start _ _ => readVerbs (fetch (List.replicate 8 (-1))) C.root
  | .head _ op ctx =>
    let b := levelHash C.toIhtParams op.key ctx.depth ctx.count
    if (bucketAt ctx.curr.buckets b).lock = pUnlocked then
      readVerbs (fetch (ctx.path.set (ctx.depth - 1) b)) (bucketAt ctx.curr.buckets b).base
    else [.complete ctx.parent.id]
  | .refetch _ _ ctx => [.complete ctx.parent.id]
  | .locked _ _ ctx =>
    let base := (bucketAt ctx.curr.buckets ctx.bucket).base
    if base = .null then [] else remoteVerbs (C.self i) base
  | .write _ _ ctx _ _ => remoteVerbs (C.self i) (bucketAt ctx.curr.buckets ctx.bucket).base
  | .rehash _ _ ctx => remoteVerbs (C.self i) (bucketAt ctx.curr.buckets ctx.bucket).base
  | .link _ _ ctx _ _ => remoteVerbs (C.self i) ctx.parent
  | .unlock _ _ ctx status _ => unlockVerbs ⟨ctx.parent, ctx.bucket, status⟩
  | .ret _ _ _ => []

/-- A client, the verbs left of its step, its `temp_lock`, the unlocks posted whose source is not
read yet, and those written, each with the value read. -/
structure UnlockState (K V : Type*) where
  client : Client K V
  todo : List Verb
  temp : UInt64
  pending : List Posted
  written : List (Posted × UInt64)

/-- The client calls an operation, takes its next step on shared memory `h`, with the blocks the
step allocates, or does its next verb; or the card reads the source of the pending unlock `k`. -/
inductive UnlockEvent (K V : Type*)
  | invoke (op : Op K V)
  | step (h : Heap K V) (fresh : List RemotePtr)
  | verb
  | read (k : ℕ)

/-- A completion on a queue pair comes after the card has read the source of each unlock posted
there before, and it reads these in order. -/
def unlockStep [DecidableEq K] (C : IhtCfg ι K) (i : ι) (s : UnlockState K V) :
    UnlockEvent K V → Option (UnlockState K V)
  | .invoke op =>
    match s.client.phase, s.todo with
    | .idle, [] => some { s with client := { s.client with phase := .start 0 op } }
    | _, _ => none
  | .step h fresh =>
    match s.todo with
    | [] =>
      (stepClient C i h s.client fresh).map fun e =>
        { s with client := e.client, todo := clientVerbs C i s.client }
    | _ => none
  | .verb =>
    match s.todo with
    | [] => none
    | .complete q :: vs => if ∃ w ∈ s.pending, w.node = q then none else some { s with todo := vs }
    | .zero :: vs => some { s with todo := vs, temp := 0 }
    | .assign status :: vs => some { s with todo := vs, temp := status }
    | .post w :: vs => some { s with todo := vs, pending := s.pending ++ [w] }
  | .read k =>
    match s.pending[k]? with
    | none => none
    | some w =>
      if ∃ w' ∈ s.pending.take k, w'.node = w.node then none
      else some { s with pending := s.pending.eraseIdx k, written := s.written ++ [(w, s.temp)] }

/-- A client just made; what the word it has allocated holds is not known. -/
def unlockInit (P : IhtParams K) (temp : UInt64) : UnlockState K V :=
  ⟨⟨Cache.init P.plistSize, [], .idle⟩, [], temp, [], []⟩

end Unlock

end Rome

import Rome.IhtLocal

/-!
# The interlocked hash table of one process, shared by threads

Threads call `get`, `remove` and `insert` on one `iht_carumap`. A thread's step is one access to
what the threads share: a load of a lock, a compare-and-swap on it, a read of a bucket's pointer
that leads to a P-List, the reads of a bucket that it has locked, a write of the bucket's E-List, a
rehash, a write of the bucket's pointer, a store to the lock. `none` is a step that cannot be taken.
-/

namespace Rome.Carumap

variable {ι K V : Type*}

/-- The bucket of its P-List that a call takes. -/
def Frame.bucket (P : Params K) (f : Frame K V) : ℕ := levelHash P f.call.key (f.depth + 1) f.count

/-- The call one level further down, in the P-List at `base`. -/
def Frame.down (f : Frame K V) (base : ℕ) : Frame K V := ⟨f.call, base, f.depth + 1, f.count * 2⟩

/-- What a call does with the E-List of its bucket: return, write it and return, or rehash it. -/
inductive OnElist (K V : Type*)
  | done (result : Option V)
  | store (pairs : List (K × V)) (result : Option V)
  | full

def Call.onElist [DecidableEq K] (P : Params K) (e : List (K × V)) : Call K V → OnElist K V
  | .get key => .done (search key e)
  | .remove key =>
    match removeFrom key e 0 e with
    | some (v, e') => .store e' (some v)
    | none => .done none
  | .insert key val =>
    match search key e with
    | some v => .done (some v)
    | none => if e.length < P.elistSize then .store (e ++ [(key, val)]) none else .full

/-- Where a thread is: in no call; before it loads the lock or compares and swaps it; before it goes
down; with the bucket locked; before it writes the E-List, rehashes it, writes the bucket's pointer
or stores the lock; before it returns. A call that stores the lock after a rehash has no result and
goes on. -/
inductive Phase (K V : Type*)
  | idle
  | load (call : ℕ) (f : Frame K V)
  | cas (call : ℕ) (f : Frame K V)
  | down (call : ℕ) (f : Frame K V)
  | locked (call : ℕ) (f : Frame K V)
  | write (call : ℕ) (f : Frame K V) (elist : ℕ) (pairs : List (K × V)) (result : Option V)
  | rehash (call : ℕ) (f : Frame K V)
  | link (call : ℕ) (f : Frame K V) (base : ℕ) (lock : LockState) (result : Option (Option V))
  | unlock (call : ℕ) (f : Frame K V) (lock : LockState) (result : Option (Option V))
  | ret (call : ℕ) (c : Call K V) (result : Option V)

/-- Where the call of a thread stands. -/
def Phase.frame : Phase K V → Option (Frame K V)
  | .idle => none
  | .load _ f => some f
  | .cas _ f => some f
  | .down _ f => some f
  | .locked _ f => some f
  | .write _ f _ _ _ => some f
  | .rehash _ f => some f
  | .link _ f _ _ _ => some f
  | .unlock _ f _ _ => some f
  | .ret _ _ _ => none

/-- The loop of `acquire` goes on from the lock's value `v`. -/
def acquireFrom (call : ℕ) (f : Frame K V) : LockState → Phase K V
  | .eUnlocked => .cas call f
  | .pUnlocked => .down call f
  | .eLocked => .load call f

/-- Where a call is when it has stored the lock: it returns, or goes on after a rehash. -/
def unlocked (call : ℕ) (f : Frame K V) : Option (Option V) → Phase K V
  | some r => .ret call f.call r
  | none => .load call f

/-- The memory, where each thread is, and the history of the calls. -/
structure Threads (ι K V : Type*) where
  heap : Heap K V
  phase : ι → Phase K V
  calls : ℕ
  hist : List (Lin.Event ℕ (Op K V) (Option V))

/-- A thread makes a call, or takes its next step, with the blocks that `malloc` returns and whether
the `compare_exchange_weak` fails for no reason. -/
inductive ThreadEvent (ι K V : Type*)
  | invoke (t : ι) (c : Call K V)
  | step (t : ι) (fresh : List ℕ) (spurious : Bool)

section Step

variable [DecidableEq K] (P : Params K)

/-- The reads of a bucket that is locked. An `insert` that finds no E-List makes one. -/
def lockedStep (h : Heap K V) (n : ℕ) (f : Frame K V) (fresh : List ℕ) :
    Option (Heap K V × Phase K V) :=
  let base := (h.bucket f.curr (f.bucket P)).base
  if base = 0 then
    match f.call, fresh with
    | .insert key val, [e] =>
      if h.allocatable [e] then
        some (h.setElist e (some ([] ++ [(key, val)])), .link n f e .eUnlocked (some none))
      else none
    | .insert _ _, _ => none
    | _, _ => some (h, .unlock n f .eUnlocked (some none))
  else
    match h.elist base with
    | none => none
    | some e =>
      match f.call.onElist P e with
      | .done r => some (h, .unlock n f .eUnlocked (some r))
      | .store e' r => some (h, .write n f base e' r)
      | .full => some (h, .rehash n f)

/-- A step of a thread in a call: the memory and where it is then. -/
def threadStep (h : Heap K V) (fresh : List ℕ) (spurious : Bool) :
    Phase K V → Option (Heap K V × Phase K V)
  | .idle => none
  | .load n f => some (h, acquireFrom n f (h.bucket f.curr (f.bucket P)).lock)
  | .cas n f =>
    let v := (h.bucket f.curr (f.bucket P)).lock
    if v = .eUnlocked ∧ spurious = false then
      some (h.setLock f.curr (f.bucket P) .eLocked, .locked n f)
    else some (h, if v = .pUnlocked then .down n f else .load n f)
  | .down n f => some (h, .load n (f.down (h.bucket f.curr (f.bucket P)).base))
  | .locked n f => lockedStep P h n f fresh
  | .write n f e l r => some (h.setElist e (some l), .unlock n f .eUnlocked (some r))
  | .rehash n f =>
    if h.allocatable fresh then
      (Carumap.rehash P h f.curr f.count f.depth (f.bucket P) fresh).map fun (h', p) =>
        (h', .link n f p .pUnlocked none)
    else none
  | .link n f base lock r => some (h.setBase f.curr (f.bucket P) base, .unlock n f lock r)
  | .unlock n f lock r => some (h.setLock f.curr (f.bucket P) lock, unlocked n f r)
  | .ret _ _ _ => some (h, .idle)

/-- What a thread's step adds to the history. -/
def Phase.returns : Phase K V → List (Lin.Event ℕ (Op K V) (Option V))
  | .ret n _ r => [.res n r]
  | _ => []

variable [DecidableEq ι]

def threadsStep (s : Threads ι K V) : ThreadEvent ι K V → Option (Threads ι K V)
  | .invoke t c =>
    match s.phase t with
    | .idle =>
      some { s with
        phase := Function.update s.phase t (.load s.calls ⟨c, P.root, 1, P.plistSize⟩)
        calls := s.calls + 1
        hist := s.hist ++ [.inv s.calls c.op] }
    | _ => none
  | .step t fresh spurious =>
    (threadStep P s.heap fresh spurious (s.phase t)).map fun (h, ph) =>
      { s with
        heap := h
        phase := Function.update s.phase t ph
        hist := s.hist ++ (s.phase t).returns }

end Step

/-- The table the constructor makes, with every thread in no call. -/
def threadsInit (P : Params K) : Threads ι K V where
  heap := (init P).heap
  phase _ := .idle
  calls := 0
  hist := []

/-! ## The memory that is not atomic -/

/-- A bucket's pointer, or the pairs of an E-List. -/
inductive Loc
  | base (plist bucket : ℕ)
  | elist (e : ℕ)
  deriving DecidableEq

/-- The places a thread's next step reads or writes other than by an atomic operation, and whether
it writes: the locks are atomic, and a block from `malloc` is the thread's own until it is
linked. -/
def Phase.accesses (P : Params K) (h : Heap K V) : Phase K V → List (Loc × Bool)
  | .down _ f => [(.base f.curr (f.bucket P), false)]
  | .locked _ f =>
    let base := (h.bucket f.curr (f.bucket P)).base
    (.base f.curr (f.bucket P), false) :: if base = 0 then [] else [(.elist base, false)]
  | .write _ _ e _ _ => [(.elist e, true)]
  | .rehash _ f =>
    [(.base f.curr (f.bucket P), false), (.elist (h.bucket f.curr (f.bucket P)).base, true)]
  | .link _ f _ _ _ => [(.base f.curr (f.bucket P), true)]
  | _ => []

/-- The place exists: the bucket is one of an allocated P-List, the E-List is allocated and has no
more pairs than it has room for. -/
def Loc.Live (P : Params K) (h : Heap K V) : Loc → Prop
  | .base p b => ∃ bs, h.plist p = some bs ∧ b < bs.length
  | .elist e => ∃ l, h.elist e = some l ∧ l.length ≤ P.elistSize

/-- Two accesses to one place, one of them a write. -/
def Conflict (a a' : Loc × Bool) : Prop := a.1 = a'.1 ∧ (a.2 = true ∨ a'.2 = true)

end Rome.Carumap

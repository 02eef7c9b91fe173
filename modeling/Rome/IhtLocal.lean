import Rome.IhtDs

/-!
# The interlocked hash table of one process

`iht_carumap` is the table without RDMA, as one thread uses it. Its P-Lists and E-Lists are
allocated with `malloc`; `nullptr` is 0. `get`, `remove` and `insert` are loops that start at the
root: an iteration goes down into a P-List, or locks the bucket, works on its E-List and returns,
or, in an insert that finds the E-List full, puts a P-List in its place and goes on. The machine's
steps are the calls and the iterations; `none` is a step that cannot be taken.
-/

namespace Rome.Carumap

/-- `lock_state_t`. -/
inductive LockState
  | eLocked
  | eUnlocked
  | pUnlocked
  deriving DecidableEq, Repr

/-- The template arguments of `iht_carumap`, and where its root is. -/
structure Params (K : Type*) where
  elistSize : ℕ
  plistSize : ℕ
  hash : K → UInt64
  root : ℕ
  elistSize_pos : 1 ≤ elistSize
  plistSize_pos : 1 ≤ plistSize
  root_ne : root ≠ 0

/-- `PList::pair_t`. -/
structure Bucket where
  base : ℕ
  lock : LockState
  deriving DecidableEq, Repr

section Data

variable {K V : Type*}

/-- The E-Lists (their live pairs) and P-Lists that are allocated. -/
structure Heap (K V : Type*) where
  elist : ℕ → Option (List (K × V))
  plist : ℕ → Option (List Bucket)

/-- The bucket `b` of an array of buckets. -/
def bucketAt (bs : List Bucket) (b : ℕ) : Bucket := bs.getD b ⟨0, .eLocked⟩

namespace Heap

def setElist (h : Heap K V) (p : ℕ) (e : Option (List (K × V))) : Heap K V :=
  { h with elist := Function.update h.elist p e }

def setPlist (h : Heap K V) (p : ℕ) (bs : List Bucket) : Heap K V :=
  { h with plist := Function.update h.plist p (some bs) }

def bucket (h : Heap K V) (p b : ℕ) : Bucket := bucketAt ((h.plist p).getD []) b

def setBucket (h : Heap K V) (p b : ℕ) (x : Bucket) : Heap K V :=
  h.setPlist p (((h.plist p).getD []).set b x)

def setLock (h : Heap K V) (p b : ℕ) (l : LockState) : Heap K V :=
  h.setBucket p b { h.bucket p b with lock := l }

def setBase (h : Heap K V) (p b base : ℕ) : Heap K V :=
  h.setBucket p b { h.bucket p b with base := base }

/-- The blocks `ps` can be what `malloc` returns, one after the other. -/
def allocatable (h : Heap K V) (ps : List ℕ) : Bool :=
  ps.Nodup && ps.all fun p => p ≠ 0 && (h.elist p).isNone && (h.plist p).isNone

end Heap

/-- `PList::make`. -/
def makePList (size : ℕ) : List Bucket := List.replicate size ⟨0, .eUnlocked⟩

/-- `acquire`, which spins while the bucket is locked. -/
def acquire (h : Heap K V) (p b : ℕ) : Option (Bool × Heap K V) :=
  match (h.bucket p b).lock with
  | .eUnlocked => some (true, h.setLock p b .eLocked)
  | .pUnlocked => some (false, h)
  | .eLocked => none

/-- `level_hash` of `iht_carumap`. -/
def levelHash (P : Params K) (key : K) (level count : ℕ) : ℕ :=
  (prehash (P.hash key) (.ofNat level)).toNat % count

/-- The loop of `rehash`. -/
def rehashLoop (P : Params K) (level count : ℕ) :
    List (K × V) → List ℕ → Heap K V → List Bucket → Option (Heap K V × List Bucket)
  | [], _, h, bs => some (h, bs)
  | kv :: src, fresh, h, bs =>
    let b := levelHash P kv.1 level count
    if (bucketAt bs b).base = 0 then
      match fresh with
      | [] => none
      | e :: fresh =>
        rehashLoop P level count src fresh (h.setElist e (some ([] ++ [kv])))
          (bs.set b { bucketAt bs b with base := e })
    else
      let dest := (bucketAt bs b).base
      rehashLoop P level count src fresh
        (h.setElist dest (some ((h.elist dest).getD [] ++ [kv]))) bs

/-- `rehash`, with the blocks `fresh` that it allocates: the new P-List has twice the buckets of the
parent, and each pair goes where the parent's level and bucket count send it. -/
def rehash (P : Params K) (h : Heap K V) (parent pcount pdepth pidx : ℕ) (fresh : List ℕ) :
    Option (Heap K V × ℕ) :=
  match fresh, h.elist (h.bucket parent pidx).base with
  | p :: fresh, some source =>
    match rehashLoop P (pdepth + 1) pcount source fresh h (makePList (pcount * 2)) with
    | some (h', bs) => some ((h'.setPlist p bs).setElist (h.bucket parent pidx).base none, p)
    | none => none
  | _, _ => none

/-- A call of the public interface. -/
inductive Call (K V : Type*)
  | get (key : K)
  | remove (key : K)
  | insert (key : K) (val : V)
  deriving DecidableEq, Repr

def Call.key : Call K V → K
  | .get key => key
  | .remove key => key
  | .insert key _ => key

/-- The same call on a finite map. `get` and `remove` return whether they found the key, and set
`val` if so. -/
def Call.op : Call K V → Op K V
  | .get key => .contains key
  | .remove key => .remove key
  | .insert key val => .insert key val

/-- The loop of `remove` over the rest of the E-List `e` from index `i` on: the last pair takes the
place of the first with the key. -/
def removeFrom [DecidableEq K] (key : K) (e : List (K × V)) :
    ℕ → List (K × V) → Option (V × List (K × V))
  | _, [] => none
  | i, kv :: rest =>
    if kv.1 = key then
      some (kv.2, (if 1 < e.length then e.set i (e.getLastD kv) else e).dropLast)
    else removeFrom key e (i + 1) rest

section Body

variable [DecidableEq K] (P : Params K)

/-- The rest of an iteration of a `get` that has locked its bucket. -/
def get (h : Heap K V) (key : K) (curr bucket : ℕ) : Option (Heap K V × Option V) :=
  let base := (h.bucket curr bucket).base
  if base = 0 then some (h.setLock curr bucket .eUnlocked, none)
  else
    match h.elist base with
    | none => none
    | some e => some (h.setLock curr bucket .eUnlocked, search key e)

/-- The rest of an iteration of a `remove` that has locked its bucket. -/
def remove (h : Heap K V) (key : K) (curr bucket : ℕ) : Option (Heap K V × Option V) :=
  let base := (h.bucket curr bucket).base
  if base = 0 then some (h.setLock curr bucket .eUnlocked, none)
  else
    match h.elist base with
    | none => none
    | some e =>
      match removeFrom key e 0 e with
      | some (v, e') => some ((h.setElist base (some e')).setLock curr bucket .eUnlocked, some v)
      | none => some (h.setLock curr bucket .eUnlocked, none)

/-- The rest of an iteration of an `insert` that has locked its bucket; it goes on with no result
after a rehash. -/
def insert (h : Heap K V) (key : K) (val : V) (curr depth count bucket : ℕ) (fresh : List ℕ) :
    Option (Heap K V × Option (Option V)) :=
  let base := (h.bucket curr bucket).base
  if base = 0 then
    match fresh with
    | [e] =>
      some (((h.setElist e (some ([] ++ [(key, val)]))).setBase curr bucket e).setLock curr bucket
        .eUnlocked, some none)
    | _ => none
  else
    match h.elist base with
    | none => none
    | some e =>
      match search key e with
      | some v => some (h.setLock curr bucket .eUnlocked, some (some v))
      | none =>
        if e.length < P.elistSize then
          some ((h.setElist base (some (e ++ [(key, val)]))).setLock curr bucket .eUnlocked,
            some none)
        else
          (rehash P h curr count depth bucket fresh).map fun (h, p) =>
            ((h.setBase curr bucket p).setLock curr bucket .pUnlocked, none)

/-- The rest of an iteration that has locked its bucket. -/
def locked (h : Heap K V) (c : Call K V) (curr depth count bucket : ℕ) (fresh : List ℕ) :
    Option (Heap K V × Option (Option V)) :=
  match c with
  | .get key => (get h key curr bucket).map fun (h, r) => (h, some r)
  | .remove key => (remove h key curr bucket).map fun (h, r) => (h, some r)
  | .insert key val => insert P h key val curr depth count bucket fresh

end Body

/-- A call under way: the P-List it is at, its depth and its number of buckets. -/
structure Frame (K V : Type*) where
  call : Call K V
  curr : ℕ
  depth : ℕ
  count : ℕ

/-- The memory, the call under way and the calls that returned, with their results. -/
structure State (K V : Type*) where
  heap : Heap K V
  frame : Option (Frame K V)
  results : List (Call K V × Option V)

/-- A call is made, or the one under way goes through its loop once, with the blocks it
allocates. -/
inductive Event (K V : Type*)
  | call (c : Call K V)
  | iter (fresh : List ℕ)

def Event.called : Event K V → Option (Call K V)
  | .call c => some c
  | .iter _ => none

variable [DecidableEq K] (P : Params K)

/-- One iteration of the loop. -/
def iter (s : State K V) (f : Frame K V) (fresh : List ℕ) : Option (State K V) :=
  let bucket := levelHash P f.call.key (f.depth + 1) f.count
  match acquire s.heap f.curr bucket with
  | none => none
  | some (false, h) =>
    some { s with
      heap := h
      frame := some ⟨f.call, (h.bucket f.curr bucket).base, f.depth + 1, f.count * 2⟩ }
  | some (true, h) =>
    if h.allocatable fresh then
      match locked P h f.call f.curr f.depth f.count bucket fresh with
      | none => none
      | some (h, none) => some { s with heap := h }
      | some (h, some r) => some ⟨h, none, s.results ++ [(f.call, r)]⟩
    else none

def step (s : State K V) : Event K V → Option (State K V)
  | .call c =>
    match s.frame with
    | none => some { s with frame := some ⟨c, P.root, 1, P.plistSize⟩ }
    | some _ => none
  | .iter fresh =>
    match s.frame with
    | none => none
    | some f => iter P s f fresh

/-- The table the constructor makes. -/
def init : State K V where
  heap := ⟨fun _ => none, Function.update (fun _ => none) P.root (some (makePList P.plistSize))⟩
  frame := none
  results := []

end Data

end Rome.Carumap

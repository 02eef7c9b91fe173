import Rome.RemotePtr
import Rome.LevelHash
import Rome.Lib.Undefined
import Rome.Lib.Linearizable

/-!
# The interlocked hash table over RDMA

The clients of one `RdmaIHT` share a root P-List. A P-List is an array of buckets, each a pointer
and a lock word; a bucket leads to nothing, to an E-List of key/value pairs, or, for good, to a
P-List of twice the size. Every operation goes through `do_with`: it descends along the key's
buckets on snapshots of the P-Lists, locks the bucket it takes to lead to an E-List, runs the
operation's function on that E-List and unlocks.

A state has the memory of all nodes, the unlocks posted and not yet delivered, and where each
client is in its call. A client's step is one access to shared memory with the private work up to
the next: a snapshot of a P-List, a compare-and-swap on a lock, a read or a write of an E-List, a
write of a bucket's pointer, the posting of an unlock. `none` is a step that cannot be taken.

Two things are taken for granted here that the code does not see to, and that `Rome.IhtRaw` and
`Rome.IhtUnlock` are about: that a block which `Allocate` returns is zeroed, so that a new E-List is
empty, and that an unlock delivers the status it was posted with, not a later one.
-/

namespace Rome

/-- What a `RdmaIHT<K, V, ELIST_SIZE, PLIST_SIZE>` whose constructor accepts it is built over. -/
structure IhtParams (K : Type*) where
  elistSize : ℕ
  plistSize : ℕ
  hash : K → UInt64
  elistSize_pos : 1 ≤ elistSize
  plistSize_pos : 0 < plistSize
  plistSize_aligned : plistSize * 16 % 64 = 0

/-- `CacheDepth`. -/
inductive CacheDepth
  | none
  | rootOnly
  | upToLayer1
  | upToLayer2
  deriving DecidableEq, Repr

def CacheDepth.toNat : CacheDepth → ℕ
  | .none => 0
  | .rootOnly => 1
  | .upToLayer1 => 2
  | .upToLayer2 => 3

/-- The clients `ι` of a table: its parameters, its root, and each client's node and cache depth. -/
structure IhtCfg (ι K : Type*) extends IhtParams K where
  root : RemotePtr
  root_ne : root ≠ .null
  self : ι → UInt16
  cacheDepth : ι → CacheDepth

def eLocked : UInt64 := 1

def eUnlocked : UInt64 := 2

def pUnlocked : UInt64 := 3

/-- `plist_pair_t`, a bucket. -/
structure PlistPair where
  base : RemotePtr
  lock : UInt64
  deriving DecidableEq, Repr

/-- What lies past the end of a P-List, which no bucket index names. -/
def PlistPair.junk : PlistPair := ⟨.null, 0⟩

/-- The bucket `i` of a P-List. -/
def bucketAt (bs : List PlistPair) (i : ℕ) : PlistPair := bs.getD i .junk

section Data

variable {K V : Type*}

/-- `level_hash` of `RdmaIHT`. -/
def levelHash (P : IhtParams K) (key : K) (level count : ℕ) : ℕ :=
  (prehash (P.hash key) (.ofNat level)).toNat % (count - 1)

/-- The E-Lists (their live pairs) and P-Lists that are allocated. -/
structure Heap (K V : Type*) where
  elist : RemotePtr → Option (List (K × V))
  plist : RemotePtr → Option (List PlistPair)

namespace Heap

def setElist (h : Heap K V) (p : RemotePtr) (e : Option (List (K × V))) : Heap K V :=
  { h with elist := Function.update h.elist p e }

def setPlist (h : Heap K V) (p : RemotePtr) (bs : List PlistPair) : Heap K V :=
  { h with plist := Function.update h.plist p (some bs) }

/-- The bucket `b` of the P-List `p` in shared memory. -/
def bucket (h : Heap K V) (p : RemotePtr) (b : ℕ) : PlistPair :=
  bucketAt ((h.plist p).getD []) b

/-- The bucket `b` of the P-List `p` becomes `x`. -/
def setBucket (h : Heap K V) (p : RemotePtr) (b : ℕ) (x : PlistPair) : Heap K V :=
  h.setPlist p (((h.plist p).getD []).set b x)

/-- The blocks `ps` can be what `Allocate` returns, one after the other, on node `self`. -/
def allocatable (h : Heap K V) (self : UInt16) (ps : List RemotePtr) : Bool :=
  ps.Nodup && ps.all fun p => p ≠ .null && p.id == self.toUInt64 && (h.elist p).isNone
    && (h.plist p).isNone

end Heap

/-- `InitPList` of a P-List `mult` times the size of the root. -/
def initPList (P : IhtParams K) (mult : ℕ) : List PlistPair :=
  List.replicate (P.plistSize * mult) ⟨.null, eUnlocked⟩

/-- `is_local` on node `self`. -/
def isLocal (self : UInt16) (p : RemotePtr) : Bool := p.id == self.toUInt64

/-- `ExtendedRead`: the buckets of `size` consecutive `PList`s at `ptr`. -/
def extendedRead (P : IhtParams K) (h : Heap K V) (ptr : RemotePtr) (size : ℕ) : List PlistPair :=
  ((h.plist ptr).getD []).take (P.plistSize * size)

/-- The loop of `rehash`: each pair of the source goes into the E-List of its bucket, which is
allocated, and taken to be empty then, when the first comes. -/
def rehashLoop (P : IhtParams K) (level count : ℕ) :
    List (K × V) → List RemotePtr → Heap K V → List PlistPair → Option (Heap K V × List PlistPair)
  | [], _, h, bs => some (h, bs)
  | kv :: src, fresh, h, bs =>
    let b := levelHash P kv.1 level count
    if (bucketAt bs b).base = .null then
      match fresh with
      | [] => none
      | e :: fresh =>
        rehashLoop P level count src fresh (h.setElist e (some ([] ++ [kv])))
          (bs.set b ⟨e, eUnlocked⟩)
    else
      let dest := (bucketAt bs b).base
      rehashLoop P level count src fresh
        (h.setElist dest (some ((h.elist dest).getD [] ++ [kv]))) bs

/-- `rehash` of the E-List `base`, the new P-List and its E-Lists being allocated at `fresh`. Only
an E-List on the caller's own node is deallocated: of another the local copy is. -/
def rehash (P : IhtParams K) (self : UInt16) (h : Heap K V) (base : RemotePtr)
    (pcount pdepth : ℕ) (fresh : List RemotePtr) : Option (Heap K V × RemotePtr) :=
  match fresh, h.elist base with
  | newP :: fresh, some source =>
    let pcount := pcount * 2
    let plistSizeFactor := pcount / P.plistSize
    match rehashLoop P (pdepth + 1) pcount source fresh h (initPList P plistSizeFactor) with
    | some (h, bs) =>
      let h := h.setPlist newP bs
      some (if isLocal self base then h.setElist base none else h, newP)
    | none => none
  | _, _ => none

inductive Op (K V : Type*)
  | contains (key : K)
  | insert (key : K) (value : V)
  | remove (key : K)
  deriving DecidableEq, Repr

def Op.key : Op K V → K
  | .contains key => key
  | .insert key _ => key
  | .remove key => key

/-- What an operation's function does with the E-List it is run on: return true, return true after
linking a new E-List or after writing the E-List, or rehash it and return false. -/
inductive Action (K V : Type*)
  | finish (result : Option V)
  | link (elist : List (K × V))
  | write (elist : List (K × V)) (result : Option V)
  | rehash

/-- The linear search of an E-List. -/
def search [DecidableEq K] (key : K) : List (K × V) → Option V
  | [] => none
  | kv :: e => if kv.1 = key then some kv.2 else search key e

/-- The loop of `remove` from index `i` on: the last pair takes the place of the one removed, and
the scan goes on behind it. The E-List has `fuel + i` pairs at the start. -/
def removeLoop [DecidableEq K] (key : K) :
    (fuel i : ℕ) → List (K × V) → Option V → List (K × V) × Option V
  | 0, _, e, result => (e, result)
  | fuel + 1, i, e, result =>
    match e[i]? with
    | none => (e, result)
    | some kv =>
      if kv.1 = key then
        let e' := if 1 < e.length then e.set i (e.getLastD kv) else e
        removeLoop key fuel (i + 1) e'.dropLast (some kv.2)
      else removeLoop key fuel (i + 1) e result

/-- The function an operation hands to `do_with`, on the E-List or the null pointer. -/
def apply [DecidableEq K] (P : IhtParams K) : Op K V → Option (List (K × V)) → Action K V
  | .contains _, none => .finish none
  | .contains key, some e => .finish (search key e)
  | .insert key value, none => .link ([] ++ [(key, value)])
  | .insert key value, some e =>
    match search key e with
    | some v => .finish (some v)
    | none => if e.length < P.elistSize then .write (e ++ [(key, value)]) none else .rehash
  | .remove _, none => .finish none
  | .remove key, some e =>
    match removeLoop key e.length 0 e none with
    | (_, none) => .finish none
    | (e', some v) => .write e' (some v)

end Data

/-! ## The cache of P-Lists -/

/-- `is_cached_pointers` and `layer_pointers`, and on the side what `try_cache` has stored for
which path. -/
structure Cache where
  isCached : List (List Bool)
  layers : List (List (List PlistPair))
  stored : List (List ℤ × List PlistPair)
  deriving DecidableEq

namespace Cache

/-- The cache the constructor makes. -/
def init (plistSize : ℕ) : Cache where
  isCached := [[false], .replicate plistSize false, .replicate (plistSize * plistSize * 2) false]
  layers := [[[]], .replicate plistSize [], .replicate (plistSize * plistSize * 2) []]
  stored := []

/-- The array lengths `fetch_cache` and `try_cache` flatten a path with. -/
def sizes (plistSize : ℕ) : List ℕ := [1, plistSize, 2 * plistSize * plistSize]

/-- The loop `fetch_cache` and `try_cache` start with, from level `i` on: where the P-List a path
leads to is cached, its layer, its place in the layer and its number of buckets. -/
def place (plistSize cacheDepth : ℕ) (path : List ℤ) :
    (fuel i bucketOfCache count : ℕ) → Option (ℕ × ℕ × ℕ)
  | 0, i, bucketOfCache, count => some (i - 1, bucketOfCache, count)
  | fuel + 1, i, bucketOfCache, count =>
    if i = cacheDepth then none
    else if path.getD i (-1) = -1 then some (i, bucketOfCache, count)
    else place plistSize cacheDepth path fuel (i + 1)
      (bucketOfCache * (sizes plistSize).getD i 0 + (path.getD i (-1)).toNat) (count * 2)

/-- `fetch_cache`. -/
def fetch (plistSize : ℕ) (depth : CacheDepth) (c : Cache) (path : List ℤ) :
    Option (List PlistPair) :=
  match place plistSize depth.toNat path 8 0 0 plistSize with
  | none => none
  | some (layer, i, _) =>
    if (c.isCached.getD layer []).getD i false then some ((c.layers.getD layer []).getD i [])
    else none

/-- Every bucket of the P-List but the last leads to a P-List. -/
def calcified (bs : List PlistPair) (count : ℕ) : Bool :=
  (List.range (count - 1)).all fun i => (bucketAt bs i).lock == pUnlocked

/-- `try_cache`: whether it caches, and the cache then. -/
def tryCache (plistSize : ℕ) (depth : CacheDepth) (c : Cache) (bs : List PlistPair)
    (path : List ℤ) : Bool × Cache :=
  match place plistSize depth.toNat path 8 0 0 plistSize with
  | none => (false, c)
  | some (layer, i, count) =>
    if (c.isCached.getD layer []).getD i false then (false, c)
    else if calcified bs count then
      (true,
        { isCached := c.isCached.modify layer fun l => l.set i true
          layers := c.layers.modify layer fun l => l.set i (bs.take count)
          stored := c.stored ++ [(path, bs.take count)] })
    else (false, c)

/-- The bucket path of eight entries that `do_with` has after the buckets `ns`. -/
def bucketPath (ns : List ℕ) : List ℤ := (ns.map Int.ofNat ++ List.replicate 8 (-1)).take 8

/-- The bucket at level `i` is one the keys of a P-List there hash to. -/
def Valid (plistSize : ℕ) (ns : List ℕ) : Prop :=
  ∀ i (h : i < ns.length), ns[i] < plistSize * 2 ^ i - 1

instance (plistSize : ℕ) (ns : List ℕ) : Decidable (Valid plistSize ns) :=
  inferInstanceAs (Decidable (∀ i (h : i < ns.length), ns[i] < plistSize * 2 ^ i - 1))

end Cache

/-- A call of `try_cache` with a P-List, or of `fetch_cache`. -/
inductive CacheEvent
  | tryCache (bs : List PlistPair) (path : List ℕ)
  | fetch (path : List ℕ)
  deriving DecidableEq

def CacheEvent.path : CacheEvent → List ℕ
  | .tryCache _ path => path
  | .fetch path => path

namespace Cache

/-- One call on a cache, on a valid path. -/
def step (plistSize : ℕ) (depth : CacheDepth) (c : Cache) (e : CacheEvent) : Option Cache :=
  if e.path.length ≤ 8 ∧ Valid plistSize e.path then
    match e with
    | .tryCache bs path => some (c.tryCache plistSize depth bs (bucketPath path)).2
    | .fetch _ => some c
  else none

end Cache

/-! ## The clients -/

/-- `CachedRDMA<PList>`: a cached P-List, or a snapshot of `size` P-Lists in the block `block`. -/
structure CachedPList where
  buckets : List PlistPair
  isCached : Bool
  size : ℕ
  block : ℕ

/-- Snapshots a client allocates and deallocates, with their number of elements. -/
inductive PoolEvent
  | alloc (block size : ℕ)
  | free (block size : ℕ)
  deriving DecidableEq

/-- `descent_context`, and the bucket path of `do_with`. -/
structure Ctx where
  depth : ℕ
  count : ℕ
  bucket : ℕ
  parent : RemotePtr
  curr : CachedPList
  path : List ℤ

/-- Where a client is: outside a call; before the root; at the head of the loop; before it fetches
the P-List again; with the bucket locked; before it writes an E-List, rehashes, writes a bucket's
pointer, or unlocks; before it returns. -/
inductive Phase (K V : Type*)
  | idle
  | start (call : ℕ) (op : Op K V)
  | head (call : ℕ) (op : Op K V) (ctx : Ctx)
  | refetch (call : ℕ) (op : Op K V) (ctx : Ctx)
  | locked (call : ℕ) (op : Op K V) (ctx : Ctx)
  | write (call : ℕ) (op : Op K V) (ctx : Ctx) (elist : List (K × V)) (result : Option V)
  | rehash (call : ℕ) (op : Op K V) (ctx : Ctx)
  | link (call : ℕ) (op : Op K V) (ctx : Ctx) (ptr : RemotePtr) (status : UInt64)
  | unlock (call : ℕ) (op : Op K V) (ctx : Ctx) (status : UInt64) (result : Option V)
  | ret (call : ℕ) (op : Op K V) (result : Option V)

/-- A client's own memory. -/
structure Client (K V : Type*) where
  cache : Cache
  pool : List PoolEvent
  phase : Phase K V

/-- A posted write of a bucket's lock. -/
structure Posted where
  ptr : RemotePtr
  bucket : ℕ
  status : UInt64

structure IhtState (ι K V : Type*) where
  heap : Heap K V
  posted : List Posted
  client : ι → Client K V
  calls : ℕ
  hist : List (Lin.Event ℕ (Op K V) (Option V))

/-- A client calls an operation, takes its next step, with the blocks the step allocates, or a
posted unlock is delivered. -/
inductive IhtEvent (ι K V : Type*)
  | invoke (c : ι) (op : Op K V)
  | step (c : ι) (fresh : List RemotePtr)
  | deliver (i : ℕ)

/-- An event, or a store of a client behind `bucket_path`, with where it is in its call then. -/
abbrev TableEvent (ι K V : Type*) := IhtEvent ι K V ⊕ ι × Phase K V

section Step

variable {ι K V : Type*}

/-- `CachedRDMA::deallocate`. -/
def Client.deallocate (c : Client K V) (curr : CachedPList) : Client K V :=
  if curr.isCached then c else { c with pool := c.pool ++ [.free curr.block curr.size] }

/-- The store behind `bucket_path` that the head of the loop starts with at a depth of more than
eight. It is to the client's stack: what is left of its call may be anything then. -/
def Client.overrun (c : Client K V) (phase : Phase K V) : Option (Client K V) :=
  match c.phase with
  | .head _ _ ctx => if ctx.depth ≤ 8 then none else some { c with phase := phase }
  | _ => none

/-- A snapshot of `1 << depth` P-Lists at `ptr`. -/
def Client.read (P : IhtParams K) (c : Client K V) (h : Heap K V) (ptr : RemotePtr) (depth : ℕ) :
    CachedPList × Client K V :=
  (⟨extendedRead P h ptr (2 ^ depth), false, 2 ^ depth, c.pool.length⟩,
    { c with pool := c.pool ++ [.alloc c.pool.length (2 ^ depth)] })

/-- The P-List `path` leads to, cached or as a snapshot that may be cached now. -/
def Client.enter (P : IhtParams K) (cacheDepth : CacheDepth) (c : Client K V) (h : Heap K V)
    (ptr : RemotePtr) (depth : ℕ) (path : List ℤ) : CachedPList × Client K V :=
  match c.cache.fetch P.plistSize cacheDepth path with
  | some bs => (⟨bs, true, 0, 0⟩, c)
  | none =>
    let (curr, c) := c.read P h ptr depth
    (curr, { c with cache := (c.cache.tryCache P.plistSize cacheDepth curr.buckets path).2 })

/-- What a client's step does: to shared memory, to its own, a lock write it posts and the result it
returns. -/
structure Effect (K V : Type*) where
  heap : Heap K V
  client : Client K V
  posted : Option Posted := none
  result : Option (ℕ × Option V) := none

variable [DecidableEq K] (C : IhtCfg ι K)

/-- The start of `do_with`: the root, cached or read. -/
def doWithStart (i : ι) (h : Heap K V) (c : Client K V) (call : ℕ) (op : Op K V) : Effect K V :=
  let path := List.replicate 8 (-1)
  let (curr, c) := c.enter C.toIhtParams (C.cacheDepth i) h C.root 0 path
  { heap := h
    client := { c with phase := .head call op ⟨1, C.plistSize, 0, C.root, curr, path⟩ } }

/-- The head of the loop of `do_with`: down into a P-List, or one try at the bucket's lock. The
depth is one that the bucket path has an entry for. -/
def doWithHead (i : ι) (h : Heap K V) (c : Client K V) (call : ℕ) (op : Op K V) (ctx : Ctx) :
    Effect K V :=
  let b := levelHash C.toIhtParams op.key ctx.depth ctx.count
  let ctx := { ctx with bucket := b, path := ctx.path.set (ctx.depth - 1) b }
  if (bucketAt ctx.curr.buckets b).lock = pUnlocked then
    let base := (bucketAt ctx.curr.buckets b).base
    let (curr, c) := (c.deallocate ctx.curr).enter C.toIhtParams (C.cacheDepth i) h base ctx.depth
      ctx.path
    { heap := h
      client := { c with
        phase := .head call op ⟨ctx.depth + 1, ctx.count * 2, b, base, curr, ctx.path⟩ } }
  else
    let v := h.bucket ctx.parent b
    if v.lock = pUnlocked then { heap := h, client := { c with phase := .refetch call op ctx } }
    else if v.lock = eUnlocked then
      { heap := h.setBucket ctx.parent b { v with lock := eLocked }
        client := { c with phase := .locked call op ctx } }
    else { heap := h, client := { c with phase := .head call op ctx } }

/-- The P-List is read again after its bucket turned out to lead to a P-List. -/
def doWithRefetch (h : Heap K V) (c : Client K V) (call : ℕ) (op : Op K V) (ctx : Ctx) :
    Effect K V :=
  let (curr, c) := (c.deallocate ctx.curr).read C.toIhtParams h ctx.parent (ctx.depth - 1)
  { heap := h, client := { c with phase := .head call op { ctx with curr := curr } } }

/-- The operation's function on the E-List the snapshot names. -/
def doWithLocked (i : ι) (h : Heap K V) (c : Client K V) (call : ℕ) (op : Op K V) (ctx : Ctx)
    (fresh : List RemotePtr) : Option (Effect K V) :=
  let base := (bucketAt ctx.curr.buckets ctx.bucket).base
  if base = .null ∨ (h.elist base).isSome then
    match apply C.toIhtParams op (if base = .null then none else h.elist base), fresh with
    | .finish result, _ =>
      some { heap := h, client := { c with phase := .unlock call op ctx eUnlocked result } }
    | .link e, [ptr] =>
      if h.allocatable (C.self i) [ptr] then
        some { heap := h.setElist ptr (some e)
               client := { c with phase := .link call op ctx ptr eUnlocked } }
      else none
    | .link _, _ => none
    | .write e result, _ =>
      some { heap := h, client := { c with phase := .write call op ctx e result } }
    | .rehash, _ => some { heap := h, client := { c with phase := .rehash call op ctx } }
  else none

/-- `change_bucket_pointer`; after a rehash the snapshot is changed with the P-List. -/
def doWithLink (h : Heap K V) (c : Client K V) (call : ℕ) (op : Op K V) (ctx : Ctx)
    (ptr : RemotePtr) (status : UInt64) : Effect K V :=
  let h := h.setBucket ctx.parent ctx.bucket { h.bucket ctx.parent ctx.bucket with base := ptr }
  let curr := if status = pUnlocked then
      { ctx.curr with buckets := ctx.curr.buckets.set ctx.bucket ⟨ptr, pUnlocked⟩ }
    else ctx.curr
  { heap := h
    client := { c with phase := .unlock call op { ctx with curr := curr } status none } }

/-- `unlock`, then the end of the call or the head of the loop. -/
def doWithUnlock (h : Heap K V) (c : Client K V) (call : ℕ) (op : Op K V) (ctx : Ctx)
    (status : UInt64) (result : Option V) : Effect K V where
  heap := h
  client :=
    if status = eUnlocked then { c.deallocate ctx.curr with phase := .ret call op result }
    else { c with phase := .head call op ctx }
  posted := some ⟨ctx.parent, ctx.bucket, status⟩

/-- The next step of client `i`. At the head of the loop it starts with a store to the bucket path,
which has eight entries; a step whose store is behind them is not one of these. -/
def stepClient (i : ι) (h : Heap K V) (c : Client K V) (fresh : List RemotePtr) :
    Option (Effect K V) :=
  match c.phase with
  | .idle => none
  | .start call op => some (doWithStart C i h c call op)
  | .head call op ctx => if ctx.depth ≤ 8 then some (doWithHead C i h c call op ctx) else none
  | .refetch call op ctx => some (doWithRefetch C h c call op ctx)
  | .locked call op ctx => doWithLocked C i h c call op ctx fresh
  | .write call op ctx e result =>
    some { heap := h.setElist (bucketAt ctx.curr.buckets ctx.bucket).base (some e)
           client := { c with phase := .unlock call op ctx eUnlocked result } }
  | .rehash call op ctx =>
    if h.allocatable (C.self i) fresh then
      (rehash C.toIhtParams (C.self i) h (bucketAt ctx.curr.buckets ctx.bucket).base ctx.count
        ctx.depth fresh).map fun (h, p) =>
          { heap := h, client := { c with phase := .link call op ctx p pUnlocked } }
    else none
  | .link call op ctx ptr status => some (doWithLink h c call op ctx ptr status)
  | .unlock call op ctx status result => some (doWithUnlock h c call op ctx status result)
  | .ret call _ result =>
    some { heap := h, client := { c with phase := .idle }, result := some (call, result) }

variable [DecidableEq ι]

/-- One event of the table. A posted unlock delivers its own status, as if `temp_lock` were not
shared. -/
def ihtStep (s : IhtState ι K V) : IhtEvent ι K V → Option (IhtState ι K V)
  | .invoke i op =>
    match (s.client i).phase with
    | .idle =>
      some { s with
        client := Function.update s.client i { s.client i with phase := .start s.calls op }
        calls := s.calls + 1
        hist := s.hist ++ [.inv s.calls op] }
    | _ => none
  | .step i fresh =>
    (stepClient C i s.heap (s.client i) fresh).map fun e =>
      { s with
        heap := e.heap
        posted := s.posted ++ e.posted.toList
        client := Function.update s.client i e.client
        hist := s.hist ++ (e.result.map fun r => .res r.1 r.2).toList }
  | .deliver n =>
    match s.posted[n]? with
    | none => none
    | some w =>
      some { s with
        heap := s.heap.setBucket w.ptr w.bucket
          { s.heap.bucket w.ptr w.bucket with lock := w.status }
        posted := s.posted.eraseIdx n }

omit [DecidableEq K] in
/-- What the stores behind `bucket_path` make of the table's clients. -/
def overrun (s : IhtState ι K V) (x : ι × Phase K V) : Option (IhtState ι K V) :=
  ((s.client x.1).overrun x.2).map fun c =>
    { s with client := Function.update s.client x.1 c }

/-- One event of the table, or what a store behind `bucket_path` makes of a client. -/
def tableStep : IhtState ι K V → TableEvent ι K V → Option (IhtState ι K V) :=
  Machine.orUndefined (ihtStep C) overrun

/-- The table after `InitAsFirst`, with every client made and in no call. -/
def ihtInit : IhtState ι K V where
  heap := ⟨fun _ => none, Function.update (fun _ => none) C.root (some (initPList C.toIhtParams 1))⟩
  posted := []
  client := fun _ => ⟨Cache.init C.plistSize, [], .idle⟩
  calls := 0
  hist := []

end Step

/-- The finite map the table is to be. -/
def mapSpec {K V : Type*} [DecidableEq K] (m : K → Option V) : Op K V → (K → Option V) × Option V
  | .contains key => (m, m key)
  | .insert key value =>
    match m key with
    | none => (Function.update m key (some value), none)
    | some v => (m, some v)
  | .remove key => (Function.update m key none, m key)

end Rome

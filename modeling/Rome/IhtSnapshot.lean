import Rome.IhtDs

/-!
# The snapshots of `do_with`

`do_with` allocates memory for each P-List it reads and hands it to a `CachedRDMA`, which is told a
depth and deallocates as many `PList`s as it makes of that. The steps of a client in which it does
so are here as the source has them: what the pool is asked for, and what the wrapper is told. What
the other clients do shows in the shared memory, which is any at each step.

A step to a depth beyond eight is none of these, so that the shifts of a depth fit in an `int`.
-/

namespace Rome

section Pool

variable {K V : Type*}

/-- `Allocate<PList>(size)`. -/
def Client.allocate (c : Client K V) (size : ℕ) : ℕ × Client K V :=
  (c.pool.length, { c with pool := c.pool ++ [.alloc c.pool.length size] })

/-- `Read<PList>`: the block, and the buckets that are read into it. -/
def Client.readPList (P : IhtParams K) (c : Client K V) (h : Heap K V) (ptr : RemotePtr) :
    (ℕ × List PlistPair) × Client K V :=
  let (prealloc, c) := c.allocate 1
  ((prealloc, extendedRead P h ptr 1), c)

/-- `ExtendedRead<PList>`. -/
def Client.extendedReadPList (P : IhtParams K) (c : Client K V) (h : Heap K V) (ptr : RemotePtr)
    (size : ℕ) : (ℕ × List PlistPair) × Client K V :=
  let (prealloc, c) := c.allocate size
  ((prealloc, extendedRead P h ptr size), c)

/-- `CachedRDMA(ptr, depth)`. -/
def CachedPList.ofPtr (ptr : ℕ × List PlistPair) (depth : ℕ) : CachedPList :=
  ⟨ptr.2, false, 1 <<< depth, ptr.1⟩

/-- `CachedRDMA(ptr)` of a cached P-List. -/
def CachedPList.ofCached (ptr : List PlistPair) : CachedPList := ⟨ptr, true, 0, 0⟩

/-- `try_cache`. -/
def Client.tryCache (P : IhtParams K) (cacheDepth : CacheDepth) (c : Client K V)
    (bs : List PlistPair) (path : List ℤ) : Client K V :=
  { c with cache := (c.cache.tryCache P.plistSize cacheDepth bs path).2 }

end Pool

/-- The client calls an operation, or takes its next step on shared memory `h`, with the blocks the
step allocates. -/
inductive SnapshotEvent (K V : Type*)
  | invoke (call : ℕ) (op : Op K V)
  | step (h : Heap K V) (fresh : List RemotePtr)

section Step

variable {ι K V : Type*} (C : IhtCfg ι K) (i : ι) (h : Heap K V) (c : Client K V)

/-- The root, cached or read. -/
def descendRoot (path : List ℤ) : CachedPList × Client K V :=
  match c.cache.fetch C.plistSize (C.cacheDepth i) path with
  | none =>
    let (rootRed, c) := c.readPList C.toIhtParams h C.root
    (.ofPtr rootRed 0, c.tryCache C.toIhtParams (C.cacheDepth i) rootRed.2 path)
  | some cache => (.ofCached cache, c)

/-- Normal descent. -/
def descendNormal (ctx : Ctx) (bucketBase : RemotePtr) : CachedPList × Client K V :=
  let c := c.deallocate ctx.curr
  match c.cache.fetch C.plistSize (C.cacheDepth i) ctx.path with
  | none =>
    let (currRed, c) := c.extendedReadPList C.toIhtParams h bucketBase (1 <<< ctx.depth)
    (.ofPtr currRed ctx.depth, c.tryCache C.toIhtParams (C.cacheDepth i) currRed.2 ctx.path)
  | some cache => (.ofCached cache, c)

/-- Erroneous descent into an E-List. -/
def descendErroneous (ctx : Ctx) : CachedPList × Client K V :=
  let c := c.deallocate ctx.curr
  let (currRed, c) := c.extendedReadPList C.toIhtParams h ctx.parent (1 <<< (ctx.depth - 1))
  (.ofPtr currRed (ctx.depth - 1), c)

end Step

/-- The next event of client `i`. Past the descents it is the table's step. A store to the bucket
path is to one of its eight entries. -/
def snapshotStep {ι K V : Type*} [DecidableEq K] (C : IhtCfg ι K) (i : ι) (c : Client K V) :
    SnapshotEvent K V → Option (Client K V)
  | .invoke call op =>
    match c.phase with
    | .idle => some { c with phase := .start call op }
    | _ => none
  | .step h fresh =>
    match c.phase with
    | .start call op =>
      let path := List.replicate 8 (-1)
      let (curr, c) := descendRoot C i h c path
      some { c with phase := .head call op ⟨1, C.plistSize, 0, C.root, curr, path⟩ }
    | .head call op ctx =>
      if ctx.depth ≤ 8 then
        let b := levelHash C.toIhtParams op.key ctx.depth ctx.count
        let ctx := { ctx with bucket := b, path := ctx.path.set (ctx.depth - 1) b }
        if (bucketAt ctx.curr.buckets b).lock = pUnlocked then
          let bucketBase := (bucketAt ctx.curr.buckets b).base
          let (curr, c) := descendNormal C i h c ctx bucketBase
          some { c with
            phase := .head call op ⟨ctx.depth + 1, ctx.count * 2, b, bucketBase, curr, ctx.path⟩ }
        else if (h.bucket ctx.parent b).lock = pUnlocked then
          some { c with phase := .refetch call op ctx }
        else if (h.bucket ctx.parent b).lock = eUnlocked then
          some { c with phase := .locked call op ctx }
        else some { c with phase := .head call op ctx }
      else none
    | .refetch call op ctx =>
      let (curr, c) := descendErroneous C h c ctx
      some { c with phase := .head call op { ctx with curr := curr } }
    | _ => (stepClient C i h c fresh).map Effect.client

end Rome

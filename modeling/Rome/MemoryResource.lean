import Mathlib

/-!
# The allocator of RDMA memory

An `rdma_memory_resource` carves blocks of the requested size from the top of its region downwards.
A block that is freed goes into a list of its thread, by slab class (the power of two its size is
rounded up to), and the next request of the class with a fitting alignment takes it from there and
zeroes as many bytes as the class says. Addresses are natural numbers: a pointer that would be below
zero is below the region.
-/

namespace Rome

def kMinSlabClass : ℕ := 3

def kMaxSlabClass : ℕ := 20

def kNumSlabClasses : ℕ := kMaxSlabClass - kMinSlabClass + 1

def kMaxAlignment : ℕ := 1 <<< 8

/-- `LT(n)` of the table. -/
def lt (n : ℤ) : List ℤ := List.replicate 16 n

def kLogTable : List ℤ :=
  [-1, 0, 1, 1, 2, 2, 2, 2, 3, 3, 3, 3, 3, 3, 3, 3] ++ lt 4 ++ lt 5 ++ lt 5 ++ lt 6 ++ lt 6 ++ lt 6
    ++ lt 6 ++ lt 7 ++ lt 7 ++ lt 7 ++ lt 7 ++ lt 7 ++ lt 7 ++ lt 7 ++ lt 7

def upperLog2 (x : ℕ) : ℕ :=
  let q := x >>> 16
  let r : ℤ :=
    if q ≠ 0 then
      let p := q >>> 8
      if p ≠ 0 then 24 + kLogTable.getD p 0 else 16 + kLogTable.getD q 0
    else
      let p := x >>> 8
      if p ≠ 0 then 8 + kLogTable.getD p 0 else kLogTable.getD x 0
  if 1 <<< r.toNat < x then r.toNat + 1 else r.toNat

/-- `UpperLog2`; `none` when it reads past the end of the table. -/
def upperLog2Checked (x : ℕ) : Option ℕ :=
  let q := x >>> 16
  let r : Option ℤ :=
    if q ≠ 0 then
      let p := q >>> 8
      if p ≠ 0 then kLogTable[p]?.map (24 + ·) else kLogTable[q]?.map (16 + ·)
    else
      let p := x >>> 8
      if p ≠ 0 then kLogTable[p]?.map (8 + ·) else kLogTable[x]?
  r.map fun r => if 1 <<< r.toNat < x then r.toNat + 1 else r.toNat

/-- The slab class of a request. -/
def slabClass (bytes : ℕ) : ℕ := max kMinSlabClass (upperLog2 bytes % 256)

/-- The region of a resource: the blocks carved so far are from `head` up. -/
structure Resource where
  raw : ℕ
  capacity : ℕ
  head : ℕ

/-- How many bytes of the region are registered with the device: `RegisterMemoryRegion` is handed
the capacity as an `int`, that is its low 32 bits. -/
def Resource.registered (r : Resource) : ℕ := r.capacity % 2 ^ 32

/-- The bytes lie in the registered region. -/
def Resource.Registers (r : Resource) (ptr bytes : ℕ) : Prop :=
  r.raw ≤ ptr ∧ ptr + bytes ≤ r.raw + r.registered

/-- `alignments_` and `freelists_`, a thread's own. -/
structure FreeLists where
  alignments : List UInt8
  freelists : List (List (ℕ × ℕ))

abbrev Memory := ℕ → UInt8

/-- `memset(ptr, 0, len)`. -/
def Memory.zero (mem : Memory) (ptr len : ℕ) : Memory :=
  fun a => if ptr ≤ a ∧ a < ptr + len then 0 else mem a

/-- The search of a freelist: the block, what is left, and whether nothing came after it. -/
def takeFirst (alignment : ℕ) : List (ℕ × ℕ) → Option (ℕ × List (ℕ × ℕ) × Bool)
  | [] => none
  | f :: l =>
    if alignment ≤ f.1 then some (f.2, l, l.isEmpty)
    else (takeFirst alignment l).map fun (ptr, l, last) => (ptr, f :: l, last)

/-- The freelist path of `do_allocate`. -/
def reuse (t : FreeLists) (idx alignment : ℕ) : Option (ℕ × FreeLists) :=
  if (t.alignments.getD idx 0).toNat &&& alignment ≠ 0 then
    (takeFirst alignment (t.freelists.getD idx [])).map fun (ptr, l, last) =>
      (ptr,
        { alignments :=
            if last then t.alignments.modify idx fun a => a &&& ~~~ alignment.toUInt8
            else t.alignments
          freelists := t.freelists.set idx l })
  else none

/-- `e & ~(alignment - 1)`, for an alignment that is a power of two. -/
def alignDown (e alignment : ℕ) : ℕ := e - e % alignment

/-- The path of `do_allocate` that carves a new block. -/
def carve (r : Resource) (bytes alignment : ℕ) : Option (ℕ × Resource) :=
  let d : ℤ := alignDown r.head alignment - bytes
  if d < r.raw then none else some (d.toNat, { r with head := d.toNat })

/-- What `do_allocate` makes of the number of bytes. -/
def atLeast (bytes alignment : ℕ) : ℕ := if bytes < alignment then alignment else bytes

/-- The freelist is not empty where the bit of the alignment says so, which is asserted in a build
with debug checks, as it is by default. -/
def FreeLists.checked (t : FreeLists) (idx alignment : ℕ) : Bool :=
  (t.alignments.getD idx 0).toNat &&& alignment = 0 ∨ t.freelists.getD idx [] ≠ []

/-- `do_allocate`; `none` when an assertion fails. -/
def doAllocate (r : Resource) (t : FreeLists) (mem : Memory) (bytes alignment : ℕ) :
    Option (Option ℕ × Resource × FreeLists × Memory) :=
  let bytes := atLeast bytes alignment
  let slabclass := slabClass bytes
  let idx := slabclass - kMinSlabClass
  if idx < kNumSlabClasses ∧ alignment ≤ kMaxAlignment ∧ t.checked idx alignment then
    match reuse t idx alignment with
    | some (ptr, t) => some (some ptr, r, t, mem.zero ptr (1 <<< slabclass))
    | none =>
      match carve r bytes alignment with
      | some (ptr, r) => some (some ptr, r, t, mem)
      | none => some (none, r, t, mem)
  else none

/-- `do_deallocate`. -/
def doDeallocate (t : FreeLists) (ptr bytes alignment : ℕ) : FreeLists :=
  let idx := slabClass bytes - kMinSlabClass
  { alignments := t.alignments.modify idx fun a => a ||| alignment.toUInt8
    freelists := t.freelists.modify idx fun l => l ++ [(alignment, ptr)] }

/-- The resource the constructor makes over the `capacity` bytes from `raw` on. -/
def Resource.init (raw capacity : ℕ) : Resource := ⟨raw, capacity, raw + capacity⟩

/-- A thread's lists before its first call. -/
def FreeLists.init : FreeLists where
  alignments := List.replicate kNumSlabClasses 0
  freelists := List.replicate kNumSlabClasses []

/-! ## One resource and one thread -/

/-- The blocks in use, with the bytes asked for, and every block carved so far, with its size. -/
structure AllocState where
  res : Resource
  lists : FreeLists
  mem : Memory
  live : List (ℕ × ℕ)
  carved : List (ℕ × ℕ)

/-- A call of the allocator, or a write to a block in use. -/
inductive AllocEvent
  | alloc (bytes : ℕ)
  | free (ptr bytes : ℕ)
  | store (a : ℕ) (v : UInt8)

/-- The blocks carved after a call that left the head at `head`. -/
def AllocState.carve (s : AllocState) (head ptr bytes : ℕ) : List (ℕ × ℕ) :=
  if head = s.res.head then s.carved else (ptr, bytes) :: s.carved

/-- A call of up to `2 ^ 20` bytes, at the alignment `rdma_allocator` asks for; a block in use is
freed with the bytes it was allocated with. -/
def allocStep (s : AllocState) : AllocEvent → Option AllocState
  | .alloc bytes =>
    if 1 ≤ bytes ∧ bytes ≤ 2 ^ 20 then
      match doAllocate s.res s.lists s.mem bytes 64 with
      | some (some ptr, r, t, mem) =>
        some ⟨r, t, mem, (ptr, bytes) :: s.live, s.carve r.head ptr (atLeast bytes 64)⟩
      | some (none, r, t, mem) => some ⟨r, t, mem, s.live, s.carved⟩
      | none => none
    else none
  | .free ptr bytes =>
    if (ptr, bytes) ∈ s.live then
      some { s with
        lists := doDeallocate s.lists ptr bytes 64
        live := s.live.erase (ptr, bytes) }
    else none
  | .store a v =>
    if ∃ x ∈ s.live, x.1 ≤ a ∧ a < x.1 + x.2 then
      some { s with mem := Function.update s.mem a v }
    else none

def allocInit (raw capacity : ℕ) (mem : Memory) : AllocState :=
  ⟨.init raw capacity, .init, mem, [], []⟩

/-! ## Any number of resources and one thread -/

/-- A block: the resource it came from, its pointer, its bytes. -/
structure Block where
  res : ℕ
  ptr : ℕ
  bytes : ℕ
  deriving DecidableEq

/-- The resources made so far, the lists of the thread, which they share, the blocks in use, with
the bytes asked for, and every block carved so far, with its size. -/
structure ThreadState where
  resources : List Resource
  lists : FreeLists
  mem : Memory
  live : List Block
  carved : List Block

/-- The constructor of a resource over a region, or a call of one of the resources. -/
inductive ResourceEvent
  | construct (raw capacity : ℕ)
  | alloc (res bytes : ℕ)
  | free (block : Block)

/-- The constructor zeroes `alignments_`. -/
def FreeLists.clear (t : FreeLists) : FreeLists :=
  { t with alignments := List.replicate kNumSlabClasses 0 }

/-- A call of one thread; a block is freed on the resource it came from. -/
def threadStep (s : ThreadState) : ResourceEvent → Option ThreadState
  | .construct raw capacity =>
    some { s with resources := s.resources ++ [.init raw capacity], lists := s.lists.clear }
  | .alloc i bytes =>
    match s.resources[i]? with
    | none => none
    | some r =>
      if bytes ≤ 2 ^ 20 then
        match doAllocate r s.lists s.mem bytes 64 with
        | some (some ptr, r', t, mem) =>
          some ⟨s.resources.set i r', t, mem, ⟨i, ptr, bytes⟩ :: s.live,
            if r'.head = r.head then s.carved else ⟨i, ptr, atLeast bytes 64⟩ :: s.carved⟩
        | some (none, _, t, mem) => some { s with lists := t, mem := mem }
        | none => none
      else none
  | .free b =>
    if b ∈ s.live ∧ 1 ≤ b.bytes then
      some { s with
        lists := doDeallocate s.lists b.ptr b.bytes 64
        live := s.live.erase b }
    else none

def threadInit (mem : Memory) : ThreadState := ⟨[], .init, mem, [], []⟩

/-! ## Requests of any alignment -/

/-- A block and the alignment that was asked for. -/
structure AlignedBlock extends Block where
  alignment : ℕ
  deriving DecidableEq

structure AlignState where
  resources : List Resource
  lists : FreeLists
  mem : Memory
  live : List AlignedBlock

inductive AlignEvent
  | construct (raw capacity : ℕ)
  | alloc (res bytes alignment : ℕ)
  | free (block : AlignedBlock)

/-- A call of one thread. The alignment is a power of two up to `kMaxAlignment`, that is a divisor
of it; a block is freed with the bytes and the alignment it was allocated with. -/
def alignStep (s : AlignState) : AlignEvent → Option AlignState
  | .construct raw capacity =>
    some { s with resources := s.resources ++ [.init raw capacity], lists := s.lists.clear }
  | .alloc i bytes alignment =>
    match s.resources[i]? with
    | none => none
    | some r =>
      if 1 ≤ bytes ∧ bytes ≤ 2 ^ 20 ∧ alignment ∣ kMaxAlignment then
        match doAllocate r s.lists s.mem bytes alignment with
        | some (some ptr, r', t, mem) =>
          some ⟨s.resources.set i r', t, mem, ⟨⟨i, ptr, bytes⟩, alignment⟩ :: s.live⟩
        | some (none, _, t, mem) => some { s with lists := t, mem := mem }
        | none => none
      else none
  | .free b =>
    if b ∈ s.live then
      some { s with
        lists := doDeallocate s.lists b.ptr b.bytes b.alignment
        live := s.live.erase b }
    else none

def alignInit (mem : Memory) : AlignState := ⟨[], .init, mem, []⟩

/-! ## Calls with any arguments -/

structure CallState where
  resources : List Resource
  lists : FreeLists
  mem : Memory

/-- A call of one of the resources. Its `do_deallocate` does not use the resource. -/
inductive MemoryCall
  | allocate (res bytes alignment : ℕ)
  | deallocate (ptr bytes alignment : ℕ)

/-- A call of one thread. The alignment is a power of two up to `kMaxAlignment`; blocks that are
freed are of sizes that have a slab class. -/
def memoryStep (s : CallState) : MemoryCall → Option CallState
  | .allocate i bytes alignment =>
    s.resources[i]?.bind fun r =>
      if alignment ∣ kMaxAlignment then
        (doAllocate r s.lists s.mem bytes alignment).map fun (_, r, t, mem) =>
          ⟨s.resources.set i r, t, mem⟩
      else none
  | .deallocate ptr bytes alignment =>
    if 1 ≤ bytes ∧ bytes ≤ 2 ^ 20 ∧ alignment ∣ kMaxAlignment then
      some { s with lists := doDeallocate s.lists ptr bytes alignment }
    else none

def memoryInit (resources : List Resource) (mem : Memory) : CallState := ⟨resources, .init, mem⟩

/-! ## One resource and any number of threads

The freelists are a thread's own; the head of the region is one for all threads. A thread that has
to carve a block loads the head, and exchanges it if it is still what the thread has loaded; else it
goes on with the head it has found. -/

variable {ι : Type*}

/-- A thread is in no call, or in the loop of `do_allocate`, with the head it has loaded (`__e`). -/
inductive CarvePhase
  | idle
  | carving (bytes e : ℕ)
  deriving DecidableEq

/-- The resource, the lists of each thread and where it is, the blocks in use, with the bytes asked
for, and every block carved so far, with its size. -/
structure SharedAlloc (ι : Type*) where
  res : Resource
  lists : ι → FreeLists
  phase : ι → CarvePhase
  mem : Memory
  live : List (ℕ × ℕ)
  carved : List (ℕ × ℕ)

/-- A thread calls `do_allocate`, goes once through its loop, or frees a block in use, which another
thread may have allocated; a write to a block in use. -/
inductive SharedEvent (ι : Type*)
  | alloc (t : ι) (bytes : ℕ)
  | exchange (t : ι)
  | free (t : ι) (ptr bytes : ℕ)
  | store (a : ℕ) (v : UInt8)

def SharedAlloc.goto [DecidableEq ι] (s : SharedAlloc ι) (t : ι) (ph : CarvePhase) :
    SharedAlloc ι :=
  { s with phase := Function.update s.phase t ph }

/-- Calls of up to `2 ^ 20` bytes, for which the assertions hold, at the alignment `rdma_allocator`
asks for; a block in use is freed with the bytes it was allocated with. -/
def sharedStep [DecidableEq ι] (s : SharedAlloc ι) : SharedEvent ι → Option (SharedAlloc ι)
  | .alloc t bytes =>
    let slabclass := slabClass (atLeast bytes 64)
    if s.phase t = .idle ∧ 1 ≤ bytes ∧ bytes ≤ 2 ^ 20
        ∧ (s.lists t).checked (slabclass - kMinSlabClass) 64 then
      match reuse (s.lists t) (slabclass - kMinSlabClass) 64 with
      | some (ptr, l) => some { s with
          lists := Function.update s.lists t l
          mem := s.mem.zero ptr (1 <<< slabclass)
          live := (ptr, bytes) :: s.live }
      | none => some (s.goto t (.carving bytes s.res.head))
    else none
  | .exchange t =>
    match s.phase t with
    | .idle => none
    | .carving bytes e =>
      match carve { s.res with head := e } (atLeast bytes 64) 64 with
      | none => some (s.goto t .idle)
      | some (ptr, r) =>
        if s.res.head = e then
          some { s.goto t .idle with
            res := r
            live := (ptr, bytes) :: s.live
            carved := (ptr, atLeast bytes 64) :: s.carved }
        else some (s.goto t (.carving bytes s.res.head))
  | .free t ptr bytes =>
    if s.phase t = .idle ∧ (ptr, bytes) ∈ s.live then
      some { s with
        lists := Function.update s.lists t (doDeallocate (s.lists t) ptr bytes 64)
        live := s.live.erase (ptr, bytes) }
    else none
  | .store a v =>
    if ∃ x ∈ s.live, x.1 ≤ a ∧ a < x.1 + x.2 then
      some { s with mem := Function.update s.mem a v }
    else none

def sharedInit (raw capacity : ℕ) (mem : Memory) : SharedAlloc ι where
  res := .init raw capacity
  lists _ := .init
  phase _ := .idle
  mem := mem
  live := []
  carved := []

end Rome

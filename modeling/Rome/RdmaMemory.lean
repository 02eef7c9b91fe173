import Rome.Status

/-!
# The memory that is registered with the device

An `RdmaMemory` allocates its bytes, from hugepages where the system has some, and registers them
with the device. Offsets and lengths are passed on as `int`s: the capacity is cut to its low 32
bits, and a sum is compared with it as an unsigned number of 64 bits.
-/

namespace Rome

/-- `ibv_mr`: a region that is registered, and its protection domain. -/
structure IbvMr where
  pd : ℕ
  addr : UInt64
  length : UInt64
  deriving DecidableEq

/-- The system: the files that can be opened, with the number one reads from them if they begin with
one, the memory that is handed out, and what the device registers. -/
structure RdmaSystem where
  file : String → Option (Option ℤ)
  alignedAlloc : UInt64 → UInt64 → Option UInt64
  mmap : UInt64 → Option UInt64
  ibvRegMr : ℕ → UInt64 → UInt64 → Option IbvMr
  /-- What is registered is what was asked for. -/
  ibvRegMr_eq : ∀ pd base length mr, ibvRegMr pd base length = some mr → mr = ⟨pd, base, length⟩

structure RdmaMemory where
  capacity : UInt64
  raw : UInt64
  memoryRegions : List (String × IbvMr)

def kDefaultId : String := "default"

/-- The conversion of an `int` to `uint64_t`. -/
def uint64OfInt (x : Int32) : UInt64 := .ofInt x.toInt

/-- The conversion of a `uint64_t` to `int`. -/
def intOfUint64 (x : UInt64) : Int32 := .ofNat x.toNat

def RdmaSystem.getNumHugepages (sys : RdmaSystem) (path : String) : StatusVal ℤ :=
  match sys.file path with
  | none => ⟨(⟨.unknown, some "Failed to open file: "⟩ : Status).shift [path], none⟩
  | some none => ⟨⟨.unknown, some "Failed to read nr_hugepages"⟩, none⟩
  | some (some n) => ⟨.ok, some n⟩

def RdmaSystem.useHugepages (sys : RdmaSystem) : Option String → Bool
  | none => false
  | some path =>
    let nr := sys.getNumHugepages path
    nr.status.t = .ok ∧ 0 < nr.val.getD 0

/-- The memory of a constructor; `none` when it is refused. -/
def RdmaSystem.allocate (sys : RdmaSystem) (capacity : UInt64) (path : Option String) :
    Option UInt64 :=
  if sys.useHugepages path then sys.mmap capacity
  else sys.alignedAlloc 64 (((capacity >>> 6) + 1) <<< 6)

namespace RdmaMemory

def validateRegion (m : RdmaMemory) (offset length : Int32) : Bool :=
  if offset < 0 ∨ length < 0 then false
  else if m.capacity < uint64OfInt (offset + length) then false
  else true

def registerMemoryRegion (sys : RdmaSystem) (m : RdmaMemory) (id : String) (pd : ℕ)
    (offset length : Int32) : Status × RdmaMemory :=
  if ¬ m.validateRegion offset length then
    ((⟨.failedPrecondition, some "Requested memory region invalid: "⟩ : Status).shift [id], m)
  else if (m.memoryRegions.lookup id).isSome then
    ((⟨.alreadyExists, some "Memory region exists: {}"⟩ : Status).shift [id], m)
  else
    match sys.ibvRegMr pd (m.raw + uint64OfInt offset) (uint64OfInt length) with
    | none => (⟨.internalError, some "Failed to register memory region"⟩, m)
    | some mr => (.ok, { m with memoryRegions := (id, mr) :: m.memoryRegions })

/-- `GetDefaultMemoryRegion`; `none` where there is none to dereference. -/
def getDefaultMemoryRegion (m : RdmaMemory) : Option IbvMr := m.memoryRegions.lookup kDefaultId

/-- The constructor; `none` when it aborts. -/
def create (sys : RdmaSystem) (capacity : UInt64) (path : Option String) (pd : ℕ) :
    Option RdmaMemory :=
  (sys.allocate capacity path).bind fun raw =>
    let (status, m) :=
      registerMemoryRegion sys ⟨capacity, raw, []⟩ kDefaultId pd 0 (intOfUint64 capacity)
    if status.t = .ok then some m else none

end RdmaMemory

end Rome

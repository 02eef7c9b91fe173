import Mathlib

/-!
# Remote pointers

A `remote_ptr` packs a 16-bit node id and a 48-bit address into one word; the null pointer is the
word 0.
-/

namespace Rome

/-- `remote_ptr`. -/
structure RemotePtr where
  raw : UInt64
  deriving DecidableEq, Repr

namespace RemotePtr

def kAddressBits : UInt64 := 64 - 16

def kAddressBitmask : UInt64 := (1 <<< kAddressBits) - 1

def kIdBitmask : UInt64 := (0 - 1) ^^^ kAddressBitmask

/-- `remote_ptr(id, address)`. -/
def of (id : UInt16) (address : UInt64) : RemotePtr :=
  ⟨(id.toUInt64 <<< kAddressBits) ||| (address &&& kAddressBitmask)⟩

def id (p : RemotePtr) : UInt64 := (p.raw &&& kIdBitmask) >>> kAddressBits

def address (p : RemotePtr) : UInt64 := p.raw &&& kAddressBitmask

/-- `remote_nullptr`. -/
def null : RemotePtr := ⟨0⟩

/-- `operator+=`, for elements of `sizeofT` bytes. -/
def addAssign (sizeofT : UInt64) (p : RemotePtr) (s : UInt64) : RemotePtr :=
  let address := (p.raw + sizeofT * s) &&& kAddressBitmask
  ⟨(p.raw &&& kIdBitmask) ||| address⟩

/-- `operator<`. -/
def lessThan (p q : RemotePtr) : Bool := p.raw < q.raw

end RemotePtr

end Rome

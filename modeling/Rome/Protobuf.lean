import Rome.Lib.Wire

/-!
# What the generated messages use of the protobuf runtime

The code that `protoc` generates for a message reads and writes it with functions of the protobuf
library. A `Runtime` is what these functions are, on lists of bytes, and `Lawful` what they are
documented to do: each reader takes what the writer of its kind wrote from the front of the bytes. A
field is written as its tag, `8 * n` or `8 * n + 2` for the field `n`, and its value.
-/

namespace Rome.Message

abbrev Bytes := List UInt8

/-- The functions of the runtime, with `U` for an unknown field. A reader returns what it has read
and what follows it, or `none` for the null pointer. -/
structure Runtime (U : Type*) where
  /-- `ReadTag`. -/
  readTag : Bytes → Option (UInt32 × Bytes)
  /-- `ReadVarint32`. -/
  readVarint32 : Bytes → Option (UInt32 × Bytes)
  /-- `ReadVarint64`. -/
  readVarint64 : Bytes → Option (UInt64 × Bytes)
  /-- `InlineGreedyStringParser`. -/
  readString : Bytes → Option (Bytes × Bytes)
  /-- `PackedUInt32Parser`. -/
  readPacked : Bytes → Option (List UInt32 × Bytes)
  /-- The bytes that `ParseContext::ParseMessage` has a message parse. -/
  readMessage : Bytes → Option (Bytes × Bytes)
  /-- `UnknownFieldParse`. -/
  unknownFieldParse : UInt32 → Bytes → Option (U × Bytes)
  /-- `VerifyUTF8`. -/
  verifyUTF8 : Bytes → Bool
  /-- `ParseContext::DataAvailable`, which is false at the end of a chunk of the input. -/
  dataAvailable : Bytes → Bool
  /-- `WriteUInt32ToArray`. -/
  writeUInt32 : ℕ → UInt32 → Bytes
  /-- `WriteBoolToArray`. -/
  writeBool : ℕ → Bool → Bytes
  /-- `WriteEnumToArray`. -/
  writeEnum : ℕ → Int32 → Bytes
  /-- `WriteString`. -/
  writeString : ℕ → Bytes → Bytes
  /-- `WriteUInt32Packed`, with the byte size it is given. -/
  writeUInt32Packed : ℕ → List UInt32 → ℤ → Bytes
  /-- `InternalWriteMessage`, with the cached size of the message and what it serializes to. -/
  internalWriteMessage : ℕ → ℤ → Bytes → Bytes
  /-- `InternalSerializeUnknownFieldsToArray`, of one field. -/
  writeUnknown : U → Bytes
  /-- `UInt32Size`. -/
  uint32Size : UInt32 → ℕ
  /-- `UInt32Size` of a repeated field. -/
  uint32Sizes : List UInt32 → ℕ
  /-- `Int32Size`. -/
  int32Size : ℤ → ℕ
  /-- `EnumSize`. -/
  enumSize : Int32 → ℕ
  /-- `StringSize`. -/
  stringSize : Bytes → ℕ
  /-- `LengthDelimitedSize`. -/
  lengthDelimitedSize : ℕ → ℕ
  /-- The size of one unknown field. -/
  unknownSize : U → ℕ

/-- The largest size that is read: `INT_MAX` less the bytes the runtime may read past a limit. -/
def maxSize : ℕ := 2147483631

/-- `ToCachedSize`, a conversion to `int`. -/
@[irreducible] def toCachedSize (n : ℕ) : ℤ := (n : ℤ).bmod (2 ^ 32)

variable {U M α : Type*}

/-- What the runtime is documented to do. -/
structure Runtime.Lawful (R : Runtime U) : Prop where
  readTag_lt : ∀ b x r, R.readTag b = some (x, r) → r.length < b.length
  readVarint32_lt : ∀ b x r, R.readVarint32 b = some (x, r) → r.length < b.length
  readVarint64_lt : ∀ b x r, R.readVarint64 b = some (x, r) → r.length < b.length
  readString_lt : ∀ b x r, R.readString b = some (x, r) → r.length < b.length
  readPacked_lt : ∀ b x r, R.readPacked b = some (x, r) → r.length < b.length
  readMessage_lt : ∀ b x r, R.readMessage b = some (x, r) → r.length < b.length
  unknownFieldParse_le : ∀ t b x r, R.unknownFieldParse t b = some (x, r) → r.length ≤ b.length
  dataAvailable_nil : R.dataAvailable [] = false
  readTag_byte : ∀ (t : UInt8) r, t.toNat < 128 → R.readTag (t :: r) = some (t.toUInt32, r)
  writeUInt32 : ∀ n v, n < 16 → ∃ p, R.writeUInt32 n v = .ofNat (8 * n) :: p
    ∧ ∀ r, R.readVarint32 (p ++ r) = some (v, r)
  writeBool : ∀ n v, n < 16 → ∃ p, R.writeBool n v = .ofNat (8 * n) :: p
    ∧ ∀ r, R.readVarint64 (p ++ r) = some (if v then 1 else 0, r)
  writeEnum : ∀ n v, n < 16 → ∃ p, R.writeEnum n v = .ofNat (8 * n) :: p
    ∧ ∀ r, R.readVarint64 (p ++ r) = some (v.toInt64.toUInt64, r)
  writeString : ∀ n s, n < 16 → s.length ≤ maxSize →
    ∃ p, R.writeString n s = .ofNat (8 * n + 2) :: p ∧ ∀ r, R.readString (p ++ r) = some (s, r)
  writeUInt32Packed : ∀ n vs, n < 16 → R.uint32Sizes vs ≤ maxSize →
    ∃ p, R.writeUInt32Packed n vs (R.uint32Sizes vs) = .ofNat (8 * n + 2) :: p
      ∧ ∀ r, R.readPacked (p ++ r) = some (vs, r)
  internalWriteMessage : ∀ n b, n < 16 → b.length ≤ maxSize →
    ∃ p, R.internalWriteMessage n b.length b = .ofNat (8 * n + 2) :: p
      ∧ ∀ r, R.readMessage (p ++ r) = some (b, r)
  unknownFieldParse : ∀ t b u r, R.unknownFieldParse t b = some (u, r) → ∀ r', ∃ p,
    R.readTag (R.writeUnknown u ++ r') = some (t, p) ∧ R.unknownFieldParse t p = some (u, r')
  uint32Size : ∀ n v, n < 16 → (R.writeUInt32 n v).length = 1 + R.uint32Size v
  boolSize : ∀ n v, n < 16 → (R.writeBool n v).length = 1 + 1
  enumSize : ∀ n v, n < 16 → (R.writeEnum n v).length = 1 + R.enumSize v
  stringSize : ∀ n s, n < 16 → s.length ≤ maxSize →
    (R.writeString n s).length = 1 + R.stringSize s
  length_le_stringSize : ∀ s, s.length ≤ R.stringSize s
  packedSize : ∀ n vs, n < 16 → R.uint32Sizes vs ≤ maxSize →
    (R.writeUInt32Packed n vs (R.uint32Sizes vs)).length
      = 1 + R.int32Size (R.uint32Sizes vs) + R.uint32Sizes vs
  uint32Sizes_pos : ∀ vs, 0 < R.uint32Sizes vs ↔ vs ≠ []
  messageSize : ∀ n b, n < 16 → b.length ≤ maxSize →
    (R.internalWriteMessage n b.length b).length = 1 + R.lengthDelimitedSize b.length
  length_le_lengthDelimitedSize : ∀ n, n ≤ R.lengthDelimitedSize n
  unknownSize : ∀ u, (R.writeUnknown u).length = R.unknownSize u

/-! ## The loops of the generated parsers -/

/-- What the `switch` of a parser does with a tag: it has read the field, fails, or leaves the tag
to `handle_unusual`. -/
inductive Field (M : Type*)
  | done (m : M) (rest : Bytes)
  | fail
  | unusual

/-- The field is what a reader returns. -/
def Field.read (r : Option (α × Bytes)) (f : α → M) : Field M :=
  match r with
  | some (x, p) => .done (f x) p
  | none => .fail

/-- The `while` loop of a parser: the message, and the last tag if the parse ended at one that no
field has, an end of group or zero. -/
def parseLoop (R : Runtime U) (field : UInt32 → Bytes → M → Field M) (addUnknown : U → M → M) :
    ℕ → M → Bytes → Option (M × Option UInt32)
  | _, m, [] => some (m, none)
  | 0, _, _ :: _ => none
  | fuel + 1, m, b :: bs =>
    match R.readTag (b :: bs) with
    | none => none
    | some (tag, p) =>
      match field tag p m with
      | .done m p => parseLoop R field addUnknown fuel m p
      | .fail => none
      | .unusual =>
        if tag &&& 7 = 4 ∨ tag = 0 then some (m, some tag)
        else
          match R.unknownFieldParse tag p with
          | none => none
          | some (u, p) => parseLoop R field addUnknown fuel (addUnknown u m) p

/-- A parser, which reads a byte at least each time through its loop. -/
def parse (R : Runtime U) (field : UInt32 → Bytes → M → Field M) (addUnknown : U → M → M) (m : M)
    (b : Bytes) : Option (M × Option UInt32) :=
  parseLoop R field addUnknown b.length m b

/-- The `do` loop for a repeated string whose tag is the byte `tag`: it goes on while the tag comes
again in the same chunk. -/
def stringsLoop (R : Runtime U) (tag : UInt8) (add : Bytes → M → M) :
    ℕ → M → Bytes → Option (M × Bytes)
  | 0, _, _ => none
  | fuel + 1, m, p =>
    match R.readString p with
    | none => none
    | some (s, p) =>
      if R.verifyUTF8 s then
        if R.dataAvailable p then
          match p with
          | [] => some (add s m, [])
          | b :: p => if b = tag then stringsLoop R tag add fuel (add s m) p
            else some (add s m, b :: p)
        else some (add s m, p)
      else none

/-- The field of a repeated string. -/
def readStrings (R : Runtime U) (tag : UInt8) (add : Bytes → M → M) (p : Bytes) (m : M) : Field M :=
  .read (stringsLoop R tag add p.length m p) id

/-! ## The wire format -/

/-- An unknown field as the wire has it; groups are left out. -/
inductive Unknown
  | varint (tag : UInt32) (v : UInt64)
  | fixed64 (tag : UInt32) (v : Bytes)
  | delimited (tag : UInt32) (v : Bytes)
  | fixed32 (tag : UInt32) (v : Bytes)

def Unknown.write : Unknown → Bytes
  | varint tag v => Wire.encode 5 tag.toNat ++ Wire.encode 10 v.toNat
  | fixed64 tag v => Wire.encode 5 tag.toNat ++ v
  | delimited tag v => Wire.encode 5 tag.toNat ++ Wire.encodeDelimited 5 v
  | fixed32 tag v => Wire.encode 5 tag.toNat ++ v

def Unknown.parse (tag : UInt32) (b : Bytes) : Option (Unknown × Bytes) :=
  match (tag &&& 7).toNat with
  | 0 => (Wire.decode 10 b).map fun x => (.varint tag (.ofNat x.1), x.2)
  | 1 => (Wire.bytes 8 b).map fun x => (.fixed64 tag x.1, x.2)
  | 2 => (Wire.decodeDelimited 5 b).map fun x => (.delimited tag x.1, x.2)
  | 5 => (Wire.bytes 4 b).map fun x => (.fixed32 tag x.1, x.2)
  | _ => none

/-- A runtime that reads from one chunk, and whose strings are ASCII. -/
def wire : Runtime Unknown where
  readTag b := (Wire.decode 5 b).map fun x => (.ofNat x.1, x.2)
  readVarint32 b := (Wire.decode 10 b).map fun x => (.ofNat x.1, x.2)
  readVarint64 b := (Wire.decode 10 b).map fun x => (.ofNat x.1, x.2)
  readString := Wire.decodeDelimited 5
  readPacked b := (Wire.decodeDelimited 5 b).bind fun x =>
    (Wire.decodeAll 10 x.1.length x.1).map fun ns => (ns.map UInt32.ofNat, x.2)
  readMessage := Wire.decodeDelimited 5
  unknownFieldParse := Unknown.parse
  verifyUTF8 s := s.all (· < 128)
  dataAvailable p := !p.isEmpty
  writeUInt32 n v := .ofNat (8 * n) :: Wire.encode 10 v.toNat
  writeBool n v := .ofNat (8 * n) :: Wire.encode 10 (if v then 1 else 0)
  writeEnum n v := .ofNat (8 * n) :: Wire.encode 10 v.toInt64.toUInt64.toNat
  writeString n s := .ofNat (8 * n + 2) :: Wire.encodeDelimited 5 s
  writeUInt32Packed n vs size := .ofNat (8 * n + 2) :: (Wire.encode 5 size.toNat
    ++ vs.flatMap fun v => Wire.encode 10 v.toNat)
  internalWriteMessage n size b := .ofNat (8 * n + 2) :: (Wire.encode 5 size.toNat ++ b)
  writeUnknown := Unknown.write
  uint32Size v := (Wire.encode 10 v.toNat).length
  uint32Sizes vs := (vs.map fun v => (Wire.encode 10 v.toNat).length).sum
  int32Size v := (Wire.encode 5 v.toNat).length
  enumSize v := (Wire.encode 10 v.toInt64.toUInt64.toNat).length
  stringSize s := (Wire.encodeDelimited 5 s).length
  lengthDelimitedSize n := (Wire.encode 5 n).length + n
  unknownSize u := u.write.length

end Rome.Message

import Rome.Protobuf

/-!
# The messages of the consensus protocol

`Command`, `ConsensusObj` and `Msg` as `protoc` has generated them: what a message has, how it is
cleared, merged into another, sized, serialized and parsed. Strings are lists of bytes. The sizes
that `ByteSizeLong` leaves for `_InternalSerialize` are part of the message.
-/

namespace Rome.Message

variable {U : Type*}

/-! ## Command -/

structure Command (U : Type*) where
  cliId : UInt32 := 0
  cliSeq : UInt32 := 0
  svrSeq : UInt32 := 0
  commands : List Bytes := []
  unknown : List U := []
  cachedSize : ℤ := 0

namespace Command

def setCliId (v : UInt32) (m : Command U) : Command U := { m with cliId := v }

def setCliSeq (v : UInt32) (m : Command U) : Command U := { m with cliSeq := v }

def setSvrSeq (v : UInt32) (m : Command U) : Command U := { m with svrSeq := v }

def addCommands (ss : List Bytes) (m : Command U) : Command U :=
  { m with commands := m.commands ++ ss }

def addUnknowns (us : List U) (m : Command U) : Command U := { m with unknown := m.unknown ++ us }

def clear (m : Command U) : Command U := { cachedSize := m.cachedSize }

/-- The `switch` of `_InternalParse`. -/
def field (R : Runtime U) (tag : UInt32) (p : Bytes) (m : Command U) : Field (Command U) :=
  match (tag >>> 3).toNat with
  | 1 => if tag.toUInt8 = 8 then .read (R.readVarint32 p) fun v => m.setCliId v else .unusual
  | 2 => if tag.toUInt8 = 16 then .read (R.readVarint32 p) fun v => m.setCliSeq v else .unusual
  | 3 => if tag.toUInt8 = 24 then .read (R.readVarint32 p) fun v => m.setSvrSeq v else .unusual
  | 4 => if tag.toUInt8 = 34 then readStrings R 34 (fun s m => m.addCommands [s]) p m
    else .unusual
  | _ => .unusual

def internalParse (R : Runtime U) (m : Command U) (b : Bytes) :
    Option (Command U × Option UInt32) :=
  parse R (field R) (fun u m => m.addUnknowns [u]) m b

def internalSerialize (R : Runtime U) (m : Command U) : Bytes :=
  (if m.cliId ≠ 0 then R.writeUInt32 1 m.cliId else [])
    ++ (if m.cliSeq ≠ 0 then R.writeUInt32 2 m.cliSeq else [])
    ++ (if m.svrSeq ≠ 0 then R.writeUInt32 3 m.svrSeq else [])
    ++ m.commands.flatMap (R.writeString 4)
    ++ m.unknown.flatMap R.writeUnknown

/-- The size, and the message with its size cached. -/
def byteSizeLong (R : Runtime U) (m : Command U) : ℕ × Command U :=
  let total := 1 * m.commands.length + (m.commands.map R.stringSize).sum
  let total := total + if m.cliId ≠ 0 then 1 + R.uint32Size m.cliId else 0
  let total := total + if m.cliSeq ≠ 0 then 1 + R.uint32Size m.cliSeq else 0
  let total := total + if m.svrSeq ≠ 0 then 1 + R.uint32Size m.svrSeq else 0
  let total := total + (m.unknown.map R.unknownSize).sum
  (total, { m with cachedSize := toCachedSize total })

def mergeFrom (m src : Command U) : Command U :=
  let m := (m.addUnknowns src.unknown).addCommands src.commands
  let m := if src.cliId ≠ 0 then m.setCliId src.cliId else m
  let m := if src.cliSeq ≠ 0 then m.setCliSeq src.cliSeq else m
  if src.svrSeq ≠ 0 then m.setSvrSeq src.svrSeq else m

end Command

/-! ## ConsensusObj -/

structure ConsensusObj (U : Type*) where
  proId : UInt32 := 0
  proSeq : UInt32 := 0
  svrSeq : UInt32 := 0
  isNull : Bool := false
  cliIds : List UInt32 := []
  cliSeqs : List UInt32 := []
  commands : List Bytes := []
  unknown : List U := []
  cliIdsCachedByteSize : ℤ := 0
  cliSeqsCachedByteSize : ℤ := 0
  cachedSize : ℤ := 0

namespace ConsensusObj

def setProId (v : UInt32) (m : ConsensusObj U) : ConsensusObj U := { m with proId := v }

def setProSeq (v : UInt32) (m : ConsensusObj U) : ConsensusObj U := { m with proSeq := v }

def setSvrSeq (v : UInt32) (m : ConsensusObj U) : ConsensusObj U := { m with svrSeq := v }

def setIsNull (v : Bool) (m : ConsensusObj U) : ConsensusObj U := { m with isNull := v }

def addCliIds (vs : List UInt32) (m : ConsensusObj U) : ConsensusObj U :=
  { m with cliIds := m.cliIds ++ vs }

def addCliSeqs (vs : List UInt32) (m : ConsensusObj U) : ConsensusObj U :=
  { m with cliSeqs := m.cliSeqs ++ vs }

def addCommands (ss : List Bytes) (m : ConsensusObj U) : ConsensusObj U :=
  { m with commands := m.commands ++ ss }

def addUnknowns (us : List U) (m : ConsensusObj U) : ConsensusObj U :=
  { m with unknown := m.unknown ++ us }

def clear (m : ConsensusObj U) : ConsensusObj U where
  cliIdsCachedByteSize := m.cliIdsCachedByteSize
  cliSeqsCachedByteSize := m.cliSeqsCachedByteSize
  cachedSize := m.cachedSize

/-- The `switch` of `_InternalParse`; a repeated number may come packed or not. -/
def field (R : Runtime U) (tag : UInt32) (p : Bytes) (m : ConsensusObj U) :
    Field (ConsensusObj U) :=
  match (tag >>> 3).toNat with
  | 1 => if tag.toUInt8 = 8 then .read (R.readVarint32 p) fun v => m.setProId v else .unusual
  | 2 => if tag.toUInt8 = 16 then .read (R.readVarint32 p) fun v => m.setProSeq v else .unusual
  | 3 => if tag.toUInt8 = 24 then .read (R.readVarint32 p) fun v => m.setSvrSeq v else .unusual
  | 4 => if tag.toUInt8 = 32 then .read (R.readVarint64 p) fun v => m.setIsNull (v ≠ 0)
    else .unusual
  | 5 => if tag.toUInt8 = 42 then .read (R.readPacked p) fun vs => m.addCliIds vs
    else if tag.toUInt8 = 40 then .read (R.readVarint32 p) fun v => m.addCliIds [v]
    else .unusual
  | 6 => if tag.toUInt8 = 50 then .read (R.readPacked p) fun vs => m.addCliSeqs vs
    else if tag.toUInt8 = 48 then .read (R.readVarint32 p) fun v => m.addCliSeqs [v]
    else .unusual
  | 7 => if tag.toUInt8 = 58 then readStrings R 58 (fun s m => m.addCommands [s]) p m
    else .unusual
  | _ => .unusual

def internalParse (R : Runtime U) (m : ConsensusObj U) (b : Bytes) :
    Option (ConsensusObj U × Option UInt32) :=
  parse R (field R) (fun u m => m.addUnknowns [u]) m b

/-- The packed fields have the sizes that are cached. -/
def internalSerialize (R : Runtime U) (m : ConsensusObj U) : Bytes :=
  (if m.proId ≠ 0 then R.writeUInt32 1 m.proId else [])
    ++ (if m.proSeq ≠ 0 then R.writeUInt32 2 m.proSeq else [])
    ++ (if m.svrSeq ≠ 0 then R.writeUInt32 3 m.svrSeq else [])
    ++ (if m.isNull then R.writeBool 4 m.isNull else [])
    ++ (if 0 < m.cliIdsCachedByteSize then
        R.writeUInt32Packed 5 m.cliIds m.cliIdsCachedByteSize else [])
    ++ (if 0 < m.cliSeqsCachedByteSize then
        R.writeUInt32Packed 6 m.cliSeqs m.cliSeqsCachedByteSize else [])
    ++ m.commands.flatMap (R.writeString 7)
    ++ m.unknown.flatMap R.writeUnknown

/-- The size of a packed field with its tag and its length. -/
def packedSize (R : Runtime U) (vs : List UInt32) : ℕ :=
  let dataSize := R.uint32Sizes vs
  (if 0 < dataSize then 1 + R.int32Size (toCachedSize dataSize) else 0) + dataSize

/-- The size, and the message with its sizes cached. -/
def byteSizeLong (R : Runtime U) (m : ConsensusObj U) : ℕ × ConsensusObj U :=
  let total := packedSize R m.cliIds + packedSize R m.cliSeqs
  let total := total + 1 * m.commands.length + (m.commands.map R.stringSize).sum
  let total := total + if m.proId ≠ 0 then 1 + R.uint32Size m.proId else 0
  let total := total + if m.proSeq ≠ 0 then 1 + R.uint32Size m.proSeq else 0
  let total := total + if m.svrSeq ≠ 0 then 1 + R.uint32Size m.svrSeq else 0
  let total := total + if m.isNull then 1 + 1 else 0
  let total := total + (m.unknown.map R.unknownSize).sum
  (total,
    { m with
      cliIdsCachedByteSize := toCachedSize (R.uint32Sizes m.cliIds)
      cliSeqsCachedByteSize := toCachedSize (R.uint32Sizes m.cliSeqs)
      cachedSize := toCachedSize total })

def mergeFrom (m src : ConsensusObj U) : ConsensusObj U :=
  let m := (((m.addUnknowns src.unknown).addCliIds src.cliIds).addCliSeqs src.cliSeqs).addCommands
    src.commands
  let m := if src.proId ≠ 0 then m.setProId src.proId else m
  let m := if src.proSeq ≠ 0 then m.setProSeq src.proSeq else m
  let m := if src.svrSeq ≠ 0 then m.setSvrSeq src.svrSeq else m
  if src.isNull then m.setIsNull src.isNull else m

end ConsensusObj

/-! ## Msg -/

/-- `type` is a `MsgType`, which may have any value of its underlying `int`. -/
structure Msg (U : Type*) where
  type : Int32 := 0
  phase : UInt32 := 0
  value : UInt32 := 0
  obj : Option (ConsensusObj U) := none
  unknown : List U := []
  cachedSize : ℤ := 0

namespace Msg

def setType (v : Int32) (m : Msg U) : Msg U := { m with type := v }

def setPhase (v : UInt32) (m : Msg U) : Msg U := { m with phase := v }

def setValue (v : UInt32) (m : Msg U) : Msg U := { m with value := v }

def setObj (o : ConsensusObj U) (m : Msg U) : Msg U := { m with obj := some o }

def addUnknowns (us : List U) (m : Msg U) : Msg U := { m with unknown := m.unknown ++ us }

def clear (m : Msg U) : Msg U := { cachedSize := m.cachedSize }

/-- `_internal_mutable_obj`. -/
def mutableObj (m : Msg U) : ConsensusObj U := m.obj.getD {}

/-- The `switch` of `_InternalParse`. The parse of `obj` has to end where its bytes do. -/
def field (R : Runtime U) (tag : UInt32) (p : Bytes) (m : Msg U) : Field (Msg U) :=
  match (tag >>> 3).toNat with
  | 1 => if tag.toUInt8 = 8 then .read (R.readVarint64 p) fun v => m.setType v.toUInt32.toInt32
    else .unusual
  | 2 => if tag.toUInt8 = 16 then .read (R.readVarint32 p) fun v => m.setPhase v else .unusual
  | 3 => if tag.toUInt8 = 24 then .read (R.readVarint32 p) fun v => m.setValue v else .unusual
  | 4 => if tag.toUInt8 = 34 then
      match R.readMessage p with
      | none => .fail
      | some (b, p) =>
        match m.mutableObj.internalParse R b with
        | some (o, none) => .done (m.setObj o) p
        | _ => .fail
    else .unusual
  | _ => .unusual

def internalParse (R : Runtime U) (m : Msg U) (b : Bytes) : Option (Msg U × Option UInt32) :=
  parse R (field R) (fun u m => m.addUnknowns [u]) m b

def internalSerialize (R : Runtime U) (m : Msg U) : Bytes :=
  (if m.type ≠ 0 then R.writeEnum 1 m.type else [])
    ++ (if m.phase ≠ 0 then R.writeUInt32 2 m.phase else [])
    ++ (if m.value ≠ 0 then R.writeUInt32 3 m.value else [])
    ++ (match m.obj with
      | some o => R.internalWriteMessage 4 o.cachedSize (o.internalSerialize R)
      | none => [])
    ++ m.unknown.flatMap R.writeUnknown

/-- The size, and the message with its sizes cached, those of `obj` too. -/
def byteSizeLong (R : Runtime U) (m : Msg U) : ℕ × Msg U :=
  let obj := m.obj.map (ConsensusObj.byteSizeLong R)
  let total := match obj with
    | some (size, _) => 1 + R.lengthDelimitedSize size
    | none => 0
  let total := total + if m.type ≠ 0 then 1 + R.enumSize m.type else 0
  let total := total + if m.phase ≠ 0 then 1 + R.uint32Size m.phase else 0
  let total := total + if m.value ≠ 0 then 1 + R.uint32Size m.value else 0
  let total := total + (m.unknown.map R.unknownSize).sum
  (total, { m with obj := obj.map Prod.snd, cachedSize := toCachedSize total })

def mergeFrom (m src : Msg U) : Msg U :=
  let m := m.addUnknowns src.unknown
  let m := match src.obj with
    | some o => m.setObj (m.mutableObj.mergeFrom o)
    | none => m
  let m := if src.type ≠ 0 then m.setType src.type else m
  let m := if src.phase ≠ 0 then m.setPhase src.phase else m
  if src.value ≠ 0 then m.setValue src.value else m

end Msg

/-! ## Strings of bytes and messages -/

/-- `SerializeAsString`: the sizes are computed first. -/
def Command.serializeAsString (R : Runtime U) (m : Command U) : Bytes :=
  (m.byteSizeLong R).2.internalSerialize R

@[inherit_doc Command.serializeAsString]
def ConsensusObj.serializeAsString (R : Runtime U) (m : ConsensusObj U) : Bytes :=
  (m.byteSizeLong R).2.internalSerialize R

@[inherit_doc Command.serializeAsString]
def Msg.serializeAsString (R : Runtime U) (m : Msg U) : Bytes :=
  (m.byteSizeLong R).2.internalSerialize R

/-- The parse ended at the end of the input. -/
def atLimit {M : Type*} : Option (M × Option UInt32) → Option M
  | some (m, none) => some m
  | _ => none

/-- `ParseFromString`. -/
def Command.parseFromString (R : Runtime U) (m : Command U) (b : Bytes) : Option (Command U) :=
  atLimit (m.clear.internalParse R b)

@[inherit_doc Command.parseFromString]
def ConsensusObj.parseFromString (R : Runtime U) (m : ConsensusObj U) (b : Bytes) :
    Option (ConsensusObj U) :=
  atLimit (m.clear.internalParse R b)

@[inherit_doc Command.parseFromString]
def Msg.parseFromString (R : Runtime U) (m : Msg U) (b : Bytes) : Option (Msg U) :=
  atLimit (m.clear.internalParse R b)

end Rome.Message

import Wireform.Format.Basic

/-!
The formats that every conversation has. Twelve of them serve one class of value each. The other
three serve kinds of registered types: they put the number of the type in front, by which a reader
finds the type again, and leave the rest to that type.
-/

namespace Wireform

inductive Builtin where
  | byte
  | short
  | char
  | int
  | float
  | long
  | double
  | text
  | bytes
  | enumeration
  | bool
  | identifier
  | message
  | packet
  | structured
  deriving DecidableEq, Repr

namespace Builtin

def all : List Builtin :=
  [byte, short, char, int, float, long, double, text, bytes, enumeration, bool, identifier,
    message, packet, structured]

def id : Builtin → TypeId
  | byte => TypeId.ofInt (-1)
  | short => TypeId.ofInt (-2)
  | char => TypeId.ofInt (-3)
  | int => TypeId.ofInt (-4)
  | float => TypeId.ofInt (-5)
  | long => TypeId.ofInt (-6)
  | double => TypeId.ofInt (-7)
  | text => TypeId.ofInt (-8)
  | bytes => TypeId.ofInt (-9)
  | enumeration => TypeId.ofInt (-10)
  | bool => TypeId.ofInt (-12)
  | identifier => TypeId.ofInt (-101)
  | message => TypeId.ofInt (-102)
  | packet => TypeId.ofInt (-103)
  | structured => TypeId.ofInt (-104)

/-- The one class that a format serves, if it is one. -/
def class? : Builtin → Option Class
  | byte => some .byte
  | short => some .short
  | char => some .char
  | int => some .int
  | float => some .float
  | long => some .long
  | double => some .double
  | text => some .text
  | bytes => some .bytes
  | bool => some .bool
  | identifier => some .identifier
  | message => some .message
  | enumeration | packet | structured => none

/-- The name of the values that a format of one class reads. -/
def valueName : Builtin → String
  | byte => "i8"
  | short => "i16"
  | char => "char"
  | int => "i32"
  | float => "f32"
  | long => "i64"
  | double => "f64"
  | text => "String"
  | bytes => "Vec<u8>"
  | bool => "bool"
  | identifier => "Identifier"
  | message => "Message"
  | enumeration => "enumeration"
  | packet => "packet"
  | structured => "marshallable"

/-- The greatest number of bytes that a length word can say. -/
def maxBlock : Nat := 2147483647

def entryOf (types : TypeTable) (v : Value) : Except Failure TypeEntry :=
  match types.ofClass? v.classOf with
  | some entry => .ok entry
  | none => .error (Fault.unregistered v.classOf.name)

def writeConstant (types : TypeTable) (v : Value) : Script := do
  match (← Plan.lift (entryOf types v)).kind with
  | .enumeration constants =>
    Script.put (.typeId v)
    Script.put (.text (← Plan.lift (constants.name v)))
  | _ => .refuse (Fault.wrongKind v.classOf.name "an enumeration")

def writePacket (types : TypeTable) (v : Value) : Script := do
  match (← Plan.lift (entryOf types v)).kind with
  | .packet _ body =>
    Script.put (.typeId v)
    Script.put (.text (← Plan.lift (body.name v)))
    body.write v
  | _ => .refuse (Fault.wrongKind v.classOf.name "a packet")

def writeStructured (types : TypeTable) (v : Value) : Script := do
  match (← Plan.lift (entryOf types v)).kind with
  | .structured _ body =>
    Script.put (.typeId v)
    body.write v
  | _ => .refuse (Fault.wrongKind v.classOf.name "a marshallable")

def writeBlock (data : List UInt8) : Script := do
  if maxBlock < data.length then .refuse (Fault.longBlock data.length)
  Script.put (.int (Int32.ofNat data.length))
  Script.put (.bytes data)

def write (types : TypeTable) : Builtin → Value → Script
  | byte, .byte v => Script.put (.byte v)
  | short, .short v => Script.put (.short v)
  | char, .char v => Script.put (.char v)
  | int, .int v => Script.put (.int v)
  | float, .float v => Script.put (.float v)
  | long, .long v => Script.put (.long v)
  | double, .double v => Script.put (.double v)
  | text, .text v => Script.put (.text v)
  | bytes, .bytes v => writeBlock v
  | bool, .bool v => Script.put (.bool v)
  | identifier, .identifier v => Script.put (.bytes v.toBytes)
  | message, .message id body => do
    Script.put (.object "messageId" (.identifier id))
    Script.put (.object "body" body)
  | enumeration, v => writeConstant types v
  | packet, v => writePacket types v
  | structured, v => writeStructured types v
  | byte, v => .refuse (v.mismatch .byte)
  | short, v => .refuse (v.mismatch .short)
  | char, v => .refuse (v.mismatch .char)
  | int, v => .refuse (v.mismatch .int)
  | float, v => .refuse (v.mismatch .float)
  | long, v => .refuse (v.mismatch .long)
  | double, v => .refuse (v.mismatch .double)
  | text, v => .refuse (v.mismatch .text)
  | bytes, v => .refuse (v.mismatch .bytes)
  | bool, v => .refuse (v.mismatch .bool)
  | identifier, v => .refuse (v.mismatch .identifier)
  | message, v => .refuse (v.mismatch .message)

def notOfKind (entry : TypeEntry) (expected : String) : Failure :=
  Fault.notOfKind entry.name (TypeId.shown entry.id) expected

def readConstant (types : TypeTable) : Reading Value := do
  let entry ← types.readEntry
  match entry.kind with
  | .enumeration constants =>
    let name ← Reading.text
    match constants.ofName name with
    | some v => return v
    | none => .refuse (Fault.unknownConstant entry.name name)
  | _ => .refuse (notOfKind entry "an enumeration")

def readPacket (types : TypeTable) : Reading Value := do
  let entry ← types.readEntry
  match entry.kind with
  | .packet _ body => body.read (← Reading.text)
  | _ => .refuse (notOfKind entry "a packet")

def readStructured (types : TypeTable) : Reading Value := do
  let entry ← types.readEntry
  match entry.kind with
  | .structured _ body => body.read
  | _ => .refuse (notOfKind entry "a marshallable")

def readBlock : Reading (List UInt8) := do
  let length := (← Reading.int).toInt
  if length < 0 then .refuse (Fault.negativeBlock length)
  Reading.block length.toNat

def readMessage : Reading Value := do
  match ← Reading.objectAs .identifier "messageId" with
  | .identifier id => return .message id (← Reading.object "body")
  | v => .refuse (v.mismatch .identifier)

def read (types : TypeTable) : Builtin → Reading Value
  | byte => Value.byte <$> Reading.byte
  | short => Value.short <$> Reading.short
  | char => Value.char <$> Reading.char
  | int => Value.int <$> Reading.int
  | float => Value.float <$> Reading.float
  | long => Value.long <$> Reading.long
  | double => Value.double <$> Reading.double
  | text => Value.text <$> Reading.text
  | bytes => Value.bytes <$> readBlock
  | bool => Value.bool <$> Reading.bool
  | identifier => (fun b => Value.identifier (Identifier.ofBytes b)) <$>
      Reading.bytes Identifier.size
  | message => readMessage
  | enumeration => readConstant types
  | packet => readPacket types
  | structured => readStructured types

/-- A registered type goes by its own name. -/
def describe (types : TypeTable) : Builtin → Reading (Option String)
  | enumeration | packet | structured => do return some (← types.readEntry).name
  | b => return some b.valueName

def format (b : Builtin) : Format where
  id := some b.id
  write types _ v := b.write types v
  read types := b.read types
  describe types := b.describe types

end Builtin

end Wireform

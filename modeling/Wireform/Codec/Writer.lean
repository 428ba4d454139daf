import Wireform.Codec.Workspace
import Wireform.Text.Quoted

/-!
Writing. Fields go to the buffer one by one; an object finds its format by the dialect, writes the
number of the format and then the fields that the format's script asks for. Objects inside objects
use up levels, of which there are as many as the workspace allows, so writing always ends.
-/

namespace Wireform.Writer

/-- A character takes one code unit; those that need two are refused. -/
def writeChar (c : Char) : Action Buffer Unit :=
  if c.toNat < 0x10000 then Buffer.writeUnit (UInt16.ofNat c.toNat)
  else Action.fail (Fault.outsidePlane (Text.quoted c))

def writeTypeId (d : Dialect) (v : Value) : Action Buffer Unit :=
  match (d.types.ofClass? v.classOf).bind (·.id) with
  | some id => Buffer.writeShort id.raw
  | none => Action.fail (Fault.withoutTypeId v.classOf.name)

def writeField (d : Dialect) (object : String → Value → Action Bench Unit) :
    Field → Action Bench Unit
  | .bool v => Bench.onBuffer (Buffer.writeBool v)
  | .flags v => Bench.onBuffer (Compact.Flags.write v)
  | .byte v => Bench.onBuffer (Buffer.writeByte v)
  | .octet v => Bench.onBuffer (Buffer.writeOctet v)
  | .bytes v => Bench.onBuffer (Buffer.writeBytes v)
  | .short v => Bench.onBuffer (Buffer.writeShort v)
  | .char v => Bench.onBuffer (writeChar v)
  | .int v => Bench.onBuffer (Buffer.writeInt v)
  | .compactInt v => Bench.onBuffer (Compact.Int32.write v)
  | .long v => Bench.onBuffer (Buffer.writeLong v)
  | .compactLong v => Bench.onBuffer (Compact.Int64.write v)
  | .float bits => Bench.onBuffer (Buffer.writeFloat bits)
  | .double bits => Bench.onBuffer (Buffer.writeDouble bits)
  | .text v => Bench.onBuffer (Text.write v)
  | .typeId v => Bench.onBuffer (writeTypeId d v)
  | .object name v => object name v
  | .nullable _ none => Bench.onBuffer (Buffer.writeBool false)
  | .nullable name (some v) => do
    Bench.onBuffer (Buffer.writeBool true)
    object name v

/-- Writes the number of a value's format and then its body, given how objects inside it are
written. -/
def writeBody (d : Dialect) (object : String → Value → Action Bench Unit) (name : String)
    (v : Value) : Action Bench Unit := do
  let route ← Bench.onMemo (d.dispatch v)
  Bench.onBuffer (Buffer.writeShort route.id.raw)
  (route.format.write d.types name v).run (writeField d object)

def frame (name : String) (v : Value) : String :=
  s!"[SERIALIZE => {name} (type={v.classOf.name})]"

/-- Writes an object, of which at most `levels` may lie inside each other. -/
def writeObject (d : Dialect) : (levels : Nat) → (name : String) → Value → Action Bench Unit
  | 0, _, _ => fun s => (.error (Fault.nestingLimit s.work.maxDepth), s)
  | levels + 1, name, v => do
    Bench.enter
    Bench.push (frame name v)
    Bench.inside (writeBody d (writeObject d levels) name v)

def object (d : Dialect) (name : String) (v : Value) : Action Bench Unit := fun s =>
  writeObject d s.work.levels name v s

def field (d : Dialect) (f : Field) : Action Bench Unit := fun s =>
  writeField d (writeObject d s.work.levels) f s

/-- Writes the number of a format and a body without opening an object for them. -/
def body (d : Dialect) (name : String) (v : Value) : Action Bench Unit := fun s =>
  writeBody d (writeObject d s.work.levels) name v s

end Wireform.Writer

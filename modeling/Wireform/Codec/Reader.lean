import Wireform.Codec.Workspace

/-!
Reading undoes writing: the number of a format says how the body goes on. When frames are kept, a
reader looks ahead for the name of what comes and then starts again from the same place. Objects
inside objects use up levels, of which there are as many as the workspace allows, so reading always
ends, whatever the bytes are.
-/

namespace Wireform.Reader

/-- A code unit that is one half of a pair is no character. -/
def readChar : Action Buffer Char := do
  let unit ← Buffer.readUnit
  if h : unit.toNat.isValidChar then return ⟨unit.toUInt32, by simpa [UInt32.isValidChar] using h⟩
  else Action.fail (Fault.loneSurrogate (Text.hexNumeral 4 unit.toNat))

/-- Reads a run of bytes whose declared length may exceed what is there. -/
def readBlock (n : Nat) : Action Buffer (List UInt8) := do
  let b ← Action.get
  if b.readableBytes < n then Action.fail (Fault.shortBlock n b.readableBytes)
  Buffer.reserve n
  Buffer.readBytes n

def readTypeId (d : Dialect) : Action Buffer TypeId := do
  let id : TypeId := ⟨← Buffer.readShort⟩
  match d.types.byId? id with
  | some _ => return id
  | none => Action.fail (Fault.unknownTypeId id.toInt)

/-- Answers one request, given how objects are read. -/
def answer (d : Dialect) (object : String → Action Bench Value) :
    (r : Request) → Action Bench r.Answer
  | .bool => Bench.onBuffer Buffer.readBool
  | .flags => Bench.onBuffer Compact.Flags.read
  | .byte => Bench.onBuffer Buffer.readByte
  | .octet => Bench.onBuffer Buffer.readOctet
  | .bytes n => Bench.onBuffer (Buffer.readBytes n)
  | .block n => Bench.onBuffer (readBlock n)
  | .short => Bench.onBuffer Buffer.readShort
  | .char => Bench.onBuffer readChar
  | .int => Bench.onBuffer Buffer.readInt
  | .compactInt => Bench.onBuffer Compact.Int32.read
  | .long => Bench.onBuffer Buffer.readLong
  | .compactLong => Bench.onBuffer Compact.Int64.read
  | .float => Bench.onBuffer Buffer.readFloat
  | .double => Bench.onBuffer Buffer.readDouble
  | .text => Bench.onScratch Text.read
  | .typeId => Bench.onBuffer (readTypeId d)
  | .object name => object name
  | .objectAs c name => object name >>= fun v => Action.lift (v.expect c)
  | .nullable name => do
    if ← Bench.onBuffer Buffer.readBool then
      let v ← object name
      return some v
    else return none

def readBody (d : Dialect) (object : String → Action Bench Value) : Action Bench Value := do
  let id : TypeId := ⟨← Bench.onBuffer Buffer.readShort⟩
  match d.route? id with
  | some route => (route.format.read d.types).run (answer d object)
  | none => Action.fail (Fault.unknownFormat id.toInt)

/-- What the format that comes next calls its value, read from here on. -/
def describeNext (d : Dialect) (object : String → Action Bench Value) :
    Action Bench (Option String) := do
  let id : TypeId := ⟨← Bench.onBuffer Buffer.readShort⟩
  match d.route? id with
  | some route => (route.format.describe d.types).run (answer d object)
  | none => return none

/-- What comes next, if that can be told, with the reader back where it was. -/
def peekName (d : Dialect) (object : String → Action Bench Value) :
    Action Bench (Option String) := do
  let start := (← Action.get).buffer.reader
  let name := (← Action.attempt (describeNext d object)).toOption.join
  match ← Action.attempt (Bench.onBuffer (Buffer.setReader start)) with
  | .ok _ => return name
  | .error _ => return none

def frame (name : String) (type : Option String) : String :=
  let type := type.getD "unknown"
  s!"[DESERIALIZE => {name} (type={type})]"

/-- Adds a frame for the object that comes next, if frames are kept. -/
def pushFrame (d : Dialect) (object : String → Action Bench Value) (name : String) :
    Action Bench Unit := do
  if (← Action.get).work.tracing then
    Bench.push (frame name (← peekName d object))

/-- Reads an object, of which at most `levels` may lie inside each other. -/
def readObject (d : Dialect) : (levels : Nat) → (name : String) → Action Bench Value
  | 0, _ => fun s => (.error (Fault.nestingLimit s.work.maxDepth), s)
  | levels + 1, name => do
    Bench.enter
    pushFrame d (readObject d levels) name
    Bench.inside (readBody d (readObject d levels))

def object (d : Dialect) (name : String) : Action Bench Value := fun s =>
  readObject d s.work.levels name s

def request (d : Dialect) (r : Request) : Action Bench r.Answer := fun s =>
  answer d (readObject d s.work.levels) r s

/-- Reads the number of a format and a body without opening an object for them. -/
def body (d : Dialect) : Action Bench Value := fun s =>
  readBody d (readObject d s.work.levels) s

def nextName (d : Dialect) : Action Bench (Option String) := fun s =>
  peekName d (readObject d s.work.levels) s

end Wireform.Reader

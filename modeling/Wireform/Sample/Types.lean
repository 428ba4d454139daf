import Wireform.Format.Packet

/-!
The types of a sample application. Their values are records; each type has a name, most have a
number, and those that have a body say how it is written and read. A type may be declared with
what it has or as a plain one, and a packet may be made from its name or without it.
-/

namespace Wireform.Sample

def classOf (type : String) : Class := .record ("driver::types::" ++ type)

def make (type : String) (fields : List (String × Value)) : Value :=
  .record ("driver::types::" ++ type) fields

def field? (key : String) : Value → Option Value
  | .record _ fields => Entries.find? key fields
  | _ => none

/-! ### Bodies -/

def pointBody : Body where
  write v := do
    match field? "x" v, field? "y" v with
    | some (.int x), some (.long y) =>
      Script.put (.compactInt x)
      Script.put (.compactLong y)
    | _, _ => .refuse (v.mismatch (classOf "Point"))
  read := do
    let x ← Reading.compactInt
    let y ← Reading.compactLong
    return make "Point" [("x", .int x), ("y", .long y)]

def loginBody : PacketBody where
  name v := match field? "name" v with
    | some (.text name) => .ok name
    | _ => .error (v.mismatch (classOf "Login"))
  write v := do
    match field? "user" v, field? "flags" v with
    | some (.text user), some (.flags flags) =>
      Script.put (.text user)
      Script.put (.flags (some flags))
    | _, _ => .refuse (v.mismatch (classOf "Login"))
  read name := do
    let user ← Reading.text
    let flags ← Reading.flags
    return make "Login"
      [("name", .text name), ("user", .text user), ("flags", .flags (flags.getD []))]

/-- All packets of this type have one name. -/
def pingBody : PacketBody where
  name _ := .ok "ping"
  write v := do
    match field? "sequence" v with
    | some (.short sequence) => Script.put (.short sequence)
    | _ => .refuse (v.mismatch (classOf "Ping"))
  read _ := do
    let sequence ← Reading.short
    return make "Ping" [("sequence", .short sequence)]

/-- The name of a note is not part of its body, so one that is made without a name stays without
its own. -/
def noteBody (construction : Construction) : PacketBody where
  name v := match field? "name" v with
    | some (.text name) => .ok name
    | _ => .error (v.mismatch (classOf "Note"))
  write v := do
    match field? "text" v with
    | some (.text text) => Script.put (.text text)
    | _ => .refuse (v.mismatch (classOf "Note"))
  read name := do
    let text ← Reading.text
    let name := match construction with
      | .named => name
      | .byDefault => "untitled"
    return make "Note" [("name", .text name), ("text", .text text)]

/-- A branch that is absent has no field. -/
def treeBody : Body where
  write v := do
    match field? "value" v with
    | some (.int value) =>
      Script.put (.compactInt value)
      Script.put (.nullable "left" (field? "left" v))
      Script.put (.nullable "right" (field? "right" v))
    | _ => .refuse (v.mismatch (classOf "Tree"))
  read := do
    let value ← Reading.compactInt
    let left ← Reading.nullable "value"
    let right ← Reading.nullable "right"
    return make "Tree" ([("value", .int value)] ++ left.toList.map ("left", ·) ++
      right.toList.map ("right", ·))

def volatileBody : Body where
  write v := do
    match field? "tag" v with
    | some (.text tag) => Script.put (.text tag)
    | _ => .refuse (v.mismatch (classOf "Volatile"))
  read := do
    let tag ← Reading.text
    return make "Volatile" [("tag", .text tag)]

/-- An envelope writes what it holds as a word and reads it as a signed number of the same bits. -/
def envelopeBody : Body where
  write v := do
    match field? "inner" v with
    | some (.word inner) => Script.put (.object "inner" (.word inner))
    | _ => .refuse (v.mismatch (classOf "Envelope"))
  read := do
    match ← Reading.objectAs .long "inner" with
    | .long inner => return make "Envelope" [("inner", .word inner.toUInt64)]
    | v => .refuse (v.mismatch .long)

def constants (type : String) (names : List String) : Constants where
  name v := match field? "v" v with
    | some (.text name) => .ok name
    | _ => .error (v.mismatch (classOf type))
  ofName name := if name ∈ names then some (make type [("v", .text name)]) else none

/-! ### Declarations -/

/-- How a type is declared. -/
inductive Declaration where
  | plain
  | structured
  | enumeration
  | packet (construction : Construction)
  deriving DecidableEq, Repr

def typeIds : List (String × Option Int) :=
  [("Point", some 1), ("Level", some 2), ("Login", some 3), ("Ping", some 4),
    ("Celsius", some 5), ("Note", some 6), ("Tree", some 7), ("Volatile", some 8),
    ("Envelope", some 10), ("Twin", some 11), ("Clash", some 1), ("Untyped", none),
    ("Reserved", some (-7)), ("Zero", some 0), ("Edge", some 32767)]

/-- The name under which a type is registered. Twins go by the name of points. -/
def typeName (type : String) : String :=
  "demo::" ++ if type = "Twin" then "Point" else type

/-- What a declaration makes of a type, if the type has what it takes. -/
def kind? (type : String) : Declaration → Option Kind
  | .plain => some .plain
  | .structured => match type with
    | "Point" => some (.structured true pointBody)
    | "Tree" => some (.structured true treeBody)
    | "Envelope" => some (.structured true envelopeBody)
    | "Volatile" => some (.structured false volatileBody)
    | _ => none
  | .enumeration => match type with
    | "Level" => some (.enumeration (constants "Level" ["Low", "High"]))
    | "Twin" => some (.enumeration (constants "Twin" ["One", "Two"]))
    | _ => none
  | .packet construction => match type, construction with
    | "Login", .named => some (.packet .named loginBody)
    | "Ping", .byDefault => some (.packet .byDefault pingBody)
    | "Note", _ => some (.packet construction (noteBody construction))
    | _, _ => none

/-- The entry of a type under a declaration. The library's own packet can be declared too. -/
def entry? (declaration : Declaration) (type : String) : Option TypeEntry :=
  if type = "GenericPacket" then
    match declaration with
    | .plain => some { Packet.entry with kind := .plain }
    | .packet .named => some Packet.entry
    | _ => none
  else do
    let id ← typeIds.lookup type
    let kind ← kind? type declaration
    return { name := typeName type, valueClass := classOf type, id := id.map TypeId.ofInt, kind }

def declarations : List (Declaration × String) :=
  [(.structured, "Point"), (.enumeration, "Level"), (.packet .named, "Login"),
    (.packet .byDefault, "Ping"), (.plain, "Celsius"), (.packet .named, "Note"),
    (.structured, "Tree"), (.structured, "Volatile"), (.structured, "Envelope")]

def registry (list : List (Declaration × String)) : Registry :=
  (list.filterMap fun (d, type) => entry? d type).foldl Registry.declare {}

end Wireform.Sample

import Wireform.Plan

/-!
What is known about the types of objects. An entry gives a type its name, the class of its values,
its number if it has one, and the way its values are written and read. A registry holds what an
application has declared, by name; a table holds the types that a conversation uses, where no
number and no class stands twice.
-/

namespace Wireform

/-- Where the name of a packet comes from when it is read. -/
inductive Construction where
  /-- The packet is made from the name that was read. -/
  | named
  /-- The packet is made without it. -/
  | byDefault
  deriving DecidableEq, Repr

/-- How a value is written and read once its type is known. -/
structure Body where
  write : Value → Script
  read : Reading Value

/-- How a packet is written and read: it also has a name. -/
structure PacketBody where
  name : Value → Except Failure String
  write : Value → Script
  read : String → Reading Value

structure Constants where
  name : Value → Except Failure String
  ofName : String → Option Value

/-- The kinds of types. -/
inductive Kind where
  /-- A type that is known by name only. -/
  | plain
  /-- A type with a body. The choice of format for its values may be remembered or not. -/
  | structured (cacheable : Bool) (body : Body)
  | packet (construction : Construction) (body : PacketBody)
  | enumeration (constants : Constants)

namespace Kind

def text : Kind → String
  | plain => "Plain"
  | structured cacheable _ => s!"Marshallable \x7b cacheable: {cacheable} \x7d"
  | packet .named _ => "Packet \x7b construction: Named \x7d"
  | packet .byDefault _ => "Packet \x7b construction: Default \x7d"
  | enumeration _ => "Enumeration"

end Kind

def TypeId.shown : Option TypeId → String
  | some id => s!"Some(TypeId({id.toInt}))"
  | none => "None"

structure TypeEntry where
  name : String
  valueClass : Class
  id : Option TypeId
  kind : Kind

def TypeEntry.describe (e : TypeEntry) : String :=
  s!"TypeDescriptor \x7b name: \"{e.name}\", type_id: {TypeId.shown e.id}, " ++
    s!"kind: {e.kind.text} \x7d"

/-- Declared types, each name once. -/
structure Registry where
  entries : List TypeEntry := []

namespace Registry

def find? (r : Registry) (name : String) : Option TypeEntry :=
  r.entries.find? (·.name = name)

/-- Declares a type, instead of one that was declared under the same name. -/
def declare (r : Registry) (e : TypeEntry) : Registry :=
  ⟨r.entries.filter (·.name ≠ e.name) ++ [e]⟩

def size (r : Registry) : Nat := r.entries.length

end Registry

structure TypeTable where
  entries : List TypeEntry := []

namespace TypeTable

def byId? (t : TypeTable) (id : TypeId) : Option TypeEntry :=
  t.entries.find? (·.id = some id)

def ofClass? (t : TypeTable) (c : Class) : Option TypeEntry :=
  t.entries.find? (·.valueClass = c)

def size (t : TypeTable) : Nat := t.entries.length

def ascending (t : TypeTable) : List TypeEntry :=
  t.entries.mergeSort fun a b =>
    (a.id.map TypeId.toInt).getD 0 ≤ (b.id.map TypeId.toInt).getD 0

/-- Adds a type that has a number of its own and a class of its own. -/
def add (t : TypeTable) (e : TypeEntry) : Except Failure TypeTable :=
  match e.id with
  | none => .error (Fault.missingTypeId e.name)
  | some id =>
    match t.byId? id with
    | some other => .error (Fault.sharedTypeId id.toInt other.name e.name)
    | none =>
      if (t.ofClass? e.valueClass).isSome then .error (Fault.registeredTwice e.name)
      else .ok ⟨t.entries ++ [e]⟩

end TypeTable

end Wireform

import Wireform.Registry

/-!
A format writes and reads values of some kind, after its own number has been written or read. It
may look up types in the table of the conversation. It can also say what kind of value comes next
without reading the value to its end.
-/

namespace Wireform

structure Format where
  id : Option TypeId
  write : TypeTable → (field : String) → Value → Script
  read : TypeTable → Reading Value
  /-- What the value that comes next is called, if the format can tell. -/
  describe : TypeTable → Reading (Option String) := fun _ => return none

def TypeTable.readEntry (types : TypeTable) : Reading TypeEntry := do
  let id ← Reading.typeId
  match types.byId? id with
  | some entry => return entry
  | none => .refuse (Fault.unknownTypeId id.toInt)

end Wireform

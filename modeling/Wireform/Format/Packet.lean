import Wireform.Registry

/-!
The body of the library's own packet: the number of its entries, then each key and value. Entries
are written in the order of their keys and may be read in any order; of two entries with one key
the later counts.
-/

namespace Wireform.Packet

def typeName : String := "courier::GenericPacket"

def typeId : TypeId := TypeId.ofInt (-1000)

def maxEntries : Nat := 2147483647

def writeEntries : Entries → Script
  | [] => return ()
  | (key, value) :: rest => do
    Script.put (.text key)
    Script.put (.object key value)
    writeEntries rest

def write : Value → Script
  | .packet name entries => do
    if maxEntries < entries.length then .refuse (Fault.manyEntries name)
    Script.put (.int (Int32.ofNat entries.length))
    writeEntries entries
  | v => .refuse (v.mismatch .packet)

/-- Reads `count` entries into those already there. -/
def readEntries : (count : Nat) → Entries → Reading Entries
  | 0, entries => return entries
  | count + 1, entries => do
    let key ← Reading.text
    let value ← Reading.object key
    readEntries count (entries.insert key value)

def read (name : String) : Reading Value := do
  let count := (← Reading.int).toInt
  if count < 0 then .refuse (Fault.negativeEntries count name)
  return .packet name (← readEntries count.toNat [])

/-- The packet type, which every conversation knows. -/
def entry : TypeEntry where
  name := typeName
  valueClass := .packet
  id := some typeId
  kind := .packet .named {
    name := fun
      | .packet name _ => .ok name
      | v => .error (v.mismatch .packet)
    write
    read }

end Wireform.Packet

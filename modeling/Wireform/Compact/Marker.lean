import Wireform.Buffer.Basic

/-!
The byte in front of a compact number, which says how many bytes follow: 1 stands for the full
width of the number, and 2, 3 and 4 for one, two and three bytes.
-/

namespace Wireform.Compact.Marker

/-- The marker of a payload of one, two or three bytes, or of full width. -/
def encode (width : Nat) : UInt8 := if width ≤ 3 then UInt8.ofNat (width + 1) else 1

/-- The width that a marker announces, for numbers of `full` bytes. -/
def width? (full : Nat) (marker : UInt8) : Option Nat :=
  if marker = 1 then some full
  else if 2 ≤ marker ∧ marker ≤ 4 then some (marker.toNat - 1)
  else none

def read (format : String) (full : Nat) : Action Buffer Nat := do
  let marker ← Buffer.readOctet
  match width? full marker with
  | some width => return width
  | none =>
    Action.fail (Fault.malformed format s!"unknown format marker {marker.toNat}")

end Wireform.Compact.Marker

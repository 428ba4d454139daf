import Wireform.Buffer.Basic
import Wireform.Compact.Marker

/-!
Whole numbers of 32 bits in two to five bytes: a marker that gives the width, then the number in
sign and magnitude, where a negative number is kept as its complement. A number of full width is
two's complement. The width is the least that holds the number.
-/

namespace Wireform.Compact.Int32

/-- The least number of bytes that holds `v`. -/
def width (v : Int32) : Nat :=
  let n := v.toInt
  if -0x80 ≤ n ∧ n ≤ 0x7F then 1
  else if -0x8000 ≤ n ∧ n ≤ 0x7FFF then 2
  else if -0x800000 ≤ n ∧ n ≤ 0x7FFFFF then 3
  else 4

def encodedLength (v : Int32) : Nat := 1 + width v

/-- The sign bit of a payload of `width` bytes: half of the numbers are below it. -/
def signBit (width : Nat) : Nat := BigEndian.span width / 2

/-- What stands after the marker, as a number. -/
def payload (v : Int32) : Nat :=
  if width v = 4 then v.toUInt32.toNat
  else if v.toInt < 0 then (-v.toInt - 1).toNat + signBit (width v)
  else v.toInt.toNat

def encode (v : Int32) : List UInt8 :=
  Marker.encode (width v) :: BigEndian.encode (width v) (payload v)

/-- The number that a payload of `width` bytes stands for. -/
def ofPayload (width n : Nat) : Int32 :=
  if width = 4 then (UInt32.ofNat n).toInt32
  else if n < signBit width then Int32.ofInt n
  else Int32.ofInt (-(n - signBit width : Nat) - 1)

def write (v : Int32) : Action Buffer Unit := Buffer.writeBytes (encode v)

def read : Action Buffer Int32 := do
  let width ← Marker.read "compressed int32" 4
  return ofPayload width (BigEndian.decode (← Buffer.readBytes width))

end Wireform.Compact.Int32

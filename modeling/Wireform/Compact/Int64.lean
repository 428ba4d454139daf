import Wireform.Buffer.Basic
import Wireform.Compact.Marker

/-!
Whole numbers of 64 bits in two to nine bytes: a marker that gives the width, then two flags and a
magnitude. The magnitude is the smaller of the low 63 bits and their complement, and the flags say
which sign the number has and which of the two it was. So numbers near zero are short, on either
side of it, and so are numbers near the two ends of the range.
-/

namespace Wireform.Compact.Int64

/-- One more than the greatest value of the low 63 bits. -/
def modulus : Nat := BigEndian.span 8 / 2

structure Parts where
  sign : Bool
  inverted : Bool
  magnitude : Nat
  deriving DecidableEq, Repr

/-- Takes the low bits of a number or their complement, whichever is smaller. That is the one with
more leading zeros, since just one of them has the highest of the low bits. -/
def split (v : Int64) : Parts :=
  let raw := v.toUInt64.toNat
  let plain := raw % modulus
  let complement := modulus - 1 - plain
  let inverted := complement < plain
  { sign := modulus ≤ raw, inverted, magnitude := if inverted then complement else plain }

def join (p : Parts) : Int64 :=
  let low := if p.inverted then modulus - 1 - p.magnitude else p.magnitude
  (UInt64.ofNat (if p.sign then modulus + low else low)).toInt64

/-- The lower of the two flags in a payload of `width` bytes: a quarter of the numbers are below
it. -/
def flagUnit (width : Nat) : Nat := BigEndian.span width / 4

/-- The least number of bytes that holds a magnitude below its flags. -/
def width (magnitude : Nat) : Nat :=
  if magnitude < flagUnit 1 then 1
  else if magnitude < flagUnit 2 then 2
  else if magnitude < flagUnit 3 then 3
  else 8

def encodedLength (v : Int64) : Nat := 1 + width (split v).magnitude

/-- Flags and magnitude as one number of `width` bytes. -/
def payload (width : Nat) (p : Parts) : Nat :=
  (2 * p.sign.toNat + p.inverted.toNat) * flagUnit width + p.magnitude

def ofPayload (width n : Nat) : Parts :=
  let flags := n / flagUnit width
  { sign := flags / 2 % 2 == 1, inverted := flags % 2 == 1, magnitude := n % flagUnit width }

def encode (v : Int64) : List UInt8 :=
  let p := split v
  let w := width p.magnitude
  Marker.encode w :: BigEndian.encode w (payload w p)

def write (v : Int64) : Action Buffer Unit := Buffer.writeBytes (encode v)

def read : Action Buffer Int64 := do
  let width ← Marker.read "compressed int64" 8
  return join (ofPayload width (BigEndian.decode (← Buffer.readBytes width)))

end Wireform.Compact.Int64

/-!
Numbers as digits of a given base, padded to a width: the way in which byte values, code units and
identifiers appear in messages.
-/

namespace Wireform.Text

/-- The digits of `n` in base `base`, with zeros in front up to `width` digits. -/
def digits (base width n : Nat) : String :=
  let shown := Nat.toDigits base n
  String.ofList (List.replicate (width - shown.length) '0' ++ shown)

def hexNumeral (width n : Nat) : String := "0x" ++ digits 16 width n

def binaryNumeral (width n : Nat) : String := "0b" ++ digits 2 width n

def hexBytes (bytes : List UInt8) : String :=
  String.join (bytes.map fun b => digits 16 2 b.toNat)

end Wireform.Text

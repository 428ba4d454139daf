import Wireform.BigEndian
import Wireform.Text.Numeral

/-!
Identifiers of 128 bits, which stand for themselves: they are compared as numbers, travel as
sixteen bytes, and are shown in five groups of digits.
-/

namespace Wireform

structure Identifier where
  bits : BitVec 128
  deriving DecidableEq, Repr

namespace Identifier

def ofNat (n : Nat) : Identifier := ⟨BitVec.ofNat 128 n⟩

def toNat (id : Identifier) : Nat := id.bits.toNat

def size : Nat := 16

def toBytes (id : Identifier) : List UInt8 := BigEndian.encode size id.toNat

def ofBytes (bytes : List UInt8) : Identifier := ofNat (BigEndian.decode bytes)

def zero : Identifier := ofNat 0

def compare (a b : Identifier) : Ordering := Ord.compare a.toNat b.toNat

/-- Thirty-two digits in groups of eight, four, four, four and twelve. -/
def text (id : Identifier) : String :=
  let digits := (Text.digits 16 32 id.toNat).toList
  let group (start length : Nat) := String.ofList ((digits.drop start).take length)
  String.intercalate "-" [group 0 8, group 8 4, group 12 4, group 16 4, group 20 12]

def describe (id : Identifier) : String := s!"Identifier({id.text})"

theorem ofBytes_toBytes (id : Identifier) : ofBytes id.toBytes = id := by
  have h : id.bits.toNat % BigEndian.span 16 = id.bits.toNat := Nat.mod_eq_of_lt id.bits.isLt
  simp only [ofBytes, toBytes, size, BigEndian.decode_encode, toNat, ofNat, h, BitVec.ofNat_toNat,
    BitVec.setWidth_eq]

theorem toBytes_ofBytes {data : List UInt8} (h : data.length = size) :
    (ofBytes data).toBytes = data := by
  have hlt : BigEndian.decode data < 2 ^ 128 := by
    have := BigEndian.decode_lt data
    rwa [h] at this
  rw [ofBytes, ofNat, toBytes, toNat, BitVec.toNat_ofNat, Nat.mod_eq_of_lt hlt, ← h]
  exact BigEndian.encode_decode data

end Identifier

end Wireform

/-!
Lengths are said by signed words, of which the writers use only the half that
is not negative. On that half a word, the number that it stands for and its
bits determine each other.
-/

namespace Wireform.Length

def greatest : Nat := 2147483647

theorem toInt_ofNat {n : Nat} (h : n ≤ greatest) : (Int32.ofNat n).toInt = n :=
  Int32.toInt_ofNat_of_lt (by simp only [greatest] at h; omega)

theorem toUInt32_ofNat {n : Nat} (h : n ≤ greatest) : (Int32.ofNat n).toUInt32.toNat = n := by
  rw [Int32.toUInt32_ofNat']
  exact UInt32.toNat_ofNat_of_lt' (by simp only [greatest, UInt32.size] at h ⊢; omega)

theorem toNat_toInt {v : Int32} (h : 0 ≤ v.toInt) : v.toInt.toNat = v.toUInt32.toNat := by
  have hsmall : 2 * v.toBitVec.toNat < 2 ^ 32 := by
    rw [← BitVec.msb_eq_false_iff_two_mul_lt, ← Bool.not_eq_true, BitVec.msb_eq_toInt]
    simpa using h
  have hv : v.toInt = v.toBitVec.toNat := BitVec.toInt_eq_toNat_of_lt hsmall
  rw [hv]
  rfl

theorem toNat_toInt_le (v : Int32) : v.toInt.toNat ≤ greatest := by
  have hv := v.toInt_lt
  simp only [greatest]
  omega

theorem toUInt16_ofNat {n : Nat} (h : n < UInt16.size) : (Int16.ofNat n).toUInt16.toNat = n := by
  rw [Int16.toUInt16_ofNat']
  exact UInt16.toNat_ofNat_of_lt' h

end Wireform.Length

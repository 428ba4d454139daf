/-!
Bits as lists of truth values, the highest bit first: the bits of a number, the number that bits
spell, and the bits of bytes. A list of bits is divided by taking and dropping, so the fields of a
packed byte need no masks and shifts.
-/

namespace Wireform.Bits

/-- The number that bits spell. -/
def toNat (bits : List Bool) : Nat := bits.foldl (fun n b => 2 * n + b.toNat) 0

def ofNat : (width n : Nat) → List Bool
  | 0, _ => []
  | width + 1, n => ofNat width (n / 2) ++ [n % 2 == 1]

/-- The bits of bytes, eight for each. -/
def ofBytes (bytes : List UInt8) : List Bool := bytes.flatMap fun b => ofNat 8 b.toNat

/-- Bytes of eight bits each. Bits that do not fill a byte are left out. -/
def toBytes : List Bool → List UInt8
  | a :: b :: c :: d :: e :: f :: g :: h :: rest =>
    UInt8.ofNat (toNat [a, b, c, d, e, f, g, h]) :: toBytes rest
  | _ => []

@[simp] theorem length_ofNat (width n : Nat) : (ofNat width n).length = width := by
  induction width generalizing n with
  | zero => rfl
  | succ width ih => simp [ofNat, ih]

theorem toNat_concat (bits : List Bool) (b : Bool) :
    toNat (bits ++ [b]) = 2 * toNat bits + b.toNat := by
  simp [toNat]

theorem ofNat_toNat (bits : List Bool) : ofNat bits.length (toNat bits) = bits := by
  generalize h : bits.length = width
  induction width generalizing bits with
  | zero => rw [List.length_eq_zero_iff.1 h, ofNat]
  | succ width ih =>
    rcases List.eq_nil_or_concat bits with rfl | ⟨front, b, rfl⟩
    · cases h
    · have half : (2 * toNat front + b.toNat) / 2 = toNat front := by
        have := b.toNat_lt
        omega
      have low : ((2 * toNat front + b.toNat) % 2 == 1) = b := by cases b <;> simp
      rw [List.concat_eq_append, toNat_concat, ofNat, half, low, ih front (by simpa using h)]

@[simp] theorem length_ofBytes (bytes : List UInt8) :
    (ofBytes bytes).length = 8 * bytes.length := by
  induction bytes with
  | nil => rfl
  | cons b bytes ih =>
    rw [ofBytes, List.flatMap_cons, List.length_append, length_ofNat, ← ofBytes, ih,
      List.length_cons]
    omega

theorem toNat_lt (a b c d e f g h : Bool) : toNat [a, b, c, d, e, f, g, h] < 256 := by
  revert a b c d e f g h
  decide

theorem ofBytes_toBytes {bits : List Bool} (full : bits.length % 8 = 0) :
    ofBytes (toBytes bits) = bits := by
  fun_induction toBytes bits with
  | case1 a b c d e f g h rest ih =>
    have rest8 : rest.length % 8 = 0 := by
      simp only [List.length_cons] at *
      omega
    have byte : (UInt8.ofNat (toNat [a, b, c, d, e, f, g, h])).toNat
        = toNat [a, b, c, d, e, f, g, h] := by
      rw [UInt8.toNat_ofNat']
      exact Nat.mod_eq_of_lt (toNat_lt ..)
    rw [ofBytes, List.flatMap_cons, ← ofBytes, ih rest8, byte]
    exact congrArg (· ++ rest) (ofNat_toNat [a, b, c, d, e, f, g, h])
  | case2 bits few =>
    match bits, few, full with
    | [], _, _ => rfl
    | [_], _, full | [_, _], _, full | [_, _, _], _, full | [_, _, _, _], _, full
    | [_, _, _, _, _], _, full | [_, _, _, _, _, _], _, full
    | [_, _, _, _, _, _, _], _, full => simp at full
    | a :: b :: c :: d :: e :: f :: g :: h :: rest, few, _ =>
      exact (few a b c d e f g h rest rfl).elim

end Wireform.Bits

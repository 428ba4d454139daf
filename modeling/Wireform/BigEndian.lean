/-!
Numbers as bytes, most significant byte first. Writing keeps the low bytes of a number, reading
takes any bytes, and the two undo each other on numbers that fit.
-/

namespace Wireform.BigEndian

/-- How many numbers there are of `width` bytes. -/
def span : (width : Nat) → Nat
  | 0 => 1
  | width + 1 => 256 * span width

/-- The `width` low bytes of `n`. -/
def encode : (width n : Nat) → List UInt8
  | 0, _ => []
  | width + 1, n => UInt8.ofNat (n / span width) :: encode width n

def decode (bytes : List UInt8) : Nat := bytes.foldl (fun n b => n * 256 + b.toNat) 0

theorem span_pos (width : Nat) : 0 < span width := by
  induction width with
  | zero => decide
  | succ width ih => exact Nat.mul_pos (by decide) ih

@[simp] theorem length_encode (width n : Nat) : (encode width n).length = width := by
  induction width with
  | zero => rfl
  | succ width ih => simp [encode, ih]

theorem foldl_eq (bytes : List UInt8) (n : Nat) :
    bytes.foldl (fun n b => n * 256 + b.toNat) n = n * span bytes.length + decode bytes := by
  induction bytes generalizing n with
  | nil => simp [decode, span]
  | cons b bytes ih =>
    simp only [decode, List.foldl_cons, List.length_cons, span]
    rw [ih, ih (0 * 256 + b.toNat)]
    grind

theorem decode_cons (b : UInt8) (bytes : List UInt8) :
    decode (b :: bytes) = b.toNat * span bytes.length + decode bytes := by
  rw [decode, List.foldl_cons, foldl_eq]
  simp

theorem decode_lt (bytes : List UInt8) : decode bytes < span bytes.length := by
  induction bytes with
  | nil => simp [decode, span]
  | cons b bytes ih =>
    rw [decode_cons, List.length_cons, span]
    have hb : b.toNat < 256 := b.toNat_lt
    have : (b.toNat + 1) * span bytes.length ≤ 256 * span bytes.length :=
      Nat.mul_le_mul_right _ hb
    grind

theorem decode_encode (width n : Nat) : decode (encode width n) = n % span width := by
  induction width with
  | zero => simp [encode, decode, span, Nat.mod_one]
  | succ width ih =>
    have byte : (UInt8.ofNat (n / span width)).toNat = n / span width % 256 := by simp
    rw [encode, decode_cons, ih, length_encode, byte, span, Nat.mul_comm 256, Nat.mod_mul,
      Nat.mul_comm, Nat.add_comm]

theorem encode_decode (bytes : List UInt8) : encode bytes.length (decode bytes) = bytes := by
  suffices h : ∀ n, encode bytes.length (n * span bytes.length + decode bytes) = bytes by
    simpa using h 0
  induction bytes with
  | nil => simp [encode]
  | cons b bytes ih =>
    intro n
    have hlt := decode_lt bytes
    have e : n * span (bytes.length + 1) + decode (b :: bytes)
        = (n * 256 + b.toNat) * span bytes.length + decode bytes := by
      rw [decode_cons, span]
      grind
    rw [List.length_cons, e, encode, ih]
    congr 1
    rw [Nat.add_comm, Nat.add_mul_div_right _ _ (span_pos _), Nat.div_eq_of_lt hlt, Nat.zero_add]
    apply UInt8.toNat_inj.1
    rw [UInt8.toNat_ofNat']
    have := b.toNat_lt
    omega

end Wireform.BigEndian

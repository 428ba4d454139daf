import Wireform.Compact.Int32
import Wireform.Compact.Int64
import Wireform.Proofs.Reading.Fields
import Wireform.Proofs.Writing.Fields

/-!
Compact numbers. A number has as many forms as there are markers whose width
holds it, and a reader takes all of them; a writer makes the one of the least
width. What both sizes of numbers share is the marker: given how a payload of
some width is understood, the forms and their reader are the same. What is left
to each size is that a number that is taken apart and put together again is the
same, at the width that it is written with.
-/

namespace Wireform.Compact

namespace Marker

variable {α : Type} {full width : Nat} {g : Nat → Nat → α}

/-- The forms of a number: a marker and as many bytes as it announces, which stand for the number
if payloads are understood as `g` says. -/
def Form (full : Nat) (g : Nat → Nat → α) (v : α) (e : List UInt8) : Prop :=
  ∃ marker payload, e = marker :: payload ∧ width? full marker = some payload.length ∧
    v = g payload.length (BigEndian.decode payload)

theorem width?_encode (hpos : 0 < width) (hwidth : width ≤ 3 ∨ width = full) (hfull : 3 < full) :
    width? full (encode width) = some width := by
  rcases Nat.lt_or_ge 3 width with hlarge | hsmall
  · obtain rfl : width = full := by omega
    rw [encode, if_neg (by omega), width?, if_pos rfl]
  · obtain rfl | rfl | rfl : width = 1 ∨ width = 2 ∨ width = 3 := by omega
    · rfl
    · rfl
    · rfl

theorem form_encode {n : Nat} (hwidth : width? full (encode width) = some width)
    (hn : n < BigEndian.span width) :
    Form full g (g width n) (encode width :: BigEndian.encode width n) := by
  refine ⟨_, _, rfl, ?_, ?_⟩
  · rw [BigEndian.length_encode, hwidth]
  · rw [BigEndian.length_encode, BigEndian.decode_encode, Nat.mod_eq_of_lt hn]

theorem parses_read (format : String) (full : Nat) :
    Parses Source.buffer (read format full)
      fun width e => ∃ marker, e = [marker] ∧ width? full marker = some width := by
  refine (Buffer.parses_readOctet.bind fun marker _ _ =>
    Parses.option (o := width? full marker) (V := fun c width e => width = c ∧ e = [])
      (fun width hwidth => ?_) fun hwidth => ?_).congr fun width e => ?_
  · simp only [hwidth]
    exact Parses.pure Source.buffer width
  · simp only [hwidth]
    exact Parses.fail rfl
  · constructor
    · rintro ⟨marker, _, _, rfl, ⟨_, hwidth, rfl, rfl⟩, rfl⟩
      exact ⟨marker, by simp [BigEndian.encode, BigEndian.span], hwidth⟩
    · rintro ⟨marker, rfl, hwidth⟩
      exact ⟨marker, [marker], [], by simp [BigEndian.encode, BigEndian.span],
        ⟨width, hwidth, rfl, rfl⟩, rfl⟩

/-- A marker, and then a payload of the width that it announces. -/
theorem parses_form (format : String) :
    Parses Source.buffer (do
        let width ← read format full
        return g width (BigEndian.decode (← Buffer.readBytes width)))
      (Form full g) := by
  refine ((parses_read format full).bind fun width _ _ =>
    (Buffer.parses_take "read_bytes" width).map
      (g := fun payload => g width (BigEndian.decode payload))).congr fun v e => ?_
  constructor
  · rintro ⟨_, _, _, ⟨marker, rfl, hwidth⟩, ⟨payload, rfl, rfl, rfl⟩, rfl⟩
    exact ⟨marker, payload, rfl, hwidth, rfl⟩
  · rintro ⟨marker, payload, rfl, hwidth, rfl⟩
    exact ⟨_, [marker], payload, ⟨marker, rfl, hwidth⟩, ⟨payload, rfl, rfl, rfl⟩, rfl⟩

end Marker

/-! ### Numbers of 32 bits -/

namespace Int32

theorem width_bounds (v : Int32) : 0 < width v ∧ (width v ≤ 3 ∨ width v = 4) := by
  simp only [width]
  split
  · omega
  · split
    · omega
    · split
      · omega
      · omega

/-- A number of fewer than four bytes lies between the numbers that its sign bit leaves room
for. -/
theorem toInt_bounds {v : Int32} (h : width v ≠ 4) :
    -(signBit (width v) : Int) ≤ v.toInt ∧ v.toInt < signBit (width v) := by
  simp only [width] at h ⊢
  split
  · simp only [signBit, BigEndian.span]
    omega
  · split
    · simp only [signBit, BigEndian.span]
      omega
    · split
      · simp only [signBit, BigEndian.span]
        omega
      · simp_all

theorem span_eq {width : Nat} (h : 0 < width) : BigEndian.span width = 2 * signBit width := by
  obtain ⟨n, rfl⟩ := Nat.exists_eq_add_of_lt h
  simp only [signBit, Nat.zero_add, BigEndian.span]
  omega

theorem payload_lt (v : Int32) : payload v < BigEndian.span (width v) := by
  unfold payload
  split
  · next hw =>
    rw [hw]
    exact v.toUInt32.toNat_lt
  · next hw =>
    have hbounds := toInt_bounds hw
    have hspan := span_eq (width_bounds v).1
    split <;> omega

theorem ofPayload_payload (v : Int32) : ofPayload (width v) (payload v) = v := by
  unfold ofPayload payload
  split
  · next hw => rw [UInt32.ofNat_toNat, Int32.toInt32_toUInt32]
  · next hw =>
    have hbounds := toInt_bounds hw
    split
    · next hneg =>
      have hmagnitude : ¬ (-v.toInt - 1).toNat + signBit (width v) < signBit (width v) := by omega
      have hvalue : -(((-v.toInt - 1).toNat + signBit (width v) - signBit (width v) : Nat) : Int)
          - 1 = v.toInt := by omega
      rw [if_neg hmagnitude, hvalue, Int32.ofInt_toInt]
    · next hpos =>
      have hmagnitude : v.toInt.toNat < signBit (width v) := by omega
      rw [if_pos hmagnitude, Int.toNat_of_nonneg (by omega), Int32.ofInt_toInt]

theorem parses_read : Parses Source.buffer read (Marker.Form 4 ofPayload) :=
  Marker.parses_form "compressed int32"

theorem form_encode (v : Int32) : Marker.Form 4 ofPayload v (encode v) := by
  obtain ⟨hpos, hwidth⟩ := width_bounds v
  have hform := Marker.form_encode (g := ofPayload)
    (Marker.width?_encode hpos hwidth (by decide)) (payload_lt v)
  rwa [ofPayload_payload] at hform

theorem appends_write (v : Int32) : Appends Sink.buffer (write v) (encode v) :=
  Buffer.appends_writeBytes (encode v)

end Int32

/-! ### Numbers of 64 bits -/

namespace Int64

theorem width_bounds (magnitude : Nat) :
    0 < width magnitude ∧ (width magnitude ≤ 3 ∨ width magnitude = 8) := by
  unfold width
  split
  · omega
  · split
    · omega
    · split
      · omega
      · omega

/-- Of the low bits of a number and their complement the smaller one leaves room for two flags. -/
theorem magnitude_lt (v : Int64) : (split v).magnitude < flagUnit 8 := by
  have hmod : v.toUInt64.toNat % modulus < modulus := Nat.mod_lt _ (by decide)
  have hunit : modulus = 2 * flagUnit 8 := rfl
  simp only [split]
  split
  · omega
  · omega

theorem magnitude_lt_flagUnit {magnitude : Nat} (h : magnitude < flagUnit 8) :
    magnitude < flagUnit (width magnitude) := by
  unfold width
  split
  · assumption
  · split
    · assumption
    · split
      · assumption
      · assumption

theorem span_eq {width : Nat} (h : 0 < width) : BigEndian.span width = 4 * flagUnit width := by
  obtain ⟨n, rfl⟩ := Nat.exists_eq_add_of_lt h
  simp only [flagUnit, Nat.zero_add, BigEndian.span]
  omega

theorem payload_lt {width : Nat} {p : Parts} (hpos : 0 < width)
    (h : p.magnitude < flagUnit width) : payload width p < BigEndian.span width := by
  have hsign := p.sign.toNat_le
  have hinverted := p.inverted.toNat_le
  rw [span_eq hpos, payload]
  have hflags : (2 * p.sign.toNat + p.inverted.toNat) * flagUnit width ≤ 3 * flagUnit width :=
    Nat.mul_le_mul_right _ (by omega)
  omega

/-- Flags and magnitude do not run into each other. -/
theorem ofPayload_payload {width : Nat} {p : Parts} (h : p.magnitude < flagUnit width) :
    ofPayload width (payload width p) = p := by
  obtain ⟨sign, inverted, magnitude⟩ := p
  have hdiv : payload width ⟨sign, inverted, magnitude⟩ / flagUnit width =
      2 * sign.toNat + inverted.toNat := by
    rw [payload, Nat.mul_comm, Nat.mul_add_div (by omega), Nat.div_eq_of_lt h, Nat.add_zero]
  have hmod : payload width ⟨sign, inverted, magnitude⟩ % flagUnit width = magnitude := by
    rw [payload, Nat.mul_comm, Nat.mul_add_mod, Nat.mod_eq_of_lt h]
  simp only [ofPayload, hdiv, hmod]
  cases sign <;> cases inverted <;> rfl

theorem join_split (v : Int64) : join (split v) = v := by
  have hmodulus : modulus = 2 ^ 63 := rfl
  have hraw := v.toUInt64.toNat_lt
  -- complementing twice gives the low bits back
  have hlow : (if (split v).inverted then modulus - 1 - (split v).magnitude
      else (split v).magnitude) = v.toUInt64.toNat % modulus := by
    simp only [split, decide_eq_true_eq, hmodulus]
    split
    · omega
    · rfl
  have hnumber : (if (split v).sign then modulus + v.toUInt64.toNat % modulus
      else v.toUInt64.toNat % modulus) = v.toUInt64.toNat := by
    simp only [split, decide_eq_true_eq, hmodulus]
    split
    · omega
    · omega
  simp only [join, hlow, hnumber]
  rw [UInt64.ofNat_toNat, Int64.toInt64_toUInt64]

theorem parses_read :
    Parses Source.buffer read (Marker.Form 8 fun width n => join (ofPayload width n)) :=
  Marker.parses_form (g := fun width n => join (ofPayload width n)) "compressed int64"

theorem form_encode (v : Int64) :
    Marker.Form 8 (fun width n => join (ofPayload width n)) v (encode v) := by
  have hmagnitude := magnitude_lt_flagUnit (magnitude_lt v)
  obtain ⟨hpos, hwidth⟩ := width_bounds (split v).magnitude
  have hform := Marker.form_encode (g := fun width n => join (ofPayload width n))
    (Marker.width?_encode hpos hwidth (by decide)) (payload_lt hpos hmagnitude)
  rwa [ofPayload_payload hmagnitude, join_split] at hform

theorem appends_write (v : Int64) : Appends Sink.buffer (write v) (encode v) :=
  Buffer.appends_writeBytes (encode v)

end Int64

end Wireform.Compact

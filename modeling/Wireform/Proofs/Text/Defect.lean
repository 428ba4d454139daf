import Wireform.Failure
import Wireform.Proofs.Text.Form

/-!
How bytes fail to be a text, with the code for each way. The two length words
may be cut off, differ, be negative or promise more bytes than there are. Of the
chunks behind them some may be whole, and then there is one that is none: its
length is cut off or out of range, or the chunk itself is cut off. And all
chunks may be there, but what they carry together is not UTF-8.

The code tells whether bytes are missing at the end, with one exception: a
promise of more bytes than there are has the code of bytes that are wrong.
-/

namespace Wireform.Text

def Illegal (room n : Nat) : Prop := n = 0 ∨ chunkLimit < n ∨ room < n

/-- What is wrong with the bytes where the next chunk should begin, if `room` more bytes of text are
wanted. -/
inductive Stop (room : Nat) : Code → List UInt8 → Prop where
  /-- They end inside the length of the chunk. -/
  | header {tail : List UInt8} (h : tail.length < 2) : Stop room .outOfBounds tail
  | illegal {n : Nat} (rest : List UInt8) (hword : n < UInt16.size) (h : Illegal room n) :
      Stop room .malformedText (BigEndian.encode 2 n ++ rest)
  /-- They end inside the chunk. -/
  | body {n : Nat} {rest : List UInt8} (hlegal : ¬ Illegal room n) (h : rest.length < n) :
      Stop room .outOfBounds (BigEndian.encode 2 n ++ rest)

/-- There are chunks that carry less than `length` bytes, and no chunk behind them. -/
def Breaks (length : Nat) (c : Code) (i : List UInt8) : Prop :=
  ∃ data wire tail, i = wire ++ tail ∧ Chunked data wire ∧ data.length < length ∧
    Stop (length - data.length) c tail

def announced (v : Int32) : List UInt8 :=
  BigEndian.encode 4 v.toUInt32.toNat ++ BigEndian.encode 4 v.toUInt32.toNat

/-- No text can be read from the bytes, for a reason with the code `c`. -/
inductive Corrupt : Code → List UInt8 → Prop where
  | lengths {i : List UInt8} (h : i.length < 8) : Corrupt .outOfBounds i
  | copy {v w : Int32} (rest : List UInt8) (h : v ≠ w) : Corrupt .malformedText
      (BigEndian.encode 4 v.toUInt32.toNat ++ (BigEndian.encode 4 w.toUInt32.toNat ++ rest))
  | negative {v : Int32} (rest : List UInt8) (h : v.toInt < 0) :
      Corrupt .malformedText (announced v ++ rest)
  | short {v : Int32} {rest : List UInt8} (hpos : 0 ≤ v.toInt) (h : rest.length < v.toInt.toNat) :
      Corrupt .malformedText (announced v ++ rest)
  | chunks {v : Int32} {c : Code} {rest : List UInt8} (hpos : 0 ≤ v.toInt)
      (hlen : v.toInt.toNat ≤ rest.length) (h : Breaks v.toInt.toNat c rest) :
      Corrupt c (announced v ++ rest)
  | invalid {v : Int32} {data wire : List UInt8} (rest : List UInt8) (hpos : 0 ≤ v.toInt)
      (hchunked : Chunked data wire) (hlen : data.length = v.toInt.toNat)
      (h : ofBytes? data = none) : Corrupt .malformedText (announced v ++ (wire ++ rest))

variable {length n : Nat} {c : Code} {i : List UInt8}

theorem lt_size_of_legal {room : Nat} (h : ¬ Illegal room n) : n < UInt16.size := by
  have hlimit : chunkLimit < UInt16.size := by decide
  unfold Illegal at h
  omega

theorem stop_outOfBounds_iff {room : Nat} : Stop room .outOfBounds i ↔
    i.length < 2 ∨
    ∃ n rest, i = BigEndian.encode 2 n ++ rest ∧ ¬ Illegal room n ∧ rest.length < n := by
  constructor
  · rintro (h | _ | ⟨hlegal, h⟩)
    · exact .inl h
    · exact .inr ⟨_, _, rfl, hlegal, h⟩
  · rintro (h | ⟨n, rest, rfl, hlegal, h⟩)
    · exact .header h
    · exact .body hlegal h

theorem Breaks.cons {chunk rest : List UInt8} (hlegal : ¬ Illegal length chunk.length)
    (h : Breaks (length - chunk.length) c rest) :
    Breaks length c (BigEndian.encode 2 chunk.length ++ (chunk ++ rest)) := by
  obtain ⟨data, wire, tail, rfl, hchunked, hless, hstop⟩ := h
  unfold Illegal at hlegal
  have hne : chunk ≠ [] := by
    rintro rfl
    exact hlegal (.inl rfl)
  refine ⟨chunk ++ data, _, tail, ?_, .cons hne (by omega) hchunked, ?_, ?_⟩
  · simp only [List.append_assoc]
  · rw [List.length_append]
    omega
  · rw [List.length_append, ← Nat.sub_sub]
    exact hstop

theorem breaks_iff (hlength : 0 < length) : Breaks length c i ↔
    c = .outOfBounds ∧ i.length < 2 ∨
    ∃ n rest, n < UInt16.size ∧ i = BigEndian.encode 2 n ++ rest ∧
      (Illegal length n ∧ c = .malformedText ∨
        ¬ Illegal length n ∧ (c = .outOfBounds ∧ rest.length < n ∨
          ∃ chunk behind, rest = chunk ++ behind ∧ chunk.length = n ∧
            Breaks (length - n) c behind)) := by
  constructor
  · rintro ⟨data, wire, tail, rfl, hchunked, hless, hstop⟩
    cases hchunked with
    | nil =>
        cases hstop with
        | header h => exact .inl ⟨rfl, h⟩
        | illegal rest hword h => exact .inr ⟨_, rest, hword, rfl, .inl ⟨h, rfl⟩⟩
        | body hlegal h =>
            exact .inr ⟨_, _, lt_size_of_legal hlegal, rfl, .inr ⟨hlegal, .inl ⟨rfl, h⟩⟩⟩
    | @cons chunk data wire hne hle hrest =>
        rw [List.length_append] at hless hstop
        rw [← Nat.sub_sub] at hstop
        have hlegal : ¬ Illegal length chunk.length := by
          have hpos := List.length_pos_iff.mpr hne
          unfold Illegal
          omega
        have hbehind : Breaks (length - chunk.length) c (wire ++ tail) :=
          ⟨data, wire, tail, rfl, hrest, by omega, hstop⟩
        exact .inr ⟨chunk.length, chunk ++ (wire ++ tail), lt_size_of_legal hlegal,
          by simp only [List.append_assoc], .inr ⟨hlegal, .inr ⟨chunk, _, rfl, rfl, hbehind⟩⟩⟩
  · rintro (⟨rfl, h⟩ | ⟨n, rest, hword, rfl, hrest⟩)
    · exact ⟨[], [], i, rfl, .nil, hlength, .header h⟩
    · rcases hrest with ⟨h, rfl⟩ | ⟨hlegal, ⟨rfl, h⟩ | ⟨chunk, behind, rfl, rfl, h⟩⟩
      · exact ⟨[], [], _, rfl, .nil, hlength, .illegal rest hword h⟩
      · exact ⟨[], [], _, rfl, .nil, hlength, .body hlegal h⟩
      · exact h.cons hlegal

/-- Bytes that are no text are bytes that are wrong or bytes that are missing. -/
theorem Corrupt.code_eq (h : Corrupt c i) : c = .malformedText ∨ c = .outOfBounds := by
  cases h with
  | lengths h => exact .inr rfl
  | copy rest h => exact .inl rfl
  | negative rest h => exact .inl rfl
  | short hpos h => exact .inl rfl
  | chunks hpos hlen h =>
      obtain ⟨data, wire, tail, -, -, -, hstop⟩ := h
      cases hstop with
      | header h => exact .inr rfl
      | illegal rest hword h => exact .inl rfl
      | body hlegal h => exact .inr rfl
  | invalid rest hpos hchunked hlen h => exact .inl rfl

/-- With both length words there, bytes are missing only where a chunk is cut off. -/
theorem corrupt_outOfBounds_iff (hwords : 8 ≤ i.length) : Corrupt .outOfBounds i ↔
    ∃ v rest, i = announced v ++ rest ∧ 0 ≤ v.toInt ∧ v.toInt.toNat ≤ rest.length ∧
      Breaks v.toInt.toNat .outOfBounds rest := by
  constructor
  · intro h
    cases h with
    | lengths h => omega
    | chunks hpos hlen h => exact ⟨_, _, rfl, hpos, hlen, h⟩
  · rintro ⟨v, rest, rfl, hpos, hlen, h⟩
    exact .chunks hpos hlen h

end Wireform.Text

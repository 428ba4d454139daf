import Wireform.Text.Wire

/-!
The forms of a text on the wire: its number of bytes, the same number again, and
then its bytes in chunks, each behind its own length. A text has many forms,
since chunks may be cut anywhere, also inside a character; the one that a writer
makes is only the one with the longest chunks that end between characters.
-/

namespace Wireform.Text

/-- Chunks that make up `data`, none empty and none too long. -/
inductive Chunked : (data wire : List UInt8) → Prop where
  | nil : Chunked [] []
  | cons {chunk data wire : List UInt8} (hne : chunk ≠ []) (hle : chunk.length ≤ chunkLimit)
      (hrest : Chunked data wire) :
      Chunked (chunk ++ data) (BigEndian.encode 2 chunk.length ++ (chunk ++ wire))

structure Form (s : String) (e : List UInt8) : Prop where
  fits : (bytes s).length ≤ maxLength
  chunked : ∃ wire, Chunked (bytes s) wire ∧
    e = BigEndian.encode 4 (bytes s).length ++ (BigEndian.encode 4 (bytes s).length ++ wire)

theorem Chunked.length_le {data wire : List UInt8} (h : Chunked data wire) :
    data.length ≤ wire.length := by
  induction h with
  | nil => exact Nat.le_refl _
  | cons hne hle hrest ih =>
      simp only [List.length_append, BigEndian.length_encode]
      omega

theorem chunked_and_length_zero {data wire : List UInt8} :
    Chunked data wire ∧ data.length = 0 ↔ data = [] ∧ wire = [] := by
  rw [List.length_eq_zero_iff]
  constructor
  · rintro ⟨hchunked, rfl⟩
    generalize hdata : ([] : List UInt8) = data at hchunked
    cases hchunked with
    | nil => exact ⟨rfl, rfl⟩
    | cons hne => exact absurd (List.append_eq_nil_iff.mp hdata.symm).1 hne
  · rintro ⟨rfl, rfl⟩
    exact ⟨.nil, rfl⟩

/-- Both length words are paid for besides the text itself. -/
theorem Form.length_le {s : String} {e : List UInt8} (h : Form s e) :
    8 + (bytes s).length ≤ e.length := by
  obtain ⟨wire, hwire, rfl⟩ := h.chunked
  have hle := hwire.length_le
  simp only [List.length_append, BigEndian.length_encode]
  omega

end Wireform.Text

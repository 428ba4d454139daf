import Wireform.Proofs.Text.Form
import Wireform.Proofs.Length
import Wireform.Proofs.Writing.Fields

/-!
The writer of texts appends one of the forms of a text: that whose chunks are as
long as they can be without ending inside a character. All texts have it whose
bytes can be counted by the length word.
-/

namespace Wireform.Text

def wireOf : List (List Char) → List UInt8
  | [] => []
  | chunk :: rest =>
    BigEndian.encode 2 (bytesOf chunk).length ++ (bytesOf chunk ++ wireOf rest)

def wire (s : String) : List UInt8 :=
  BigEndian.encode 4 (bytes s).length ++
    (BigEndian.encode 4 (bytes s).length ++ wireOf (chunks s.toList))

theorem bytesOf_append (x y : List Char) : bytesOf (x ++ y) = bytesOf x ++ bytesOf y :=
  List.flatMap_append

theorem length_bytesOf_cut (room : Nat) (cs : List Char) :
    (bytesOf (cut room cs).1).length ≤ room := by
  induction cs generalizing room with
  | nil => exact Nat.zero_le room
  | cons c cs ih =>
      unfold cut
      split
      · next hc =>
        have hrest := ih (room - c.utf8Size)
        simp only [bytesOf, List.flatMap_cons, List.length_append,
          String.length_utf8EncodeChar] at hrest ⊢
        omega
      · exact Nat.zero_le room

theorem bytesOf_cut_ne_nil (c : Char) (cs : List Char) :
    bytesOf (cut chunkLimit (c :: cs)).1 ≠ [] := by
  -- no character is too long for a chunk
  have hc : c.utf8Size ≤ chunkLimit := Nat.le_trans c.utf8Size_le_four (by decide)
  intro h
  have hlen := congrArg List.length h
  simp only [cut, hc, if_true, bytesOf, List.flatMap_cons, List.length_append,
    String.length_utf8EncodeChar, List.length_nil] at hlen
  have hpos := c.utf8Size_pos
  omega

theorem chunked_chunks (cs : List Char) : Chunked (bytesOf cs) (wireOf (chunks cs)) := by
  induction cs using chunks.induct with
  | case1 =>
      rw [chunks]
      exact .nil
  | case2 c cs ih =>
      rw [chunks]
      have hcut := congrArg bytesOf (cut_append chunkLimit (c :: cs))
      rw [bytesOf_append] at hcut
      rw [← hcut]
      exact .cons (bytesOf_cut_ne_nil c cs) (length_bytesOf_cut chunkLimit (c :: cs)) ih

theorem form_wire {s : String} (h : (bytes s).length ≤ maxLength) : Form s (wire s) :=
  ⟨h, _, chunked_chunks s.toList, rfl⟩

theorem length_bytesOf_of_mem_chunks {cs chunk : List Char} (h : chunk ∈ chunks cs) :
    (bytesOf chunk).length ≤ chunkLimit := by
  induction cs using chunks.induct with
  | case1 =>
      rw [chunks] at h
      cases h
  | case2 c cs ih =>
      rw [chunks] at h
      rcases List.mem_cons.mp h with rfl | h
      · exact length_bytesOf_cut chunkLimit (c :: cs)
      · exact ih h

theorem appends_writeChunks {chunks : List (List Char)}
    (h : ∀ chunk ∈ chunks, (bytesOf chunk).length ≤ chunkLimit) :
    Appends Sink.buffer (writeChunks chunks) (wireOf chunks) := by
  induction chunks with
  | nil => exact Appends.pure Sink.buffer
  | cons chunk rest ih =>
      obtain ⟨hchunk, hrest⟩ := List.forall_mem_cons.mp h
      have hlength := Buffer.appends_writeShort (Int16.ofNat (bytesOf chunk).length)
      rw [Length.toUInt16_ofNat (Nat.lt_of_le_of_lt hchunk (by decide))] at hlength
      exact hlength.bind ((Buffer.appends_writeBytes (bytesOf chunk)).bind (ih hrest))

theorem appends_write {s : String} (h : (bytes s).length ≤ maxLength) :
    Appends Sink.buffer (write s) (wire s) := by
  unfold write
  simp only [if_neg (Nat.not_lt.mpr h)]
  have hlength := Buffer.appends_writeInt (Int32.ofNat (bytes s).length)
  rw [Length.toUInt32_ofNat h] at hlength
  exact hlength.bind (hlength.bind (appends_writeChunks fun _ => length_bytesOf_of_mem_chunks))

/-- A text that the length word cannot count is not written. -/
theorem write_of_long {s : String} (h : maxLength < (bytes s).length) :
    write s = Action.fail (Fault.longText (bytes s).length) := by
  unfold write
  simp only [if_pos h]
  rfl

end Wireform.Text

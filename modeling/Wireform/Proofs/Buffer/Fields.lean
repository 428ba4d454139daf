import Wireform.Codec.Reader
import Wireform.Codec.Writer
import Wireform.Proofs.Buffer.Valid
import Wireform.Proofs.Twin.Text

/-!
The fields of objects handle a valid buffer as everything else does. What reads
a field moves the reader and nothing else, what writes one appends, and what
breaks off does so with a failure that callers get to see.

A text is read through a scratch area, and this has to be there: into an area of
no size not even one byte can be read.
-/

namespace Wireform

open Buffer

theorem Value.plain_of_expect {c : Class} {v : Value} {f : Failure} (h : v.expect c = .error f) :
    f.Plain := by
  unfold Value.expect at h
  split at h
  · cases h
  · cases h
    exact Fault.plain rfl

/-! ### What writes a field -/

section Appending

variable {C : Conduct Buffer} (hput : ∀ operation data, Obeys C (put operation data))

include hput

theorem Text.obeys_writeChunks (chunks : List (List Char)) : Obeys C (writeChunks chunks) := by
  induction chunks with
  | nil => exact .pure _
  | cons chunk rest ih => exact (hput _ _).bind fun _ => (hput _ _).bind fun _ => ih

theorem Writer.obeys_writeChar (hplane : ∀ shown, C.Fails (Fault.outsidePlane shown)) (c : Char) :
    Obeys C (writeChar c) := by
  unfold writeChar
  split
  · exact hput _ _
  · exact .fail (hplane _)

theorem Writer.obeys_writeTypeId (hid : ∀ type, C.Fails (Fault.withoutTypeId type)) (d : Dialect)
    (v : Value) : Obeys C (writeTypeId d v) := by
  unfold writeTypeId
  split
  · exact hput _ _
  · exact .fail (hid _)

theorem Text.obeys_write (hlong : ∀ n, C.Fails (Fault.longText n)) (s : String) :
    Obeys C (write s) := by
  unfold write
  simp only [Action.fail_bind]
  split
  · exact .fail (hlong _)
  · exact (hput _ _).bind fun _ => (hput _ _).bind fun _ => obeys_writeChunks hput _

end Appending

theorem Writer.handling_writeChar (c : Char) : Obeys Conduct.handling (writeChar c) :=
  obeys_writeChar handling_put (fun _ => Fault.plain rfl) c

theorem Writer.handling_writeTypeId (d : Dialect) (v : Value) :
    Obeys Conduct.handling (writeTypeId d v) :=
  obeys_writeTypeId handling_put (fun _ => Fault.plain rfl) d v

theorem Text.handling_write (s : String) : Obeys Conduct.handling (write s) :=
  obeys_write handling_put (fun _ => Fault.plain rfl) s

/-! ### What reads one -/

namespace Reader

theorem reading_readChar : Obeys Conduct.reading readChar := by
  refine ((reading_takeNumber _ 2).map _).bind fun unit => ?_
  split
  · exact .pure _
  · exact .fail (Fault.plain rfl)

/-- Past the look at what is there, memory is asked for only as far as there are bytes. -/
theorem reading_readBlock (n : Nat) : Obeys Conduct.reading (readBlock n) := by
  intro b hb
  rcases Nat.lt_or_ge b.readableBytes n with hfew | henough
  · have hact : readBlock n b = (.error (Fault.shortBlock n b.readableBytes), b) := by
      rw [readBlock, Action.bind_of_ok (Action.get_apply b), if_pos hfew]
      rfl
    rw [hact]
    refine ⟨Conduct.reading.refl hb, fun f hf => ?_⟩
    cases hf
    exact Fault.plain rfl
  · have hact : readBlock n b = Buffer.readBytes n b := by
      rw [readBlock, Action.bind_of_ok (Action.get_apply b), if_neg (Nat.not_lt.mpr henough)]
      exact Action.bind_of_ok (reserve_of_le henough)
    rw [hact]
    exact reading_take _ n hb

theorem reading_readTypeId (d : Dialect) : Obeys Conduct.reading (readTypeId d) := by
  refine reading_readShort.bind fun raw => ?_
  simp only
  split
  · exact .pure _
  · exact .fail (Fault.plain rfl)

end Reader

namespace Conduct

/-- Reading beside a scratch area of the given size. -/
def desk (size : Nat) : Conduct (Buffer × List UInt8) where
  Fit p := p.1.Valid ∧ p.2.length = size
  Moves p q := Conduct.reading.Moves p.1 q.1 ∧ q.2.length = size
  Fails := Failure.Plain
  refl := fun h => ⟨Conduct.reading.refl h.1, h.2⟩
  trans := fun h h' => ⟨Conduct.reading.trans h.1 h'.1, h'.2⟩
  fit := fun h h' => ⟨Conduct.reading.fit h.1 h'.1, h'.2⟩

end Conduct

namespace Text

variable {α : Type} {size : Nat}

theorem desk_onBuffer {act : Action Buffer α} (h : Obeys Conduct.reading act) :
    Obeys (Conduct.desk size) (onBuffer act) := by
  rintro ⟨b, scratch⟩ ⟨hb, hsize⟩
  obtain ⟨hmoves, hfails⟩ := h hb
  exact ⟨⟨hmoves, hsize⟩, hfails⟩

theorem desk_readPiece {n : Nat} (hn : n ≤ size) : Obeys (Conduct.desk size) (readPiece n) := by
  rintro ⟨b, scratch⟩ ⟨hb, hsize⟩
  simp only at hb hsize
  have hroom : ¬ scratch.length < n := by omega
  obtain ⟨hmoves, hfails⟩ := reading_take "read_bytes" n hb
  rw [readPiece, Action.bind_of_ok (Action.get_apply _)]
  simp only [if_neg hroom, Action.bind_apply, onBuffer]
  rcases hread : Buffer.readBytes n b with ⟨f | piece, b'⟩
  · rw [show take "read_bytes" n b = _ from hread] at hmoves hfails
    refine ⟨⟨hmoves, hsize⟩, fun g hg => ?_⟩
    cases hg
    exact hfails f rfl
  · rw [show take "read_bytes" n b = _ from hread] at hmoves
    have hpiece : piece.length = n := Buffer.length_of_take hread
    refine ⟨⟨hmoves, ?_⟩, fun _ hg => by cases hg⟩
    simp only [stage, List.length_append, List.length_drop]
    omega

theorem desk_readPieces (hsize : 0 < size) (n : Nat) :
    Obeys (Conduct.desk size) (readPieces size n) := by
  induction n using Nat.strongRecOn with
  | ind n ih =>
      rw [readPieces]
      split
      · exact .pure _
      · next hn =>
        exact (desk_readPiece (by omega)).bind fun piece =>
          (ih _ (by omega)).bind fun rest => .pure _

theorem desk_readChunks (hsize : 0 < size) (length offset : Nat) :
    Obeys (Conduct.desk size) (readChunks size length offset) := by
  induction hk : length - offset using Nat.strongRecOn generalizing offset with
  | ind k ih =>
      rw [readChunks]
      split
      · refine (desk_onBuffer ((reading_takeNumber _ 2).map _)).bind fun v => ?_
        simp only
        split
        · exact .fail (Fault.plain rfl)
        · exact (desk_readPieces hsize _).bind fun data =>
            (ih _ (by omega) _ rfl).bind fun rest => .pure _
      · exact .pure _

theorem desk_decoded (hsize : 0 < size) (length : Nat) :
    Obeys (Conduct.desk size) (readChunks size length 0 >>= fun data =>
      match ofBytes? data with
      | some s => pure s
      | none => Action.fail Fault.invalidText) := by
  refine (desk_readChunks hsize length 0).bind fun data => ?_
  split
  · exact .pure _
  · exact .fail (Fault.plain rfl)

theorem desk_read (hsize : 0 < size) : Obeys (Conduct.desk size) read := by
  have hint : Obeys (Conduct.desk size) (onBuffer Buffer.readInt) :=
    desk_onBuffer ((reading_takeNumber _ 4).map _)
  unfold read
  simp only [Action.fail_bind]
  refine hint.bind fun v => hint.bind fun w => ?_
  split
  · exact .fail (Fault.plain rfl)
  · split
    · exact .fail (Fault.plain rfl)
    · rintro ⟨b, scratch⟩ ⟨hb, rfl⟩
      rw [Action.bind_of_ok (Action.get_apply _)]
      simp only
      split
      · exact Obeys.fail (Fault.plain rfl) ⟨hb, rfl⟩
      · next hfew =>
        have hreserve := Buffer.reserve_of_le (Nat.not_lt.mp hfew)
        have hreserved : onBuffer (Buffer.reserve v.toInt.toNat) (b, scratch) =
            (.ok (), (b, scratch)) := by simp only [onBuffer, hreserve]
        rw [Action.bind_of_ok hreserved]
        exact desk_decoded hsize v.toInt.toNat ⟨hb, rfl⟩

end Text

/-! ### Fields without objects -/

/-- Whether the field is there to hold an object. -/
def Field.nested : Field → Bool
  | object .. | nullable .. => true
  | _ => false

def Request.nested : Request → Bool
  | object _ | objectAs .. | nullable _ => true
  | _ => false

variable {d : Dialect}

theorem Writer.writeField_of_not_nested {f : Field} (hf : f.nested = false) :
    ∃ act : Action Buffer Unit, Obeys Conduct.handling act ∧
      ∀ object, writeField d object f = Bench.onBuffer act := by
  cases f with
  | object | nullable => cases hf
  | flags v => exact ⟨_, Compact.Flags.handling_write v, fun _ => rfl⟩
  | char v => exact ⟨_, handling_writeChar v, fun _ => rfl⟩
  | text v => exact ⟨_, Text.handling_write v, fun _ => rfl⟩
  | typeId v => exact ⟨_, handling_writeTypeId d v, fun _ => rfl⟩
  | _ => exact ⟨_, handling_put _ _, fun _ => rfl⟩

/-- To answer a request for no object is to read from the buffer, but for texts, which take the
scratch area as well. -/
theorem Reader.answer_of_not_nested {r : Request} (hr : r.nested = false) :
    r = .text ∨ ∃ act : Action Buffer r.Answer, Obeys Conduct.reading act ∧
      ∀ object, answer d object r = Bench.onBuffer act := by
  cases r with
  | object | objectAs | nullable => cases hr
  | text => exact .inl rfl
  | bool => exact .inr ⟨_, reading_readBool, fun _ => rfl⟩
  | flags => exact .inr ⟨_, Compact.Flags.reading_read, fun _ => rfl⟩
  | bytes n => exact .inr ⟨_, reading_take _ n, fun _ => rfl⟩
  | block n => exact .inr ⟨_, reading_readBlock n, fun _ => rfl⟩
  | char => exact .inr ⟨_, reading_readChar, fun _ => rfl⟩
  | compactInt => exact .inr ⟨_, Compact.Int32.reading_read, fun _ => rfl⟩
  | compactLong => exact .inr ⟨_, Compact.Int64.reading_read, fun _ => rfl⟩
  | typeId => exact .inr ⟨_, reading_readTypeId d, fun _ => rfl⟩
  | byte | octet | short | int | long | float | double =>
      exact .inr ⟨_, (reading_takeNumber _ _).map _, fun _ => rfl⟩

end Wireform

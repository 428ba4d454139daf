import Wireform.Codec.Reader
import Wireform.Proofs.Reading.Judgment

/-!
The fields of fixed width and the runs of bytes, each with the grammar that it
parses. A field of fixed width has one form for each value, and all forms of
its width are taken, with two exceptions: of the truth values and of the code
units that are characters only some forms are values at all.
-/

namespace Wireform

namespace Buffer

theorem parses_readByte : Parses Source.buffer readByte
    fun v e => e = BigEndian.encode 1 v.toUInt8.toNat :=
  parses_number (fun _ hn => UInt8.toNat_ofNat_of_lt' hn)
    fun v => ⟨v.toUInt8.toNat_lt, by rw [UInt8.ofNat_toNat, Int8.toInt8_toUInt8]⟩

theorem parses_readOctet : Parses Source.buffer readOctet
    fun v e => e = BigEndian.encode 1 v.toNat :=
  parses_number (fun _ hn => UInt8.toNat_ofNat_of_lt' hn)
    fun v => ⟨v.toNat_lt, UInt8.ofNat_toNat⟩

theorem parses_readShort : Parses Source.buffer readShort
    fun v e => e = BigEndian.encode 2 v.toUInt16.toNat :=
  parses_number (fun _ hn => UInt16.toNat_ofNat_of_lt' hn)
    fun v => ⟨v.toUInt16.toNat_lt, by rw [UInt16.ofNat_toNat, Int16.toInt16_toUInt16]⟩

theorem parses_readUnit : Parses Source.buffer readUnit
    fun v e => e = BigEndian.encode 2 v.toNat :=
  parses_number (fun _ hn => UInt16.toNat_ofNat_of_lt' hn)
    fun v => ⟨v.toNat_lt, UInt16.ofNat_toNat⟩

theorem parses_readInt : Parses Source.buffer readInt
    fun v e => e = BigEndian.encode 4 v.toUInt32.toNat :=
  parses_number (fun _ hn => UInt32.toNat_ofNat_of_lt' hn)
    fun v => ⟨v.toUInt32.toNat_lt, by rw [UInt32.ofNat_toNat, Int32.toInt32_toUInt32]⟩

theorem parses_readLong : Parses Source.buffer readLong
    fun v e => e = BigEndian.encode 8 v.toUInt64.toNat :=
  parses_number (fun _ hn => UInt64.toNat_ofNat_of_lt' hn)
    fun v => ⟨v.toUInt64.toNat_lt, by rw [UInt64.ofNat_toNat, Int64.toInt64_toUInt64]⟩

theorem parses_readFloat : Parses Source.buffer readFloat
    fun v e => e = BigEndian.encode 4 v.toNat :=
  parses_number (fun _ hn => UInt32.toNat_ofNat_of_lt' hn)
    fun v => ⟨v.toNat_lt, UInt32.ofNat_toNat⟩

theorem parses_readDouble : Parses Source.buffer readDouble
    fun v e => e = BigEndian.encode 8 v.toNat :=
  parses_number (fun _ hn => UInt64.toNat_ofNat_of_lt' hn)
    fun v => ⟨v.toNat_lt, UInt64.ofNat_toNat⟩

theorem parses_readBool : Parses Source.buffer readBool
    fun v e => e = BigEndian.encode 1 v.toNat where
  reads := by
    refine (parses_takeNumber "read_bool" 1).reads.bind ?_
    rintro n _ ⟨hn, rfl⟩
    split
    · exact Reads.pure rfl
    · exact Reads.pure rfl
    · exact Reads.fail rfl
  spells := by
    rintro v _ rfl
    have hv : v.toNat < BigEndian.span 1 := by cases v <;> decide
    refine ((parses_takeNumber "read_bool" 1).spells _ _ ⟨hv, rfl⟩).bind_nil ?_
    cases v
    · exact Spells.pure _ _
    · exact Spells.pure _ _

end Buffer

namespace Reader

/-- Each character of one code unit has a form, and halves of pairs are refused. -/
theorem parses_readChar : Parses Source.buffer readChar
    fun c e => c.toNat < 0x10000 ∧ e = BigEndian.encode 2 c.toNat where
  reads := by
    refine Buffer.parses_readUnit.reads.bind ?_
    rintro unit _ rfl
    split
    · exact Reads.pure ⟨unit.toNat_lt, by simp [Char.toNat]⟩
    · exact Reads.fail rfl
  spells := by
    rintro c _ ⟨hc, rfl⟩
    have hunit : (UInt16.ofNat c.toNat).toNat = c.toNat := UInt16.toNat_ofNat_of_lt' hc
    have h := Buffer.parses_readUnit.spells (UInt16.ofNat c.toNat) _ rfl
    rw [hunit] at h
    refine h.bind_nil ?_
    have hvalid : (UInt16.ofNat c.toNat).toNat.isValidChar := by
      rw [hunit]
      exact c.valid
    have hchar : (UInt16.ofNat c.toNat).toUInt32 = c.val :=
      UInt32.toNat_inj.mp (by rw [UInt16.toNat_toUInt32, hunit]; rfl)
    simp only [dif_pos hvalid, hchar]
    exact Spells.pure _ c

/-- A block of known length has no form but itself. The look at how much is there changes nothing
but the words of the failure. -/
theorem parses_readBlock (n : Nat) : Parses Source.buffer (readBlock n)
    fun data e => data = e ∧ e.length = n := by
  have heq : ∀ b, readBlock n b = if b.readableBytes < n
      then (.error (Fault.shortBlock n b.readableBytes), b) else Buffer.readBytes n b := by
    intro b
    show (Action.get >>= _) b = _
    rw [Action.bind_of_ok (Action.get_apply b)]
    split
    · rfl
    · next henough =>
      show (Buffer.reserve n >>= _) b = _
      rw [Action.bind_of_ok (Buffer.reserve_of_le (Nat.not_lt.mp henough))]
  refine Parses.of_eq (Parses.guard (Buffer.parses_take "read_bytes" n) ?_ ?_) fun b _ => heq b
  · rintro b data _ hb ⟨rfl, hn⟩ hfew
    show b.ahead.length < data.length
    rwa [hb.length_ahead, hn]
  · intro b
    exact ⟨.inl rfl, rfl⟩

end Reader

end Wireform

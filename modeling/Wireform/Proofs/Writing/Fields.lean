import Wireform.Codec.Writer
import Wireform.Proofs.Writing.Judgment

/-!
The writers of single fields, each with the bytes that it appends. These are the
forms that the readers of the same fields take.
-/

namespace Wireform

namespace Buffer

theorem appends_writeByte (v : Int8) :
    Appends Sink.buffer (writeByte v) (BigEndian.encode 1 v.toUInt8.toNat) :=
  appends_putNumber "write_byte" 1 _

theorem appends_writeOctet (v : UInt8) :
    Appends Sink.buffer (writeOctet v) (BigEndian.encode 1 v.toNat) :=
  appends_putNumber "write_unsigned_byte" 1 _

theorem appends_writeShort (v : Int16) :
    Appends Sink.buffer (writeShort v) (BigEndian.encode 2 v.toUInt16.toNat) :=
  appends_putNumber "write_short" 2 _

theorem appends_writeUnit (v : UInt16) :
    Appends Sink.buffer (writeUnit v) (BigEndian.encode 2 v.toNat) :=
  appends_putNumber "write_char" 2 _

theorem appends_writeInt (v : Int32) :
    Appends Sink.buffer (writeInt v) (BigEndian.encode 4 v.toUInt32.toNat) :=
  appends_putNumber "write_int" 4 _

theorem appends_writeLong (v : Int64) :
    Appends Sink.buffer (writeLong v) (BigEndian.encode 8 v.toUInt64.toNat) :=
  appends_putNumber "write_long" 8 _

theorem appends_writeFloat (bits : UInt32) :
    Appends Sink.buffer (writeFloat bits) (BigEndian.encode 4 bits.toNat) :=
  appends_putNumber "write_float" 4 _

theorem appends_writeDouble (bits : UInt64) :
    Appends Sink.buffer (writeDouble bits) (BigEndian.encode 8 bits.toNat) :=
  appends_putNumber "write_double" 8 _

theorem appends_writeBool (v : Bool) :
    Appends Sink.buffer (writeBool v) (BigEndian.encode 1 v.toNat) :=
  appends_putNumber "write_bool" 1 _

theorem appends_writeBytes (data : List UInt8) : Appends Sink.buffer (writeBytes data) data :=
  appends_put "write_bytes" data

end Buffer

namespace Writer

theorem appends_writeChar {c : Char} (hc : c.toNat < 0x10000) :
    Appends Sink.buffer (writeChar c) (BigEndian.encode 2 c.toNat) := by
  have hunit := Buffer.appends_writeUnit (UInt16.ofNat c.toNat)
  rw [UInt16.toNat_ofNat_of_lt' hc] at hunit
  rw [writeChar, if_pos hc]
  exact hunit

theorem writeTypeId_of_entry {d : Dialect} {v : Value} {entry : TypeEntry} {id : TypeId}
    (hentry : d.types.ofClass? v.classOf = some entry) (hid : entry.id = some id) :
    writeTypeId d v = Buffer.writeShort id.raw := by
  simp only [writeTypeId, hentry, Option.bind_some, hid]

end Writer

end Wireform

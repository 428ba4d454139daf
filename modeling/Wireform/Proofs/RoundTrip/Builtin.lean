import Wireform.Proofs.RoundTrip.Mirror

/-!
What the built-in formats write and read is mirrored, format by format: for the
formats of one class whatever the value, for the formats of registered types
given what their types contribute. An enumeration contributes that a constant
is found by its name. A packet or another type with a body contributes a mirror
for the body.
-/

namespace Wireform

variable {d : Dialect} {levels : Nat} {b : Builtin} {v : Value} {e : List UInt8} {id : TypeId}
  {entry : TypeEntry} {name : String}

namespace Writer

theorem emits_writeTypeId (hentry : d.types.ofClass? v.classOf = some entry)
    (hid : entry.id = some id) : Emits Sink.buffer (writeTypeId d v) id.word := by
  rw [writeTypeId_of_entry hentry hid]
  exact (Buffer.appends_writeShort id.raw).emits

end Writer

/-! ### Values of one field -/

/-- Values that are a single field, with the formats that serve them. A character has to be one code
unit, and a length has to be one that its word can say. -/
inductive Plain : Builtin → Value → Prop where
  | byte (v : Int8) : Plain .byte (.byte v)
  | short (v : Int16) : Plain .short (.short v)
  | char {c : Char} (hc : c.toNat < 0x10000) : Plain .char (.char c)
  | int (v : Int32) : Plain .int (.int v)
  | float (bits : UInt32) : Plain .float (.float bits)
  | long (v : Int64) : Plain .long (.long v)
  | double (bits : UInt64) : Plain .double (.double bits)
  | text {s : String} (hs : (Text.bytes s).length ≤ Text.maxLength) : Plain .text (.text s)
  | bytes {data : List UInt8} (hlen : data.length ≤ Builtin.maxBlock) : Plain .bytes (.bytes data)
  | bool (v : Bool) : Plain .bool (.bool v)
  | identifier (id : Identifier) : Plain .identifier (.identifier id)

theorem Plain.class_eq (h : Plain b v) : b.class? = some v.classOf := by
  cases h <;> rfl

theorem mirrors_block {data : List UInt8} (hlen : data.length ≤ Builtin.maxBlock) :
    Mirrors d levels (Builtin.writeBlock data) Builtin.readBlock data
      (BigEndian.encode 4 data.length ++ data) := by
  have hdata : Mirrors d levels (Script.put (.bytes data)) (Reading.block data.length) data data :=
    Mirrors.ofBuffer (r := .block data.length) (fun _ => rfl) (fun _ => rfl)
      (Buffer.appends_writeBytes data).emits (Reader.parses_readBlock data.length) ⟨rfl, rfl⟩
  have hpos : ¬ (data.length : Int) < 0 := Int.not_lt.mpr (Int.natCast_nonneg _)
  unfold Builtin.writeBlock Builtin.readBlock
  simp only [if_neg (Nat.not_lt.mpr hlen)]
  refine (Mirrors.length hlen).bind ?_
  simp only [Length.toInt_ofNat hlen, if_neg hpos, Int.toNat_natCast]
  exact hdata

theorem Plain.mirrors (h : Plain b v) :
    ∃ e, Mirrors d levels (b.write d.types v) (b.read d.types) v e := by
  cases h with
  | byte v =>
      exact ⟨_, (Mirrors.ofBuffer (r := .byte) (fun _ => rfl) (fun _ => rfl)
        (Buffer.appends_writeByte v).emits Buffer.parses_readByte rfl).map Value.byte⟩
  | short v =>
      exact ⟨_, (Mirrors.ofBuffer (r := .short) (fun _ => rfl) (fun _ => rfl)
        (Buffer.appends_writeShort v).emits Buffer.parses_readShort rfl).map Value.short⟩
  | char hc =>
      exact ⟨_, (Mirrors.ofBuffer (r := .char) (fun _ => rfl) (fun _ => rfl)
        (Writer.appends_writeChar hc).emits Reader.parses_readChar ⟨hc, rfl⟩).map Value.char⟩
  | int v => exact ⟨_, (Mirrors.int v).map Value.int⟩
  | float bits =>
      exact ⟨_, (Mirrors.ofBuffer (r := .float) (fun _ => rfl) (fun _ => rfl)
        (Buffer.appends_writeFloat bits).emits Buffer.parses_readFloat rfl).map Value.float⟩
  | long v =>
      exact ⟨_, (Mirrors.ofBuffer (r := .long) (fun _ => rfl) (fun _ => rfl)
        (Buffer.appends_writeLong v).emits Buffer.parses_readLong rfl).map Value.long⟩
  | double bits =>
      exact ⟨_, (Mirrors.ofBuffer (r := .double) (fun _ => rfl) (fun _ => rfl)
        (Buffer.appends_writeDouble bits).emits Buffer.parses_readDouble rfl).map Value.double⟩
  | text hs => exact ⟨_, (Mirrors.text hs).map Value.text⟩
  | bytes hlen => exact ⟨_, (mirrors_block hlen).map Value.bytes⟩
  | bool v =>
      exact ⟨_, (Mirrors.ofBuffer (r := .bool) (fun _ => rfl) (fun _ => rfl)
        (Buffer.appends_writeBool v).emits Buffer.parses_readBool rfl).map Value.bool⟩
  | identifier id =>
      have hbytes : Mirrors d levels (Script.put (.bytes id.toBytes))
          (Reading.bytes Identifier.size) id.toBytes id.toBytes :=
        Mirrors.ofBuffer (r := .bytes Identifier.size) (fun _ => rfl) (fun _ => rfl)
          (Buffer.appends_writeBytes id.toBytes).emits (Buffer.parses_take _ Identifier.size)
          ⟨rfl, BigEndian.length_encode _ _⟩
      have hid := hbytes.map fun data => Value.identifier (Identifier.ofBytes data)
      rw [Identifier.ofBytes_toBytes] at hid
      exact ⟨_, hid⟩

/-! ### Values of registered types -/

section Registered

variable (hd : d.Built) (hentry : d.types.ofClass? v.classOf = some entry)

include hd hentry

theorem exists_mirrors_entry :
    ∃ e, Mirrors d levels (Script.put (.typeId v)) d.types.readEntry entry e := by
  obtain ⟨id, hid, hbyId⟩ := hd.types.exists_id hentry
  refine ⟨id.word, fun m _ => ?_, fun m _ => ?_⟩
  · rw [Script.put, Plan.run_request]
    exact Bench.emits_onBuffer (Writer.emits_writeTypeId hentry hid)
  · exact ((Reader.parses_readEntry d).spells entry id.word ⟨id, hbyId, rfl⟩).yields

theorem exists_mirrors_constant {constants : Constants}
    (hkind : entry.kind = .enumeration constants) (hname : constants.name v = .ok name)
    (hfits : (Text.bytes name).length ≤ Text.maxLength) (hv : constants.ofName name = some v) :
    ∃ e, Mirrors d levels (Builtin.enumeration.write d.types v) (Builtin.enumeration.read d.types)
      v e := by
  obtain ⟨e, hmirrors⟩ := exists_mirrors_entry hd hentry
  refine ⟨e ++ Text.wire name, ?_⟩
  simp only [Builtin.write, Builtin.writeConstant, Builtin.entryOf, hentry, hkind, hname,
    Plan.lift_ok, Plan.pure_bind]
  refine hmirrors.bind ?_
  simp only [hkind]
  exact (Mirrors.text hfits).bind_pure (by simp only [hv])

theorem exists_mirrors_packet {construction : Construction} {body : PacketBody} {w : Value}
    (hkind : entry.kind = .packet construction body) (hname : body.name v = .ok name)
    (hfits : (Text.bytes name).length ≤ Text.maxLength)
    (hbody : Mirrors d levels (body.write v) (body.read name) w e) :
    ∃ e, Mirrors d levels (Builtin.packet.write d.types v) (Builtin.packet.read d.types) w e := by
  obtain ⟨e', hmirrors⟩ := exists_mirrors_entry hd hentry
  refine ⟨e' ++ (Text.wire name ++ e), ?_⟩
  simp only [Builtin.write, Builtin.writePacket, Builtin.entryOf, hentry, hkind, hname,
    Plan.lift_ok, Plan.pure_bind]
  refine hmirrors.bind ?_
  simp only [hkind]
  exact (Mirrors.text hfits).bind hbody

theorem exists_mirrors_structured {cacheable : Bool} {body : Body}
    (hkind : entry.kind = .structured cacheable body)
    (hbody : Mirrors d levels (body.write v) body.read v e) :
    ∃ e, Mirrors d levels (Builtin.structured.write d.types v) (Builtin.structured.read d.types)
      v e := by
  obtain ⟨e', hmirrors⟩ := exists_mirrors_entry hd hentry
  refine ⟨e' ++ e, ?_⟩
  simp only [Builtin.write, Builtin.writeStructured, Builtin.entryOf, hentry, hkind,
    Plan.lift_ok, Plan.pure_bind]
  refine hmirrors.bind ?_
  simp only [hkind]
  exact hbody

end Registered

/-! ### Values that hold others -/

theorem exists_mirrors_message {id : Identifier} {body : Value}
    (hid : Travels d levels (.identifier id)) (hbody : Travels d levels body) :
    ∃ e, Mirrors d levels (Builtin.message.write d.types (.message id body))
      (Builtin.message.read d.types) (.message id body) e := by
  obtain ⟨e₁, hid⟩ := hid
  obtain ⟨e₂, hbody⟩ := hbody
  refine ⟨e₁ ++ e₂, ?_⟩
  exact (Mirrors.objectAs hid "messageId" "messageId").bind
    ((Mirrors.object hbody "body" "body").map (Value.message id))

end Wireform

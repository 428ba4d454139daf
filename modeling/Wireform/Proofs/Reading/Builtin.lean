import Wireform.Proofs.Reading.Fields
import Wireform.Proofs.Reading.Object
import Wireform.Proofs.Frame.Grammar

/-!
The readers of the built-in formats parse the contents that the grammar has for
them. For formats of one class that is their one field; the number of a type in
front of a constant or a packet is accepted exactly if it is registered. The
parts of a packet are counted down by a loop that the grammar sees as a row.
-/

namespace Wireform.Reader

open Bench

variable {d : Dialect} {levels : Nat} {object : String → Action Bench Value}
  {R : Value → List UInt8 → Prop}

/-! ### Single requests -/

@[simp] theorem run_byte : Reading.byte.run (answer d object) = Bench.onBuffer Buffer.readByte :=
  Plan.run_request Request.byte

@[simp] theorem run_short : Reading.short.run (answer d object) = Bench.onBuffer Buffer.readShort :=
  Plan.run_request Request.short

@[simp] theorem run_char : Reading.char.run (answer d object) = Bench.onBuffer readChar :=
  Plan.run_request Request.char

@[simp] theorem run_int : Reading.int.run (answer d object) = Bench.onBuffer Buffer.readInt :=
  Plan.run_request Request.int

@[simp] theorem run_float : Reading.float.run (answer d object) = Bench.onBuffer Buffer.readFloat :=
  Plan.run_request Request.float

@[simp] theorem run_long : Reading.long.run (answer d object) = Bench.onBuffer Buffer.readLong :=
  Plan.run_request Request.long

@[simp] theorem run_double :
    Reading.double.run (answer d object) = Bench.onBuffer Buffer.readDouble :=
  Plan.run_request Request.double

@[simp] theorem run_text : Reading.text.run (answer d object) = Bench.onScratch Text.read :=
  Plan.run_request Request.text

@[simp] theorem run_bool : Reading.bool.run (answer d object) = Bench.onBuffer Buffer.readBool :=
  Plan.run_request Request.bool

@[simp] theorem run_typeId : Reading.typeId.run (answer d object) = Bench.onBuffer (readTypeId d) :=
  Plan.run_request Request.typeId

@[simp] theorem run_bytes (n : Nat) :
    (Reading.bytes n).run (answer d object) = Bench.onBuffer (Buffer.readBytes n) :=
  Plan.run_request (Request.bytes n)

@[simp] theorem run_block (n : Nat) :
    (Reading.block n).run (answer d object) = Bench.onBuffer (readBlock n) :=
  Plan.run_request (Request.block n)

@[simp] theorem run_object (name : String) :
    (Reading.object name).run (answer d object) = object name :=
  Plan.run_request (Request.object name)

@[simp] theorem run_objectAs (c : Class) (name : String) :
    (Reading.objectAs c name).run (answer d object) =
      object name >>= fun v => Action.lift (v.expect c) :=
  Plan.run_request (Request.objectAs c name)

/-! ### Fields of one class -/

theorem parses_readTypeId (d : Dialect) : Parses Source.buffer (readTypeId d)
    fun id e => (∃ entry, d.types.byId? id = some entry) ∧ e = id.word := by
  refine (Buffer.parses_readShort.bind fun raw _ _ =>
    Parses.option (o := d.types.byId? ⟨raw⟩) (V := fun _ id e => id = TypeId.mk raw ∧ e = [])
      (fun entry hentry => ?_) fun hentry => ?_).congr fun id e => ?_
  · simp only [hentry]
    exact Parses.pure Source.buffer _
  · simp only [hentry]
    exact Parses.fail rfl
  · constructor
    · rintro ⟨raw, _, _, rfl, ⟨entry, hentry, rfl, rfl⟩, rfl⟩
      exact ⟨⟨entry, hentry⟩, List.append_nil _⟩
    · rintro ⟨⟨entry, hentry⟩, rfl⟩
      exact ⟨id.raw, _, [], rfl, ⟨entry, hentry, rfl, rfl⟩, (List.append_nil _).symm⟩

theorem parses_readEntry (d : Dialect) :
    Parses (Source.bench levels) (d.types.readEntry.run (answer d object))
      fun entry e => ∃ id, d.types.byId? id = some entry ∧ e = id.word := by
  simp only [TypeTable.readEntry, Plan.run_bind, run_typeId]
  refine ((parses_onBuffer (parses_readTypeId d)).bind fun id _ _ =>
    Parses.option (o := d.types.byId? id) (V := fun c entry e => entry = c ∧ e = [])
      (fun entry hentry => ?_) fun hentry => ?_).congr fun entry e => ?_
  · simp only [hentry, Plan.run_pure]
    exact Parses.pure (Source.bench levels) entry
  · simp only [hentry, Plan.run_refuse]
    exact Parses.fail rfl
  · constructor
    · rintro ⟨id, _, _, ⟨-, rfl⟩, ⟨entry, hentry, rfl, rfl⟩, rfl⟩
      exact ⟨id, hentry, List.append_nil _⟩
    · rintro ⟨id, hentry, rfl⟩
      exact ⟨id, _, [], ⟨⟨entry, hentry⟩, rfl⟩, ⟨entry, hentry, rfl, rfl⟩,
        (List.append_nil _).symm⟩

theorem parses_field {α : Type} {act : Action Bench α} {g : α → Value} {W : α → List UInt8 → Prop}
    {b : Builtin} (h : Parses (Source.bench levels) act W)
    (hW : ∀ v e, Leaf d.types b v e ↔ ∃ a, v = g a ∧ W a e) :
    Parses (Source.bench levels) (g <$> act) (Leaf d.types b) :=
  h.map.congr fun v e => (hW v e).symm

/-- A format whose leaves are the forms of one field, each value with one form. -/
theorem parses_fixed {α : Type} {reading : Reading α} {act : Action Buffer α} {g : α → Value}
    {bytes : α → List UInt8} {b : Builtin} (hrun : reading.run (answer d object) = onBuffer act)
    (hact : Parses Source.buffer act fun a e => e = bytes a)
    (hleaf : ∀ a, Leaf d.types b (g a) (bytes a))
    (honly : ∀ v e, Leaf d.types b v e → ∃ a, v = g a ∧ e = bytes a) :
    Parses (Source.bench levels) ((g <$> reading).run (answer d object)) (Leaf d.types b) := by
  rw [Plan.run_map, hrun]
  refine parses_field (parses_onBuffer hact) fun v e => ⟨honly v e, ?_⟩
  rintro ⟨a, rfl, rfl⟩
  exact hleaf a

theorem parses_block :
    Parses (Source.bench levels) (Builtin.readBlock.run (answer d object))
      fun data e => data.length ≤ Builtin.maxBlock ∧
        e = BigEndian.encode 4 data.length ++ data := by
  simp only [Builtin.readBlock, Plan.run_bind, run_int, Plan.refuse_bind, Plan.run_ite, run_block,
    Plan.run_refuse]
  refine ((parses_onBuffer Buffer.parses_readInt).bind fun v _ _ => Parses.unless rfl fun _ =>
    parses_onBuffer (parses_readBlock v.toInt.toNat)).congr fun data e => ?_
  constructor
  · rintro ⟨v, _, _, rfl, ⟨hpos, rfl, hlen⟩, rfl⟩
    refine ⟨hlen ▸ Length.toNat_toInt_le v, ?_⟩
    rw [hlen, Length.toNat_toInt (Int.not_lt.mp hpos)]
  · rintro ⟨hle, rfl⟩
    have hv := Length.toInt_ofNat hle
    refine ⟨Int32.ofNat data.length, _, _, by rw [Length.toUInt32_ofNat hle],
      ⟨by rw [hv]; omega, rfl, by rw [hv]; rfl⟩, rfl⟩

/-- The formats of one class, but for messages. -/
theorem parses_leaf {b : Builtin} (hb : b.class?.isSome) (hm : b ≠ .message) :
    Parses (Source.bench levels) ((b.read d.types).run (answer d object)) (Leaf d.types b) := by
  cases b with
  | byte =>
      refine parses_fixed run_byte Buffer.parses_readByte .byte ?_
      rintro _ _ ⟨⟩
      exact ⟨_, rfl, rfl⟩
  | short =>
      refine parses_fixed run_short Buffer.parses_readShort .short ?_
      rintro _ _ ⟨⟩
      exact ⟨_, rfl, rfl⟩
  | char =>
      simp only [Builtin.read, Plan.run_map, run_char]
      refine parses_field (parses_onBuffer parses_readChar) fun v e => ⟨?_, ?_⟩
      · intro h
        cases h with
        | char hc => exact ⟨_, rfl, hc, rfl⟩
      · rintro ⟨c, rfl, hc, rfl⟩
        exact .char hc
  | int =>
      refine parses_fixed run_int Buffer.parses_readInt .int ?_
      rintro _ _ ⟨⟩
      exact ⟨_, rfl, rfl⟩
  | float =>
      refine parses_fixed run_float Buffer.parses_readFloat .float ?_
      rintro _ _ ⟨⟩
      exact ⟨_, rfl, rfl⟩
  | long =>
      refine parses_fixed run_long Buffer.parses_readLong .long ?_
      rintro _ _ ⟨⟩
      exact ⟨_, rfl, rfl⟩
  | double =>
      refine parses_fixed run_double Buffer.parses_readDouble .double ?_
      rintro _ _ ⟨⟩
      exact ⟨_, rfl, rfl⟩
  | text =>
      simp only [Builtin.read, Plan.run_map, run_text]
      refine parses_field (parses_onScratch fun _ => Text.parses_read) fun v e => ⟨?_, ?_⟩
      · intro h
        cases h with
        | text hs => exact ⟨_, rfl, hs⟩
      · rintro ⟨s, rfl, hs⟩
        exact .text hs
  | bytes =>
      simp only [Builtin.read, Plan.run_map]
      refine parses_field parses_block fun v e => ⟨?_, ?_⟩
      · intro h
        cases h with
        | bytes hlen => exact ⟨_, rfl, hlen, rfl⟩
      · rintro ⟨data, rfl, hlen, rfl⟩
        exact .bytes hlen
  | bool =>
      refine parses_fixed run_bool Buffer.parses_readBool .bool ?_
      rintro _ _ ⟨⟩
      exact ⟨_, rfl, rfl⟩
  | identifier =>
      simp only [Builtin.read, Plan.run_map, run_bytes]
      refine parses_field (parses_onBuffer (Buffer.parses_take _ Identifier.size))
        fun v e => ⟨?_, ?_⟩
      · intro h
        cases h with
        | identifier id =>
            exact ⟨_, by rw [Identifier.ofBytes_toBytes], rfl, BigEndian.length_encode _ _⟩
      · rintro ⟨data, rfl, rfl, hlen⟩
        have hleaf : Leaf d.types _ _ _ := .identifier (Identifier.ofBytes data)
        rwa [Identifier.toBytes_ofBytes hlen] at hleaf
  | message => exact absurd rfl hm
  | enumeration => cases hb
  | packet => cases hb
  | structured => cases hb

/-! ### Constants -/

theorem parses_constant :
    Parses (Source.bench levels) ((Builtin.readConstant d.types).run (answer d object))
      (Leaf d.types .enumeration) := by
  simp only [Builtin.readConstant, Plan.run_bind]
  refine ((parses_readEntry d).bind (V := fun entry v e => ∃ constants name,
    entry.kind = .enumeration constants ∧ constants.ofName name = some v ∧ Text.Form name e)
    fun entry _ _ => ?_).congr fun v e => ?_
  · cases entry.kind with
    | enumeration constants =>
        simp only [Plan.run_bind, run_text]
        refine ((parses_onScratch fun _ => Text.parses_read).bind fun name _ _ =>
          Parses.option (o := constants.ofName name) (V := fun c v e => v = c ∧ e = [])
            (fun v hv => ?_) fun hv => ?_).congr fun v e => ?_
        · simp only [hv]
          exact Parses.pure _ v
        · simp only [hv]
          exact Parses.fail rfl
        · constructor
          · rintro ⟨name, _, _, hname, ⟨_, hv, rfl, rfl⟩, rfl⟩
            exact ⟨constants, name, rfl, hv, by rwa [List.append_nil]⟩
          · rintro ⟨_, name, ⟨rfl⟩, hv, hname⟩
            exact ⟨name, e, [], hname, ⟨v, hv, rfl, rfl⟩, (List.append_nil e).symm⟩
    | _ =>
        exact (Parses.fail rfl).congr fun v e => by
          simp only [reduceCtorEq, false_and, exists_false]
  · constructor
    · rintro ⟨entry, _, _, ⟨id, hentry, rfl⟩, ⟨constants, name, hkind, hv, hname⟩, rfl⟩
      exact .constant hentry hkind hv hname
    · intro h
      cases h with
      | constant hentry hkind hv hname =>
          exact ⟨_, _, _, ⟨_, hentry, rfl⟩, ⟨_, _, hkind, hv, hname⟩, rfl⟩

/-! ### Objects inside objects -/

section Nested

variable (hobject : ∀ name, Parses (Source.bench levels) (object name) R)

include hobject

theorem parses_objectAs (c : Class) (name : String) :
    Parses (Source.bench levels) ((Reading.objectAs c name).run (answer d object))
      fun v e => R v e ∧ v.classOf = c := by
  rw [run_objectAs]
  refine ((hobject name).bind (V := fun v w e => v.classOf = c ∧ w = v ∧ e = [])
    fun v _ _ => ?_).congr fun v e => ?_
  · unfold Value.expect
    by_cases hc : v.classOf = c
    · rw [if_pos hc]
      exact (Parses.pure _ v).congr fun w e => by simp only [hc, true_and]
    · rw [if_neg hc]
      exact (Parses.fail rfl).congr fun w e => by simp only [hc, false_and]
  · constructor
    · rintro ⟨v, _, _, hv, ⟨hc, rfl, rfl⟩, rfl⟩
      exact ⟨by rwa [List.append_nil], hc⟩
    · rintro ⟨hv, hc⟩
      exact ⟨v, e, [], hv, ⟨hc, rfl, rfl⟩, (List.append_nil e).symm⟩

theorem parses_message :
    Parses (Source.bench levels) (Builtin.readMessage.run (answer d object))
      (Content d.types R .message) := by
  simp only [Builtin.readMessage, Plan.run_bind]
  refine ((parses_objectAs hobject .identifier "messageId").bind (V := fun v w e => ∃ id body,
    v = .identifier id ∧ w = .message id body ∧ R body e) fun v _ hv => ?_).congr fun v e => ?_
  · cases v with
    | identifier id =>
        simp only [Plan.run_bind, run_object, Plan.run_pure]
        refine (hobject "body").map.congr fun v e => ?_
        constructor
        · rintro ⟨body, rfl, hbody⟩
          exact ⟨id, body, rfl, rfl, hbody⟩
        · rintro ⟨_, body, ⟨rfl⟩, rfl, hbody⟩
          exact ⟨body, rfl, hbody⟩
    | _ => exact absurd hv.2 (by simp only [Value.classOf, reduceCtorEq, not_false_eq_true])
  · constructor
    · rintro ⟨_, _, _, ⟨hid, -⟩, ⟨id, body, rfl, rfl, hbody⟩, rfl⟩
      exact .message hid hbody
    · intro h
      cases h with
      | leaf h => cases h
      | message hid hbody => exact ⟨_, _, _, ⟨hid, rfl⟩, ⟨_, _, rfl, rfl, hbody⟩, rfl⟩

theorem parses_entries (count : Nat) (entries : Entries) :
    Parses (Source.bench levels) ((Packet.readEntries count entries).run (answer d object))
      fun w e => ∃ parts, parts.length = count ∧ Parts R parts e ∧
        w = entries.insertAll parts := by
  induction count generalizing entries with
  | zero =>
      refine (Parses.pure _ entries).congr fun w e => ?_
      constructor
      · rintro ⟨rfl, rfl⟩
        exact ⟨[], rfl, .nil, rfl⟩
      · rintro ⟨parts, hlen, hparts, rfl⟩
        cases List.length_eq_zero_iff.mp hlen
        cases hparts
        exact ⟨rfl, rfl⟩
  | succ count ih =>
      simp only [Packet.readEntries, Plan.run_bind, run_text, run_object]
      refine ((parses_onScratch fun _ => Text.parses_read).bind fun key _ _ =>
        (hobject key).bind fun v _ _ => ih (entries.insert key v)).congr fun w e => ?_
      constructor
      · rintro ⟨key, _, _, hkey, ⟨v, _, _, hv, ⟨parts, hlen, hparts, rfl⟩, rfl⟩, rfl⟩
        exact ⟨(key, v) :: parts, by rw [List.length_cons, hlen], .cons hkey hv hparts, rfl⟩
      · rintro ⟨_, hlen, hparts, rfl⟩
        cases hparts with
        | nil => cases hlen
        | cons hkey hv hparts =>
            exact ⟨_, _, _, hkey, ⟨_, _, _, hv, ⟨_, Nat.succ.inj hlen, hparts, rfl⟩, rfl⟩, rfl⟩

theorem parses_packetBody (name : String) :
    Parses (Source.bench levels) ((Packet.read name).run (answer d object))
      fun v e => ∃ parts wire, parts.length ≤ Packet.maxEntries ∧ Parts R parts wire ∧
        v = .packet name (Entries.ofList parts) ∧
        e = BigEndian.encode 4 parts.length ++ wire := by
  simp only [Packet.read, Plan.run_bind, run_int, Plan.refuse_bind, Plan.run_ite, Plan.run_refuse,
    Plan.run_pure]
  refine ((parses_onBuffer Buffer.parses_readInt).bind fun v _ _ => Parses.unless rfl fun _ =>
    (parses_entries hobject v.toInt.toNat []).map).congr fun v e => ?_
  constructor
  · rintro ⟨v, _, wire, rfl, ⟨hpos, _, rfl, parts, hlen, hparts, rfl⟩, rfl⟩
    refine ⟨parts, wire, hlen ▸ Length.toNat_toInt_le v, hparts, rfl, ?_⟩
    rw [hlen, Length.toNat_toInt (Int.not_lt.mp hpos)]
  · rintro ⟨parts, wire, hle, hparts, rfl, rfl⟩
    have hv := Length.toInt_ofNat hle
    refine ⟨Int32.ofNat parts.length, _, _, by rw [Length.toUInt32_ofNat hle],
      ⟨by rw [hv]; omega, _, rfl, parts, by rw [hv]; rfl, hparts, rfl⟩, rfl⟩

theorem parses_packed :
    Parses (Source.bench levels) ((Reading.text >>= Packet.read).run (answer d object))
      (Packed R) := by
  rw [Plan.run_bind, run_text]
  refine ((parses_onScratch fun _ => Text.parses_read).bind fun name _ _ =>
    parses_packetBody hobject name).congr fun v e => ?_
  constructor
  · rintro ⟨name, _, _, hname, ⟨parts, wire, hle, hparts, rfl, rfl⟩, rfl⟩
    exact .intro hname hle hparts
  · rintro ⟨hname, hle, hparts⟩
    exact ⟨_, _, _, hname, ⟨_, _, hle, hparts, rfl, rfl⟩, rfl⟩

end Nested

end Wireform.Reader

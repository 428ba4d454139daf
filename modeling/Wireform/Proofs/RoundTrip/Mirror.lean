import Wireform.Proofs.Reading.Frame
import Wireform.Proofs.Writing.Object

/-!
Writing and reading side by side. That the bytes `e` carry a value is said in
two halves, one for the writer and one for the reader: wherever there is room
the writer of objects emits them, and wherever they stand the reader of objects
yields the value from them. Both halves hold for any number of levels from some
number on, so an object can be put inside others.

What objects are for their frames, mirrors are for contents. A script and a
reading mirror each other over some bytes if the one emits them and the other
yields a value from them, when both know how to deal with objects. If a value
is sent to a built-in format, a mirror for its script and its reading is all
that it takes for the value to be carried.
-/

namespace Wireform

/-- The bytes `e` carry the value `v` as an object. -/
structure Carries (d : Dialect) (levels : Nat) (v : Value) (e : List UInt8) : Prop where
  emits : ∀ m, levels ≤ m → ∀ name,
    Emits (Sink.bench d m) (Writer.writeObject d m name v) e
  yields : ∀ m, levels ≤ m → ∀ name,
    Yields (Source.bench m) (Reader.readObject d m name) e v

def Travels (d : Dialect) (levels : Nat) (v : Value) : Prop := ∃ e, Carries d levels v e

/-- The script emits the bytes `e`, from which the reading yields `a`. -/
structure Mirrors {α : Type} (d : Dialect) (levels : Nat) (script : Script) (reading : Reading α)
    (a : α) (e : List UInt8) : Prop where
  emits : ∀ m, levels ≤ m →
    Emits (Sink.bench d m) (script.run (Writer.writeField d (Writer.writeObject d m))) e
  yields : ∀ m, levels ≤ m →
    Yields (Source.bench m) (reading.run (Reader.answer d (Reader.readObject d m))) e a

namespace Reader

variable {d : Dialect} {levels : Nat} {object : String → Action Bench Value} {b : Builtin}
  {v : Value} {e rest : List UInt8}

theorem yields_id (id : TypeId) :
    Yields (Source.bench levels) (Bench.onBuffer Buffer.readShort) id.word id.raw :=
  ((Bench.parses_onBuffer Buffer.parses_readShort).spells id.raw _ rfl).yields

theorem yields_readBody (hroute : d.route? b.id = some (Dialect.builtinRoute b))
    (h : Yields (Source.bench levels) ((b.read d.types).run (answer d object)) e v) :
    Yields (Source.bench levels) (readBody d object) (b.id.word ++ e) v := by
  refine (yields_id b.id).bind ?_
  simp only
  rw [show d.route? ⟨b.id.raw⟩ = _ from hroute]
  exact h

theorem consumes_describeNext {s : Bench} (hroute : d.route? b.id = some (Dialect.builtinRoute b))
    (hs : Bench.Ready levels s) (hin : s.buffer.ahead = b.id.word ++ rest) :
    Bench.Consumes (describeNext d object) s := by
  obtain ⟨t, hread, ht⟩ := yields_id b.id hs hin
  refine Bench.Consumes.bind hread ht ?_
  simp only
  rw [show d.route? ⟨b.id.raw⟩ = _ from hroute]
  exact Bench.consumes_of_reads (reads_describe b) ((Source.bench levels).ready_of_moved hs ht)

end Reader

namespace Mirrors

variable {α β : Type} {d : Dialect} {levels : Nat} {script : Script} {reading : Reading α} {a : α}
  {b : β} {v : Value} {e e' : List UInt8}

theorem pure (a : α) : Mirrors d levels (Pure.pure ()) (Pure.pure a) a [] where
  emits _ _ := Emits.pure _
  yields _ _ := Yields.pure _ a

theorem bind {script' : Unit → Script} {f : α → Reading β}
    (h : Mirrors d levels script reading a e) (h' : Mirrors d levels (script' ()) (f a) b e') :
    Mirrors d levels (script >>= script') (reading >>= f) b (e ++ e') where
  emits m hm := by
    rw [Plan.run_bind]
    exact (h.emits m hm).bind (h'.emits m hm)
  yields m hm := by
    rw [Plan.run_bind]
    exact (h.yields m hm).bind (h'.yields m hm)

/-- A reading may look at what it has read and ask for nothing more. -/
theorem bind_pure {f : α → Reading β} (h : Mirrors d levels script reading a e)
    (hf : f a = Pure.pure b) : Mirrors d levels script (reading >>= f) b e where
  emits := h.emits
  yields m hm := by
    rw [Plan.run_bind, ← List.append_nil e]
    refine (h.yields m hm).bind ?_
    rw [hf]
    exact Yields.pure _ b

theorem map (g : α → β) (h : Mirrors d levels script reading a e) :
    Mirrors d levels script (g <$> reading) (g a) e :=
  h.bind_pure (f := fun a => Pure.pure (g a)) rfl

/-- A field and a request mirror each other if the answer to the one does so to the other. -/
theorem field {f : Field} {r : Request} {a : r.Answer}
    (hemits : ∀ m, levels ≤ m →
      Emits (Sink.bench d m) (Writer.writeField d (Writer.writeObject d m) f) e)
    (hyields : ∀ m, levels ≤ m →
      Yields (Source.bench m) (Reader.answer d (Reader.readObject d m) r) e a) :
    Mirrors d levels (Script.put f) (Plan.request r) a e where
  emits m hm := by
    rw [Script.put, Plan.run_request]
    exact hemits m hm
  yields m hm := by
    rw [Plan.run_request]
    exact hyields m hm

/-- Most fields concern the buffer alone. -/
theorem ofBuffer {f : Field} {r : Request} {a : r.Answer} {write : Action Buffer Unit}
    {read : Action Buffer r.Answer} {W : r.Answer → List UInt8 → Prop}
    (hwrite : ∀ object, Writer.writeField d object f = Bench.onBuffer write)
    (hread : ∀ object, Reader.answer d object r = Bench.onBuffer read)
    (hemits : Emits Sink.buffer write e) (hparses : Parses Source.buffer read W) (ha : W a e) :
    Mirrors d levels (Script.put f) (Plan.request r) a e := by
  refine field (fun m _ => ?_) fun m _ => ?_
  · rw [hwrite]
    exact Bench.emits_onBuffer hemits
  · rw [hread]
    exact ((Bench.parses_onBuffer hparses).spells a e ha).yields

theorem int (v : Int32) :
    Mirrors d levels (Script.put (.int v)) Reading.int v (BigEndian.encode 4 v.toUInt32.toNat) :=
  ofBuffer (r := .int) (fun _ => rfl) (fun _ => rfl) (Buffer.appends_writeInt v).emits
    Buffer.parses_readInt rfl

theorem length {n : Nat} (hn : n ≤ Length.greatest) :
    Mirrors d levels (Script.put (.int (Int32.ofNat n))) Reading.int (Int32.ofNat n)
      (BigEndian.encode 4 n) := by
  have hword : Mirrors d levels (Script.put (.int (Int32.ofNat n))) Reading.int (Int32.ofNat n)
    (BigEndian.encode 4 (Int32.ofNat n).toUInt32.toNat) := int _
  rwa [Length.toUInt32_ofNat hn] at hword

theorem text {s : String} (hs : (Text.bytes s).length ≤ Text.maxLength) :
    Mirrors d levels (Script.put (.text s)) Reading.text s (Text.wire s) := by
  refine field (r := .text) (fun m _ => ?_) fun m _ => ?_
  · exact Bench.emits_onBuffer (Text.appends_write hs).emits
  · have hform := Text.form_wire hs
    exact ((Bench.parses_onScratch fun _ => Text.parses_read).spells s _ hform).yields

theorem object (h : Carries d levels v e) (name name' : String) :
    Mirrors d levels (Script.put (.object name v)) (Reading.object name') v e :=
  field (r := .object name') (fun m hm => h.emits m hm name) fun m hm => h.yields m hm name'

theorem objectAs (h : Carries d levels v e) (name name' : String) :
    Mirrors d levels (Script.put (.object name v)) (Reading.objectAs v.classOf name') v e := by
  refine field (r := .objectAs v.classOf name') (fun m hm => h.emits m hm name) fun m hm => ?_
  rw [← List.append_nil e]
  refine (h.yields m hm name').bind ?_
  rw [Value.expect, if_pos rfl]
  exact Yields.pure (Source.bench m) v

end Mirrors

variable {d : Dialect} {levels : Nat} {b : Builtin} {v : Value} {e : List UInt8}

/-- A reading of a built-in format, with the number of the format in front, is that of an object. -/
theorem Mirrors.yields_readObject (hd : d.Built) {script : Script}
    (h : Mirrors d levels script (b.read d.types) v e) (name : String) {m : Nat} (hm : levels < m) :
    Yields (Source.bench m) (Reader.readObject d m name) (b.id.word ++ e) v := by
  obtain ⟨m, rfl⟩ := Nat.exists_eq_add_of_lt hm
  -- the look ahead sees the same bytes from the same place
  refine Reader.yields_readObject_succ name (fun s rest hs hin => ?_)
    (Reader.yields_readBody (hd.route? b) (h.yields _ (by omega)))
  rw [List.append_assoc] at hin
  exact Reader.consumes_describeNext (hd.route? b) hs hin

/-- A value is carried by the number of its format and what mirrors it there, one level up. -/
theorem Mirrors.carries (hd : d.Built) (hsends : d.Sends v b)
    (h : Mirrors d levels (b.write d.types v) (b.read d.types) v e) :
    Carries d (levels + 1) v (b.id.word ++ e) where
  emits := by
    intro m hm name
    obtain ⟨m, rfl⟩ := Nat.exists_eq_add_of_lt hm
    exact Writer.emits_writeObject_succ (Writer.emits_writeBody name hsends (h.emits _ (by omega)))
  yields _ hm name := h.yields_readObject hd name hm

end Wireform

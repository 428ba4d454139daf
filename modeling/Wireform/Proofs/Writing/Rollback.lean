import Wireform.Codec.Writer
import Wireform.Proofs.Buffer.Appending
import Wireform.Proofs.Opening

/-!
A write can be taken back.

Writing fails in many ways and in the middle of things: for want of room, of
levels or of a format, or because an application's own body breaks off. What it
leaves behind then is what a success would, namely a buffer that has been
appended to, and nothing else. For all that the formats of an application can
do is to ask for fields, at the end of which some bytes are put. So the conduct
of a single put becomes that of all writers, along fields, scripts and objects,
with no regard to their outcome.

Behind a buffer that has been appended to stands what it was before, whole up
to the old writer. It is enough to set the writer back there.
-/

namespace Wireform

/-- What is allowed to the buffer is allowed at a bench, and no failure is out of order. -/
def Conduct.atBench (C : Conduct Buffer) : Conduct Bench where
  Fit s := C.Fit s.buffer
  Moves s t := C.Moves s.buffer t.buffer
  Fails _ := True
  refl := C.refl
  trans := C.trans
  fit := C.fit

theorem Plan.failsIn_true {R : Type} {A : R → Type} {α : Type} (p : Plan A α) :
    p.FailsIn fun _ => True := by
  induction p with
  | done a => exact trivial
  | refuse f => exact trivial
  | ask r next ih => exact ⟨fun a => ih (.ok a), fun f _ => ih (.error f)⟩

section Writers

variable {α : Type} {C : Conduct Buffer}

theorem Obeys.onBuffer {act : Action Buffer α} (h : Obeys C act) :
    Obeys C.atBench (Bench.onBuffer act) :=
  fun _ hs => ⟨(h hs).1, fun _ _ => trivial⟩

theorem Obeys.inside {act : Action Bench α} (h : Obeys C.atBench act) :
    Obeys C.atBench (Bench.inside act) := by
  intro s hs
  obtain ⟨hmoves, -⟩ := h hs
  unfold Bench.inside
  generalize act s = out at hmoves ⊢
  rcases out with ⟨f | a, t⟩
  · exact ⟨hmoves, fun _ _ => trivial⟩
  · exact ⟨hmoves, fun _ _ => trivial⟩

theorem Obeys.of_buffer {act : Action Bench α} (h : ∀ s, (act s).2.buffer = s.buffer) :
    Obeys C.atBench act := by
  intro s hs
  have hsame : C.Moves s.buffer (act s).2.buffer := (h s).symm ▸ C.refl hs
  exact ⟨hsame, fun _ _ => trivial⟩

variable (hput : ∀ operation data, Obeys C (Buffer.put operation data))
  (hplain : ∀ f, f.Plain → C.Fails f) {d : Dialect}

namespace Writer

section Nested

variable {object : String → Value → Action Bench Unit}
  (hobject : ∀ name v, Obeys C.atBench (object name v))

include hput hplain hobject

theorem obeys_writeField (f : Field) : Obeys C.atBench (writeField d object f) := by
  have hflag (v : Bool) : Obeys C.atBench (Bench.onBuffer (Buffer.writeBool v)) :=
    (hput _ _).onBuffer
  cases f with
  | flags v => exact (Compact.Flags.obeys_write hput v).onBuffer
  | char v => exact (obeys_writeChar hput (fun _ => hplain _ (Fault.plain rfl)) v).onBuffer
  | text v => exact (Text.obeys_write hput (fun _ => hplain _ (Fault.plain rfl)) v).onBuffer
  | typeId v =>
      exact (obeys_writeTypeId hput (fun _ => hplain _ (Fault.plain rfl)) d v).onBuffer
  | object name v => exact hobject name v
  | nullable name v =>
      cases v with
      | none => exact hflag false
      | some v => exact (hflag true).bind fun _ => hobject name v
  | _ => exact (hput _ _).onBuffer

theorem obeys_writeBody (name : String) (v : Value) :
    Obeys C.atBench (writeBody d object name v) := by
  refine (Obeys.of_buffer fun s => rfl).bind fun route => ?_
  refine (Obeys.onBuffer (hput _ _)).bind fun _ => ?_
  exact Obeys.run (obeys_writeField hput hplain hobject) (Plan.failsIn_true _)

end Nested

include hput hplain

/-- An object does to the buffer what its fields do, however deep they lie. -/
theorem obeys_writeObject (levels : Nat) (name : String) (v : Value) :
    Obeys C.atBench (writeObject d levels name v) := by
  induction levels generalizing name v with
  | zero => exact .of_buffer fun _ => rfl
  | succ levels ih =>
      refine (Obeys.of_buffer Bench.buffer_enter).bind fun _ => ?_
      refine (Obeys.of_buffer fun _ => rfl).bind fun _ => ?_
      exact (obeys_writeBody hput hplain ih name v).inside

theorem obeys_field (f : Field) : Obeys C.atBench (field d f) :=
  fun s hs => obeys_writeField hput hplain (obeys_writeObject hput hplain s.work.levels) f hs

end Writer

end Writers

namespace Buffer

variable {b b' : Buffer}

theorem setWriter_of_range {index : Nat} (hb : b.Live) (hreader : b.reader ≤ index)
    (hcapacity : index ≤ b.capacity) :
    setWriter index b = (.ok (), { b with writer := index }) := by
  obtain ⟨bytes, hbytes, -, hsize⟩ := hb.storage_eq
  have hset : setWriter index b = _ := Action.bind_of_ok (by rw [storage, hbytes])
  rw [hset, if_neg (by omega)]

/-- In a buffer that has been appended to the writer goes back to where it was. -/
theorem Extends.setWriter (h : b.Extends b') (hreader : b'.reader = b.reader) (hb : b.Live) :
    Buffer.setWriter b.writer b' = (.ok (), { b' with writer := b.writer }) := by
  have hcursors := hb.reader_le_writer
  have hwriter := hb.writer_le_capacity
  have hcapacity := h.capacity
  exact setWriter_of_range (h.live hb) (by omega) (by omega)

/-- And there it has before it the bytes that it had. -/
theorem Extends.toBytes (h : b.Extends b') (hreader : b'.reader = b.reader) (hb : b.Live) :
    (Buffer.toBytes { b' with writer := b.writer }).1 = .ok b.ahead := by
  have hcursors := hb.reader_le_writer
  have hwriter := hb.writer_le_capacity
  have hcapacity := h.capacity
  have hlive : Live { b' with writer := b.writer } :=
    ⟨(h.live hb).present, hreader ▸ hcursors, Nat.le_trans hwriter hcapacity,
      (h.live hb).capacity_le_limit⟩
  rw [toBytes_of_live hlive, ahead, ahead, ← h.take_content hb, ← hreader]
  rfl

/-- Whatever has been appended to `b`, of which `b'` has come, can be taken back. -/
structure Restorable (b b' : Buffer) : Prop where
  live : b'.Live
  reader : b'.reader = b.reader
  limit : b'.limit = b.limit
  writer : b.writer ≤ b'.writer
  kept : b'.content.take b.writer = b.content.take b.writer
  restored : ∃ b'' bytes, Buffer.setWriter b.writer b' = (.ok (), b'') ∧
    (Buffer.toBytes b).1 = .ok bytes ∧ (Buffer.toBytes b'').1 = .ok bytes

end Buffer

/-- Whatever comes of writing a field to a live buffer, the bytes in front of the old writer are
kept, and with the writer set back there the buffer has the bytes to be read that it had before. -/
theorem Writer.field_rolled_back (d : Dialect) (f : Field) {s : Bench} (hb : s.buffer.Live) :
    s.buffer.Restorable (field d f s).2.buffer := by
  obtain ⟨hextends, hreader⟩ : s.buffer.Extends (field d f s).2.buffer ∧
      (field d f s).2.buffer.reader = s.buffer.reader :=
    (obeys_field (C := Conduct.appending) Buffer.appending_put (fun _ hf => hf) f hb.valid).1
  exact {
    live := hextends.live hb
    reader := hreader
    limit := hextends.limit
    writer := hextends.writer
    kept := hextends.take_content hb
    restored := ⟨_, s.buffer.ahead, hextends.setWriter hreader hb,
      by rw [Buffer.toBytes_of_live hb], hextends.toBytes hreader hb⟩ }

/-- Of a packet with two entries the second cannot be written. Of the first and of all that stands
in front of the second there are 49 bytes, for which the storage had to grow. -/
theorem Writer.field_rolled_back_midway : ∃ d, Dialect.build { registry := {} } = .ok d ∧
    let v := Value.packet "p" [("a", .int 1), ("b", .char '😀')]
    let s : Bench := ⟨Buffer.ofBytes [1, 2, 3], Workspace.fresh [0] true 8, d.memo⟩
    let out := field d (.object "v" v) s
    s.buffer.Live ∧ out.1.isOk = false ∧ out.2.buffer.writer = 3 + 49 ∧
      ∃ b, Buffer.setWriter 3 out.2.buffer = (.ok (), b) ∧ (Buffer.toBytes b).1 = .ok [1, 2, 3] := by
  obtain ⟨d, hd⟩ : ∃ d, Dialect.build { registry := {} } = .ok d := ⟨_, rfl⟩
  refine ⟨d, hd, ?_⟩
  intro v s out
  have hlive : s.buffer.Live := Buffer.live_ofBytes [1, 2, 3]
  obtain ⟨b, bytes, hset, hbefore, hafter⟩ := (field_rolled_back d (.object "v" v) hlive).restored
  have hbytes : bytes = [1, 2, 3] := Except.ok.inj (hbefore.symm.trans rfl)
  have hout : out.1.isOk = false ∧ out.2.buffer.writer = 3 + 49 := by
    cases hd
    decide +kernel
  exact ⟨hlive, hout.1, hout.2, b, hset, hbytes ▸ hafter⟩

end Wireform

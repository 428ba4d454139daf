import Wireform.Proofs.RoundTrip.Portable
import Wireform.Sample.Formats

/-!
The round trip of objects, as a caller of the writer and the reader sees it.
Both are started with all the levels that their workspaces have left, and what
holds with so many levels from some number on holds of them, if at least that
many are left.
-/

namespace Wireform

variable {d : Dialect} {levels : Nat} {v : Value} {e : List UInt8}

theorem Writer.emits_field {f : Field}
    (h : ∀ m, levels ≤ m → Emits (Sink.bench d m) (writeField d (writeObject d m) f) e) :
    Emits (Sink.bench d levels) (field d f) e := by
  intro s hs hroom
  exact h s.work.levels hs.levels ⟨hs.live, Nat.le_refl _, hs.memo⟩ hroom

theorem Reader.yields_request {r : Request} {a : r.Answer}
    (h : ∀ m, levels ≤ m → Yields (Source.bench m) (answer d (readObject d m) r) e a) :
    Yields (Source.bench levels) (request d r) e a := by
  intro s rest hs hin
  exact h s.work.levels hs.levels ⟨hs.live, hs.scratch, Nat.le_refl _⟩ hin

theorem Reader.yields_flag (v : Bool) :
    Yields (Source.bench levels) (Bench.onBuffer Buffer.readBool) (BigEndian.encode 1 v.toNat) v :=
  ((Bench.parses_onBuffer Buffer.parses_readBool).spells v _ rfl).yields

namespace Carries

variable (h : Carries d levels v e) (name : String)

include h

theorem emits_object : Emits (Sink.bench d levels) (Writer.object d name v) e :=
  Writer.emits_field (f := .object name v) fun m hm => h.emits m hm name

theorem yields_object : Yields (Source.bench levels) (Reader.object d name) e v :=
  Reader.yields_request (r := .object name) fun m hm => h.yields m hm name

theorem emits_nullable :
    Emits (Sink.bench d levels) (Writer.field d (.nullable name (some v))) (1 :: e) := by
  refine Writer.emits_field fun m hm => ?_
  have hflag : Emits (Sink.bench d m) (Bench.onBuffer (Buffer.writeBool true)) [1] :=
    Bench.emits_onBuffer (Buffer.appends_writeBool true).emits
  exact hflag.bind (h.emits m hm name)

theorem yields_nullable :
    Yields (Source.bench levels) (Reader.request d (.nullable name)) (1 :: e) (some v) := by
  refine Reader.yields_request fun m hm => ?_
  exact (Reader.yields_flag true).bind ((h.yields m hm name).map some)

end Carries

theorem Writer.emits_absent (name : String) :
    Emits (Sink.bench d levels) (field d (.nullable name none)) [0] :=
  emits_field fun _ _ => Bench.emits_onBuffer (Buffer.appends_writeBool false).emits

theorem Reader.yields_absent (name : String) :
    Yields (Source.bench levels) (request d (.nullable name)) [0] none := by
  refine yields_request fun m _ => ?_
  exact (yields_flag false).bind (Yields.pure (Source.bench m) none)

/-- In every dialect that can be built a portable value is written as the same bytes wherever they
are put, and read back from them whatever follows. -/
theorem Portable.round_trip {p : Dialect.Blueprint} (hd : Dialect.build p = .ok d)
    (hv : Portable d levels v) :
    ∃ e, ∀ name,
      Emits (Sink.bench d levels) (Writer.object d name v) e ∧
      Yields (Source.bench levels) (Reader.object d name) e v ∧
      Emits (Sink.bench d levels) (Writer.field d (.nullable name (some v))) (1 :: e) ∧
      Yields (Source.bench levels) (Reader.request d (.nullable name)) (1 :: e) (some v) ∧
      Emits (Sink.bench d levels) (Writer.field d (.nullable name none)) [0] ∧
      Yields (Source.bench levels) (Reader.request d (.nullable name)) [0] none := by
  obtain ⟨e, he⟩ := hv.travels (Dialect.Built.of_build hd)
  exact ⟨e, fun name => ⟨he.emits_object name, he.yields_object name, he.emits_nullable name,
    he.yields_nullable name, Writer.emits_absent name, Reader.yields_absent name⟩⟩

/-! A message with a packet in it, which holds a constant and two values with bodies, in a dialect
with a format of its own. -/

namespace Sample

def blueprint : Dialect.Blueprint where
  registry := registry declarations
  roster := ⟨["demo::Level", "demo::Volatile", "demo::Note"]⟩
  custom := [(hotSelector .accept, celsiusFormat (some (TypeId.ofInt 1)))]

def high : Value := make "Level" [("v", .text "High")]

def mark : Value := make "Volatile" [("tag", .text "mark")]

def note : Value := make "Note" [("name", .text "note"), ("text", .text "text")]

def parcel : Value :=
  .message ⟨7⟩ (.packet "parcel" [("high", high), ("mark", mark), ("note", note)])

theorem portable_parcel {d : Dialect} (hd : Dialect.build blueprint = .ok d) :
    Portable d 3 parcel := by
  cases hd
  refine .message (.packet (by decide) (by decide) (by decide) (by decide) ?_)
  simp only [List.forall_mem_cons, List.not_mem_nil, false_imp_iff, implies_true, and_true]
  refine ⟨?_, ?_, ?_⟩
  · exact .constant rfl rfl rfl (by decide) rfl
  · refine .structured rfl rfl (List.forall_mem_nil _) fun _ => ⟨Text.wire "mark", ?_⟩
    exact (Mirrors.text (by decide)).bind_pure rfl
  · refine .named rfl rfl rfl (by decide) (List.forall_mem_nil _) fun _ => ⟨Text.wire "text", ?_⟩
    exact (Mirrors.text (by decide)).bind_pure rfl

end Sample

theorem Portable.round_trip_parcel :
    ∃ d, Dialect.build Sample.blueprint = .ok d ∧ Portable d 3 Sample.parcel ∧ ∃ e, ∀ name,
      Emits (Sink.bench d 3) (Writer.object d name Sample.parcel) e ∧
      Yields (Source.bench 3) (Reader.object d name) e Sample.parcel := by
  refine ⟨_, rfl, Sample.portable_parcel rfl, ?_⟩
  obtain ⟨e, he⟩ := Portable.round_trip (p := Sample.blueprint) rfl (Sample.portable_parcel rfl)
  exact ⟨e, fun name => ⟨(he name).1, (he name).2.1⟩⟩

end Wireform

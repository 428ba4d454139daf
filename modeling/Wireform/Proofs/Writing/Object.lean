import Wireform.Proofs.Frame.Grammar
import Wireform.Proofs.Dialect.Dispatch
import Wireform.Proofs.Opening
import Wireform.Proofs.Writing.Text

/-!
A bench as a sink, and what it costs to open an object on it for writing. The
memo of a bench may change while it is written to, since finding a format is
remembered, but it never leaves the memos that the dialect can get to.

An object whose value is sent to a built-in format emits the number of that
format and then whatever the format's script emits, one level down.
-/

namespace Wireform

namespace Bench

/-- The bench can be written to, with at least the given number of levels. -/
structure Writable (d : Dialect) (levels : Nat) (s : Bench) : Prop where
  live : s.buffer.Live
  levels : levels ≤ s.work.levels
  memo : d.Reaches s.memo

/-- The second bench is the first after bytes have been appended. -/
structure Grown (d : Dialect) (s : Bench) (e : List UInt8) (t : Bench) : Prop where
  buffer : s.buffer.Appended e t.buffer
  work : t.work = s.work
  memo : d.Reaches s.memo → d.Reaches t.memo

end Bench

/-- A bench with levels left, as far as its buffer may grow. -/
def Sink.bench (d : Dialect) (levels : Nat) : Sink Bench where
  Ready := Bench.Writable d levels
  room s := s.buffer.writableBytes
  Grown := Bench.Grown d
  ready_of_grown := fun hs h => ⟨h.buffer.live, h.work ▸ hs.levels, h.memo hs.memo⟩
  grown_nil := fun hs => ⟨Buffer.Appended.refl hs.live, rfl, fun h => h⟩
  grown_append := fun h h' =>
    ⟨h.buffer.trans h'.buffer, h'.work.trans h.work, fun hm => h'.memo (h.memo hm)⟩
  room_of_grown := fun h => Sink.buffer.room_of_grown h.buffer

variable {d : Dialect} {levels : Nat} {e : List UInt8} {v : Value} {b : Builtin}

namespace Bench

theorem emits_onBuffer {act : Action Buffer Unit} (h : Emits Sink.buffer act e) :
    Emits (Sink.bench d levels) (onBuffer act) e := by
  intro s hs hroom
  obtain ⟨b, hact, hb⟩ := h hs.live hroom
  exact ⟨⟨b, s.work, s.memo⟩, by simp only [onBuffer, hact], hb, rfl, fun hm => hm⟩

theorem appends_onBuffer {act : Action Buffer Unit} (h : Appends Sink.buffer act e) :
    Appends (Sink.bench d levels) (onBuffer act) e where
  emits := emits_onBuffer h.emits
  overflows := by
    intro s hs hfull
    obtain ⟨f, b, part, rest, hact, hf, hb, he, hne⟩ := h.overflows hs.live hfull
    exact ⟨f, ⟨b, s.work, s.memo⟩, part, rest, by simp only [onBuffer, hact], hf,
      ⟨hb, rfl, fun hm => hm⟩, he, hne⟩

/-- With an object open on it a bench can be written to as before, one level down. -/
theorem Writable.opened {s : Bench} (hs : Writable d (levels + 1) s) (frame : String) :
    Writable d levels ⟨s.buffer, s.entered.work.push frame, s.memo⟩ := by
  have hopened := opened_push hs.levels (rfl : s.work.scratch.length = _) frame
  have hused : (s.entered.work.push frame).levels + 1 = s.work.levels := hopened.levels
  have hle := hs.levels
  exact ⟨hs.live, by simp only; omega, hs.memo⟩

/-- When the object is closed again, the bytes inside it are all that is left of it. -/
theorem Grown.closed {s t : Bench} {frame : String} (hlevels : levels + 1 ≤ s.work.levels)
    (h : Grown d ⟨s.buffer, s.entered.work.push frame, s.memo⟩ e t) :
    Grown d s e { t with work := t.work.leave } := by
  have hopened := opened_push hlevels (rfl : s.work.scratch.length = _) frame
  refine ⟨h.buffer, ?_, h.memo⟩
  show t.work.leave = s.work
  rw [h.work]
  refine hopened.work.trans ?_
  show ({ s.work with scratch := (s.entered.work.push frame).scratch } : Workspace) = _
  rw [Workspace.scratch_push]
  rfl

end Bench

namespace Writer

variable {object : String → Value → Action Bench Unit}

/-- What is left to be written of a body once the way of its value has been found. -/
def routed (d : Dialect) (object : String → Value → Action Bench Unit) (b : Builtin) (v : Value) :
    Action Bench Unit := do
  Bench.onBuffer (Buffer.writeShort b.id.raw)
  (b.write d.types v).run (writeField d object)

/-- Looking for the way of a value may change the memo, but not the way that is found. -/
theorem writeBody_of_sends (object : String → Value → Action Bench Unit) (name : String)
    (hsends : d.Sends v b) {s : Bench} (hs : d.Reaches s.memo) :
    ∃ m, d.Reaches m ∧ writeBody d object name v s = routed d object b v ⟨s.buffer, s.work, m⟩ := by
  obtain ⟨m, hm, hreaches⟩ := hsends s.memo hs
  have hroute : Bench.onMemo (d.dispatch v) s =
      (.ok (Dialect.builtinRoute b), ⟨s.buffer, s.work, m⟩) := by
    simp only [Bench.onMemo, hm]
  exact ⟨m, hreaches, by rw [writeBody, Action.bind_of_ok hroute]; rfl⟩

theorem emits_of_routed (name : String) (hsends : d.Sends v b)
    (h : Emits (Sink.bench d levels) (routed d object b v) e) :
    Emits (Sink.bench d levels) (writeBody d object name v) e := by
  intro s hs hroom
  obtain ⟨m, hreaches, hbody⟩ := writeBody_of_sends object name hsends hs.memo
  obtain ⟨t, ht, hgrown⟩ := h (s := ⟨s.buffer, s.work, m⟩) ⟨hs.live, hs.levels, hreaches⟩ hroom
  exact ⟨t, hbody.trans ht, hgrown.buffer, hgrown.work, fun _ => hgrown.memo hreaches⟩

theorem appends_of_routed (name : String) (hsends : d.Sends v b)
    (h : Appends (Sink.bench d levels) (routed d object b v) e) :
    Appends (Sink.bench d levels) (writeBody d object name v) e where
  emits := emits_of_routed name hsends h.emits
  overflows := by
    intro s hs hfull
    obtain ⟨m, hreaches, hbody⟩ := writeBody_of_sends object name hsends hs.memo
    obtain ⟨f, t, part, rest, ht, hf, hgrown, he, hne⟩ :=
      h.overflows (s := ⟨s.buffer, s.work, m⟩) ⟨hs.live, hs.levels, hreaches⟩ hfull
    exact ⟨f, t, part, rest, hbody.trans ht, hf,
      ⟨hgrown.buffer, hgrown.work, fun _ => hgrown.memo hreaches⟩, he, hne⟩

theorem appends_id (id : TypeId) :
    Appends (Sink.bench d levels) (Bench.onBuffer (Buffer.writeShort id.raw)) id.word :=
  Bench.appends_onBuffer (Buffer.appends_writeShort id.raw)

theorem emits_writeBody (name : String) (hsends : d.Sends v b)
    (h : Emits (Sink.bench d levels) ((b.write d.types v).run (writeField d object)) e) :
    Emits (Sink.bench d levels) (writeBody d object name v) (b.id.word ++ e) :=
  emits_of_routed name hsends ((appends_id b.id).emits.bind h)

theorem writeObject_of_levels (name : String) (v : Value) {s : Bench}
    (hlevels : levels + 1 ≤ s.work.levels) :
    writeObject d (levels + 1) name v s =
      Bench.inside (writeBody d (writeObject d levels) name v)
        ⟨s.buffer, s.entered.work.push (frame name v), s.memo⟩ := by
  rw [writeObject, Action.bind_of_ok (Bench.enter_of_levels hlevels)]
  rfl

theorem emits_writeObject_succ {name : String}
    (h : Emits (Sink.bench d levels) (writeBody d (writeObject d levels) name v) e) :
    Emits (Sink.bench d (levels + 1)) (writeObject d (levels + 1) name v) e := by
  intro s hs hroom
  obtain ⟨t, ht, hgrown⟩ := h (hs.opened (frame name v)) hroom
  refine ⟨_, ?_, hgrown.closed hs.levels⟩
  rw [writeObject_of_levels name v hs.levels, Bench.inside, ht]

/-- A failure inside is marked on its way out, and the object is closed behind it. -/
theorem appends_writeObject_succ {name : String}
    (h : Appends (Sink.bench d levels) (writeBody d (writeObject d levels) name v) e) :
    Appends (Sink.bench d (levels + 1)) (writeObject d (levels + 1) name v) e where
  emits := emits_writeObject_succ h.emits
  overflows := by
    intro s hs hfull
    obtain ⟨f, t, part, rest, ht, hf, hgrown, he, hne⟩ :=
      h.overflows (hs.opened (frame name v)) hfull
    refine ⟨_, _, part, rest, ?_, (Workspace.code_annotate t.work f).trans hf,
      hgrown.closed hs.levels, he, hne⟩
    rw [writeObject_of_levels name v hs.levels, Bench.inside, ht]

end Writer

end Wireform

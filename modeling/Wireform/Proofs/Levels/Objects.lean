import Wireform.Proofs.Levels.Tracking

/-!
Writers and readers are tracked. A field without objects is one step, whatever
comes of it. Along the levels an object is tracked, since its body is as soon as
the objects one level further down are, for any formats and any values or bytes.

A reader looks ahead between the opening of an object and its frame. The look
ahead passes over what goes wrong in it, so it fails in no other way than
fatally, and otherwise the object gets its frame (`begins_named`).
-/

namespace Wireform

variable {α : Type} {base : Workspace}

namespace Spares

theorem writeField {d : Dialect} {f : Field} (hf : f.nested = false)
    (object : String → Value → Action Bench Unit) : Spares (Writer.writeField d object f) := by
  obtain ⟨act, -, hact⟩ := Writer.writeField_of_not_nested (d := d) hf
  rw [hact]
  exact onBuffer act

theorem answer {d : Dialect} {r : Request} (hr : r.nested = false)
    (object : String → Action Bench Value) : Spares (Reader.answer d object r) := by
  rcases Reader.answer_of_not_nested (d := d) hr with rfl | ⟨act, -, hact⟩
  · exact read_text
  · rw [hact]
    exact onBuffer act

end Spares

/-! ### Writing -/

namespace Writer

variable {d : Dialect} {watched : String → Value → Watched Unit}
  {object : String → Value → Action Bench Unit}

theorem watchField_of_not_nested {f : Field} (hf : f.nested = false) :
    watchField d watched f = Watched.step .raised (writeField d object f) := by
  cases f with
  | object | nullable => cases hf
  | _ => rfl

section Nested

variable (hobject : ∀ name v, Tracks base (watched name v) (object name v))

include hobject

theorem tracks_watchField (f : Field) :
    Tracks base (watchField d watched f) (writeField d object f) := by
  have hflag (present : Bool) : Tracks base
      (Watched.step .raised (Bench.onBuffer (Buffer.writeBool present)))
      (Bench.onBuffer (Buffer.writeBool present)) := .step (.onBuffer _) .raised
  cases hf : f.nested with
  | false =>
      rw [watchField_of_not_nested hf]
      exact .step (.writeField hf object) .raised
  | true =>
      cases f with
      | object name v => exact hobject name v
      | nullable name v =>
          cases v with
          | none => exact hflag false
          | some v => exact (hflag true).bind fun _ => hobject name v
      | _ => cases hf

theorem tracks_watchBody (name : String) (v : Value) :
    Tracks base (watchBody d watched name v) (writeBody d object name v) := by
  refine (Tracks.step (.onMemo _) .raised).bind fun route => ?_
  exact (Tracks.step (.onBuffer _) .raised).bind fun _ => .run (tracks_watchField hobject) _

end Nested

theorem tracks_watchObject (levels : Nat) (name : String) (v : Value) :
    Tracks base (watchObject d levels name v) (writeObject d levels name v) := by
  induction levels generalizing name v with
  | zero => exact .step (fun s => ⟨s.work.scratch, rfl, rfl⟩) .refused
  | succ levels ih => exact .object (begins_push _) (tracks_watchBody ih name v)

end Writer

/-! ### Reading -/

/-- To fail in no other way than fatally. -/
def Conduct.silent : Conduct Bench where
  Fit _ := True
  Moves _ _ := True
  Fails f := f.fatal = true
  refl _ := trivial
  trans _ _ := trivial
  fit _ _ := trivial

namespace Reader

variable {d : Dialect} {watched : String → Watched Value} {object : String → Action Bench Value}

theorem watchAnswer_of_not_nested {r : Request} (hr : r.nested = false) :
    watchAnswer d watched r = Watched.step .raised (answer d object r) := by
  cases r with
  | object | objectAs | nullable => cases hr
  | _ => rfl

theorem silent_attempt (act : Action Bench α) : Obeys Conduct.silent (Action.attempt act) := by
  refine fun s _ => ⟨trivial, fun g hg => ?_⟩
  unfold Action.attempt at hg
  generalize act s = out at hg
  rcases out with ⟨f | a, t⟩
  · by_cases hfatal : f.fatal
    · simp only [if_pos hfatal] at hg
      cases hg
      exact hfatal
    · simp only [if_neg hfatal] at hg
      cases hg
  · cases hg

theorem silent_peekName : Obeys Conduct.silent (peekName d object) := by
  refine Obeys.get.bind fun s => (silent_attempt _).bind fun described => ?_
  refine (silent_attempt _).bind fun back => ?_
  cases back with
  | ok _ => exact .pure _
  | error _ => exact .pure _

/-- The frame may be made of what some work comes to, if that work fails in no other way than
fatally. -/
theorem begins_named [Inhabited α] {x : Watched α} {act : Action Bench α} (hx : Tracks base x act)
    (hact : Obeys Conduct.silent act) (title : α → String) :
    Begins base (∃ a, · = title a) (x >>= fun a => Watched.begin (title a))
      (act >>= fun a => Bench.push (title a)) := by
  intro w stages h hstages
  have hfatal := (hact (s := w.bench) trivial).2
  have hpush : Obeys Conduct.silent (act >>= fun a => Bench.push (title a)) :=
    hact.bind fun _ _ _ => ⟨trivial, fun _ hf => by cases hf⟩
  refine ⟨?_, (hpush trivial).2⟩
  cases hout : (act w.bench).1 with
  | ok a =>
      refine ⟨_, ⟨a, rfl⟩, (hx h).bind (fun b u hok hu hopen => ?_) fun f hf => ?_⟩
      · cases hout.symm.trans hok
        exact tracked_begin hu (hopen.trans hstages) _
      · cases hout.symm.trans hf
  | error f =>
      -- no object gets its frame then, so any will do
      refine ⟨_, ⟨default, rfl⟩, (hx h).bind (fun b u hok => ?_) fun g hg hreported => ?_⟩
      · cases hout.symm.trans hok
      · cases (hfatal g hg).symm.trans hreported

section Nested

variable (hobject : ∀ name, Tracks base (watched name) (object name))

include hobject

theorem tracks_watchAnswer (r : Request) :
    Tracks base (watchAnswer d watched r) (answer d object r) := by
  cases hr : r.nested with
  | false =>
      rw [watchAnswer_of_not_nested hr]
      exact .step (.answer hr object) .raised
  | true =>
      cases r with
      | object name => exact hobject name
      | objectAs c name => exact (hobject name).bind fun v => .step (.lift _) .raised
      | nullable name =>
          refine (Tracks.step (.onBuffer _) .raised).bind fun present => ?_
          cases present with
          | true => exact (hobject name).bind fun v => .pure _
          | false => exact .pure _
      | _ => cases hr

theorem tracks_watchBody : Tracks base (watchBody d watched) (readBody d object) := by
  refine (Tracks.step (.onBuffer _) .raised).bind fun raw => ?_
  cases hroute : d.route? ⟨raw⟩ with
  | none =>
      simp only [hroute]
      exact .step (.lift _) .raised
  | some route =>
      simp only [hroute]
      exact .run (tracks_watchAnswer hobject) _

theorem tracks_watchDescribeNext :
    Tracks base (watchDescribeNext d watched) (describeNext d object) := by
  refine (Tracks.step (.onBuffer _) .raised).bind fun raw => ?_
  cases hroute : d.route? ⟨raw⟩ with
  | none =>
      simp only [hroute]
      exact .pure _
  | some route =>
      simp only [hroute]
      exact .run (tracks_watchAnswer hobject) _

theorem tracks_watchPeekName : Tracks base (watchPeekName d watched) (peekName d object) := by
  refine .get_bind fun w => ?_
  refine (tracks_watchDescribeNext hobject).attempt.bind fun described => ?_
  refine (Tracks.step (.onBuffer _) .raised).attempt.bind fun back => ?_
  cases back with
  | ok _ => exact .pure _
  | error _ => exact .pure _

theorem begins_watchPushFrame (name : String) :
    Begins base (∃ type, · = frame name type) (watchPushFrame d watched name)
      (pushFrame d object name) := by
  intro w stages h hstages
  by_cases htracing : w.bench.work.tracing = true
  · rw [watchPushFrame, pushFrame, Action.bind_of_ok (Action.get_apply _),
      Action.bind_of_ok (Action.get_apply _), if_pos htracing, if_pos htracing]
    exact begins_named (tracks_watchPeekName hobject) silent_peekName (frame name) h hstages
  · have hnone : Bench.push (frame name none) w.bench = (.ok (), w.bench) := by
      rw [Bench.push, Workspace.push, if_neg htracing]
    have hpush : pushFrame d object name w.bench = Bench.push (frame name none) w.bench := by
      rw [pushFrame, Action.bind_of_ok (Action.get_apply _), if_neg htracing, hnone]
      rfl
    rw [watchPushFrame, hpush, Action.bind_of_ok (Action.get_apply _), if_neg htracing]
    exact ⟨⟨_, ⟨none, rfl⟩, tracked_begin h hstages _⟩, fun _ hf => by cases hf⟩

end Nested

theorem tracks_watchObject (levels : Nat) (name : String) :
    Tracks base (watchObject d levels name) (readObject d levels name) := by
  induction levels generalizing name with
  | zero => exact .step (fun s => ⟨s.work.scratch, rfl, rfl⟩) .refused
  | succ levels ih => exact .object (begins_watchPushFrame ih name) (tracks_watchBody ih)

end Reader

theorem Task.tracks_watch (t : Task) (d : Dialect) (levels : Nat) :
    Tracks base (t.watch d levels) (t.within d levels) := by
  cases t with
  | field f => exact Writer.tracks_watchField (Writer.tracks_watchObject levels) f
  | content name v => exact Writer.tracks_watchBody (Writer.tracks_watchObject levels) name v
  | request r => exact Reader.tracks_watchAnswer (Reader.tracks_watchObject levels) r
  | nextContent => exact Reader.tracks_watchBody (Reader.tracks_watchObject levels)
  | nextName => exact Reader.tracks_watchPeekName (Reader.tracks_watchObject levels)

theorem Task.sized_run (t : Task) (d : Dialect) (s : Bench) :
    s.work.Sized (t.run d s).2.work := by
  rw [run_eq_within]
  exact (t.tracks_watch d _ (Watch.sound_start s)).sized

end Wireform

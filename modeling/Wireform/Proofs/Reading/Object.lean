import Wireform.Codec.Reader
import Wireform.Proofs.Opening
import Wireform.Proofs.Reading.Bench

/-!
What it takes to open an object for reading. Between using up a level and adding
a frame a reader that keeps frames looks ahead and comes back. All of this
leaves no trace when the object is closed, so whatever the body of an object
parses on a bench with some levels, the object parses on a bench with one more.

The look ahead may read anything, as long as it breaks off with no fatal
failure, since the reader of the buffer goes back to where it was.
-/

namespace Wireform

namespace Bench

variable {α : Type} {levels : Nat}

/-- From the bench `s` on `act` only consumes, and it breaks off with no fatal failure. -/
def Consumes (act : Action Bench α) (s : Bench) : Prop :=
  ∃ r n t, act s = (r, t) ∧ Moved s n t ∧ ∀ f, r = .error f → f.fatal = false

theorem consumes_of_reads {act : Action Bench α} {Q : α → List UInt8 → Prop} {s : Bench}
    (h : Reads (Source.bench levels) act Q) (hs : Ready levels s) : Consumes act s := by
  obtain ⟨e, rest, t, -, ht, ⟨a, ha, -⟩ | ⟨f, hf, hfatal⟩⟩ := h hs
  · exact ⟨.ok a, _, t, ha, ht, fun _ h => by cases h⟩
  · exact ⟨.error f, _, t, hf, ht, fun _ h => by cases h; exact hfatal⟩

theorem Consumes.bind {β : Type} {x : Action Bench α} {f : α → Action Bench β} {s t : Bench} {a : α}
    {n : Nat} (hx : x s = (.ok a, t)) (ht : Moved s n t) (hf : Consumes (f a) t) :
    Consumes (x >>= f) s := by
  obtain ⟨r, k, u, hu, hmoved, hr⟩ := hf
  exact ⟨r, n + k, u, by rw [Action.bind_of_ok hx, hu], (Source.bench 0).moved_add ht hmoved, hr⟩

theorem Ready.entered {s : Bench} (hs : Ready (levels + 1) s) : Ready levels s.entered :=
  ⟨hs.live, hs.scratch, levels_entered hs.levels⟩

theorem Opened.ready {s t : Bench} (h : Opened s t) (hs : Ready (levels + 1) s) :
    Ready levels t where
  live := by
    rw [h.buffer]
    exact hs.live
  scratch := by
    rw [h.scratch]
    exact hs.scratch
  levels := by
    have hlevels := h.levels
    have hle := hs.levels
    omega

theorem Opened.input {s t : Bench} (h : Opened s t) :
    (Source.bench levels).input t = (Source.bench levels).input s :=
  congrArg Buffer.ahead h.buffer

theorem Opened.close {s t u : Bench} {n : Nat} (h : Opened s t) (hu : Moved t n u) :
    Moved s n { u with work := u.work.leave } := by
  obtain ⟨hle, hbuffer, hmemo, scratch, hlen, hwork⟩ := hu
  rw [h.buffer] at hle hbuffer
  refine ⟨hle, hbuffer, hmemo.trans h.memo, scratch, hlen.trans h.scratch, ?_⟩
  have hleave : u.work.leave = { t.work.leave with scratch } := by
    rw [hwork]
    rfl
  show u.work.leave = _
  rw [hleave, h.work]

end Bench

namespace Reader

open Bench

variable {d : Dialect} {levels : Nat} {object : String → Action Bench Value}

/-- A look ahead from the bench `s` comes back to it, and nothing has changed but what is in the
scratch area. -/
def ComesBack (d : Dialect) (object : String → Action Bench Value) (s : Bench) : Prop :=
  ∃ name scratch, scratch.length = s.work.scratch.length ∧
    peekName d object s = (.ok name, ⟨s.buffer, { s.work with scratch }, s.memo⟩)

/-- Whatever has been read, and wherever that broke off, the reader goes back to where it was. What
has been told by then is the outcome. -/
theorem peekName_of_describeNext {s : Bench} {r : Except Failure (Option String)} {reader : Nat}
    {scratch : List UInt8} (hreader : s.buffer.reader ≤ s.buffer.writer)
    (hact : describeNext d object s =
      (r, ⟨{ s.buffer with reader }, { s.work with scratch }, s.memo⟩))
    (hr : ∀ f, r = .error f → f.fatal = false) : peekName d object s =
      (.ok r.toOption.join, ⟨s.buffer, { s.work with scratch }, s.memo⟩) := by
  -- a failure that is not fatal has become a value
  have hattempt : Action.attempt (describeNext d object) s =
      (.ok r, ⟨{ s.buffer with reader }, { s.work with scratch }, s.memo⟩) := by
    unfold Action.attempt
    rw [hact]
    cases r with
    | ok a => rfl
    | error f => simp only [hr f rfl, Bool.false_eq_true, if_false]
  have hback : Action.attempt (Bench.onBuffer (Buffer.setReader s.buffer.reader))
      ⟨{ s.buffer with reader }, { s.work with scratch }, s.memo⟩ =
        (.ok (.ok ()), ⟨s.buffer, { s.work with scratch }, s.memo⟩) := by
    -- the way back is open, since the old reader is not behind the writer
    simp only [Action.attempt, Bench.onBuffer, Buffer.setReader, if_neg (Nat.not_lt.mpr hreader)]
  unfold peekName
  rw [Action.bind_of_ok (Action.get_apply s), Action.bind_of_ok hattempt,
    Action.bind_of_ok hback]
  rfl

theorem comesBack_of_consumes {s : Bench} (hs : s.buffer.Live)
    (h : Consumes (describeNext d object) s) : ComesBack d object s := by
  obtain ⟨r, n, t, hact, hmoved, hr⟩ := h
  obtain ⟨scratch, hlen, rfl⟩ := hmoved.eq
  exact ⟨_, scratch, hlen, peekName_of_describeNext hs.reader_le_writer hact hr⟩

theorem pushFrame_of_tracing {s : Bench} (name : String) (htracing : s.work.tracing = true)
    (h : ComesBack d object s) : ∃ frame scratch, scratch.length = s.work.scratch.length ∧
      pushFrame d object name s =
        (.ok (), ⟨s.buffer, Workspace.push { s.work with scratch } frame, s.memo⟩) := by
  obtain ⟨type, scratch, hlen, hname⟩ := h
  refine ⟨frame name type, scratch, hlen, ?_⟩
  unfold pushFrame
  rw [Action.bind_of_ok (Action.get_apply s), if_pos htracing, Action.bind_of_ok hname]
  rfl

theorem pushFrame_of_not_tracing {s : Bench} (name : String) (htracing : s.work.tracing = false) :
    pushFrame d object name s = (.ok (), s) := by
  unfold pushFrame
  rw [Action.bind_of_ok (Action.get_apply s), htracing]
  rfl

theorem pushFrame_of_comesBack {s : Bench} (name : String) (hlevels : levels + 1 ≤ s.work.levels)
    (h : s.work.tracing → ComesBack d object s.entered) :
    ∃ t, pushFrame d object name s.entered = (.ok (), t) ∧ Opened s t := by
  cases htracing : s.work.tracing with
  | true =>
      obtain ⟨frame, scratch, hlen, hpush⟩ :=
        pushFrame_of_tracing (s := s.entered) name htracing (h htracing)
      exact ⟨_, hpush, opened_push hlevels hlen frame⟩
  | false =>
      have hopened := opened_push hlevels (rfl : s.work.scratch.length = _) name
      have hpush : Workspace.push { s.entered.work with scratch := s.work.scratch } name =
          s.entered.work := if_neg (Bool.eq_false_iff.mp htracing)
      rw [hpush] at hopened
      exact ⟨s.entered, pushFrame_of_not_tracing name htracing, hopened⟩

theorem readObject_of_comesBack {s : Bench} {inner : Nat} (name : String)
    (hlevels : levels + 1 ≤ s.work.levels)
    (h : s.work.tracing → ComesBack d (readObject d inner) s.entered) :
    ∃ t, Opened s t ∧
      readObject d (inner + 1) name s = inside (readBody d (readObject d inner)) t := by
  obtain ⟨t, hpush, ht⟩ := pushFrame_of_comesBack name hlevels h
  refine ⟨t, ht, ?_⟩
  unfold readObject
  rw [Action.bind_of_ok (enter_of_levels hlevels), Action.bind_of_ok hpush]

theorem readObject_of_opened {s : Bench} (name : String) (hs : Ready (levels + 1) s)
    (h : s.work.tracing → Consumes (describeNext d (readObject d levels)) s.entered) :
    ∃ t, Opened s t ∧
      readObject d (levels + 1) name s = inside (readBody d (readObject d levels)) t :=
  readObject_of_comesBack name hs.levels fun htracing =>
    comesBack_of_consumes hs.entered.live (h htracing)

theorem yields_readObject_succ {e : List UInt8} {v : Value} (name : String)
    (hpeek : ∀ ⦃s rest⦄, Ready levels s → s.buffer.ahead = e ++ rest →
      Consumes (describeNext d (readObject d levels)) s)
    (hbody : Yields (Source.bench levels) (readBody d (readObject d levels)) e v) :
    Yields (Source.bench (levels + 1)) (readObject d (levels + 1) name) e v := by
  intro s rest hs hin
  obtain ⟨t, ht, hread⟩ := readObject_of_opened name hs fun _ => hpeek hs.entered hin
  obtain ⟨u, hu, hmoved⟩ := hbody (ht.ready hs) (by rw [ht.input]; exact hin)
  refine ⟨_, ?_, ht.close hmoved⟩
  rw [hread, inside, hu]

theorem parses_readObject_succ {W : Value → List UInt8 → Prop} (name : String)
    (hpeek : Reads (Source.bench levels) (describeNext d (readObject d levels)) fun _ _ => True)
    (hbody : Parses (Source.bench levels) (readBody d (readObject d levels)) W) :
    Parses (Source.bench (levels + 1)) (readObject d (levels + 1) name) W where
  reads := by
    intro s hs
    obtain ⟨t, ht, hread⟩ :=
      readObject_of_opened name hs fun _ => consumes_of_reads hpeek hs.entered
    obtain ⟨e, rest, u, hin, hmoved, ⟨v, hu, hv⟩ | ⟨f, hu, hfatal⟩⟩ := hbody.reads (ht.ready hs)
    · rw [ht.input] at hin
      refine ⟨e, rest, _, hin, ht.close hmoved, .inl ⟨v, ?_, hv⟩⟩
      rw [hread, inside, hu]
    · rw [ht.input] at hin
      refine ⟨e, rest, _, hin, ht.close hmoved, .inr ⟨u.work.annotate f, ?_, ?_⟩⟩
      · rw [hread, inside, hu]
      · rw [Workspace.fatal_annotate, hfatal]
  spells := by
    intro v e hv
    constructor
    · exact yields_readObject_succ name (fun s _ hs _ => consumes_of_reads hpeek hs)
        (hbody.spells v e hv).yields
    · intro front missing he hm s hs hin
      obtain ⟨t, ht, hread⟩ :=
        readObject_of_opened name hs fun _ => consumes_of_reads hpeek hs.entered
      obtain ⟨f, u, hu, hf⟩ :=
        (hbody.spells v e hv).starves he hm (ht.ready hs) (by rw [ht.input]; exact hin)
      refine ⟨u.work.annotate f, _, by rw [hread, inside, hu], ?_⟩
      rw [Failure.Short, Workspace.code_annotate]
      exact hf

end Reader

end Wireform

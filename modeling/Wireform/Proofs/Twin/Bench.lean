import Wireform.Proofs.Buffer.Fields

/-!
Two benches at which the same work is done.

A `Likeness` says what the benches may differ in: workspaces, memos and the
failures that come of the work. The buffers are the same. It has to hold of
whatever happens at a bench: to fields, to the scratch area, to the notes about
open objects, to the memo when a value is dispatched, and to the plans of all
formats that are found. From these laws it follows, along the recursion of
writers and readers, that the same work leads to the same outcome.

The one thing that is left open here is the look ahead before an object is read,
which may take place at one of the benches only.
-/

namespace Wireform

/-- What two benches may differ in and still be at the same work in a dialect. -/
structure Likeness (d : Dialect) where
  /-- The buffers that may be worked on. -/
  Fit : Buffer → Prop
  Works : Workspace → Workspace → Prop
  Memos : Memo → Memo → Prop
  Alike : Failure → Failure → Prop
  fatal : ∀ {f g}, Alike f g → g.fatal = f.fatal
  unframed : ∀ {f : Failure}, f.frames = [] → Alike f f
  /-- Work on a buffer goes on and breaks off in ways that both sides have in common. -/
  acts : ∀ {α : Type} {act : Action Buffer α} {b : Buffer}, Obeys Conduct.handling act → Fit b →
    Fit (act b).2 ∧ ∀ f, (act b).1 = .error f → Alike f f
  depth : ∀ {w u}, Works w u → u.depth = w.depth ∧ u.maxDepth = w.maxDepth
  size : ∀ {w u}, Works w u → 0 < w.scratch.length ∧ u.scratch.length = w.scratch.length
  scratch : ∀ {w u}, Works w u → ∀ {x y : List UInt8}, x.length = w.scratch.length →
    y.length = w.scratch.length → Works { w with scratch := x } { u with scratch := y }
  enter : ∀ {w u}, Works w u → ∀ n, Works { w with depth := n } { u with depth := n }
  push : ∀ {w u}, Works w u → ∀ frame, Works (w.push frame) (u.push frame)
  leave : ∀ {w u}, Works w u → Works w.leave u.leave
  annotate : ∀ {w u}, Works w u → ∀ {f g}, Alike f g → Alike (w.annotate f) (u.annotate g)
  dispatch : ∀ {m n}, Memos m n → ∀ v, Agree Alike (d.dispatch v m).1 (d.dispatch v n).1 ∧
    Memos (d.dispatch v m).2 (d.dispatch v n).2
  writes : ∀ {m n}, Memos m n → ∀ v route, (d.dispatch v m).1 = .ok route → ∀ name,
    (route.format.write d.types name v).Twins Alike (route.format.write d.types name v)
  reads : ∀ {id route}, d.route? id = some route →
    (route.format.read d.types).Twins Alike (route.format.read d.types)
  describes : ∀ {id route}, d.route? id = some route →
    (route.format.describe d.types).Twins Alike (route.format.describe d.types)

namespace Likeness

variable {d : Dialect} (L : Likeness d)

/-- Two benches at the same work. -/
structure Tied (s t : Bench) : Prop where
  buffer : t.buffer = s.buffer
  fit : L.Fit s.buffer
  work : L.Works s.work t.work
  memo : L.Memos s.memo t.memo

def coupling : Coupling Bench where
  Tied := L.Tied
  Alike := L.Alike
  fatal := L.fatal

variable {L} {α : Type} {s t : Bench}

theorem Tied.levels (h : L.Tied s t) : t.work.levels = s.work.levels := by
  obtain ⟨hdepth, hmax⟩ := L.depth h.work
  rw [Workspace.levels, Workspace.levels, hdepth, hmax]

theorem agree_refl {r : Except Failure α} (h : ∀ f, r = .error f → L.Alike f f) :
    Agree L.Alike r r := by
  cases r with
  | ok a => exact .ok a
  | error f => exact .error (h f rfl)

theorem couples_onBuffer {act : Action Buffer α} (hact : Obeys Conduct.handling act) :
    Couples L.coupling (Bench.onBuffer act) (Bench.onBuffer act) := by
  rintro ⟨_, w, m⟩ ⟨b, u, n⟩ ⟨rfl, hfit, hwork, hmemo⟩
  obtain ⟨hfit', hfails⟩ := L.acts hact hfit
  exact ⟨agree_refl hfails, rfl, hfit', hwork, hmemo⟩

theorem couples_read_text :
    Couples L.coupling (Bench.onScratch Text.read) (Bench.onScratch Text.read) := by
  rintro ⟨_, w, m⟩ ⟨b, u, n⟩ ⟨rfl, hfit, hwork, hmemo⟩
  obtain ⟨hpos, hsize⟩ := L.size hwork
  obtain ⟨hagree, hbuffer, hw, hu⟩ :=
    Text.couples_read w.scratch.length (s := (b, w.scratch)) (t := (b, u.scratch))
      ⟨rfl, rfl, hsize⟩
  -- for a given scratch area it is an action on the buffer alone
  have hact : Obeys Conduct.handling fun b =>
      ((Text.read (b, w.scratch)).1, (Text.read (b, w.scratch)).2.1) := by
    refine Obeys.handling fun b hb => ?_
    obtain ⟨hmoves, hfails⟩ := Text.desk_read hpos (s := (b, w.scratch)) ⟨hb, rfl⟩
    exact ⟨hmoves.1, hfails⟩
  obtain ⟨hfit', hfails⟩ := L.acts hact hfit
  refine ⟨?_, hbuffer, hfit', L.scratch hwork hw hu, hmemo⟩
  show Agree L.Alike (Text.read (b, w.scratch)).1 (Text.read (b, u.scratch)).1
  rw [hagree.eq]
  exact agree_refl hfails

theorem couples_enter : Couples L.coupling Bench.enter Bench.enter := by
  rintro ⟨_, w, m⟩ ⟨b, u, n⟩ ⟨rfl, hfit, hwork, hmemo⟩
  simp only at hfit hwork hmemo
  obtain ⟨hdepth, hmax⟩ := L.depth hwork
  unfold Bench.enter Workspace.enter
  by_cases hfull : w.maxDepth ≤ w.depth
  · have hfull' : u.maxDepth ≤ u.depth := by omega
    rw [if_pos hfull, if_pos hfull', hmax]
    exact ⟨.error (L.unframed rfl), rfl, hfit, hwork, hmemo⟩
  · have hfull' : ¬ u.maxDepth ≤ u.depth := by omega
    rw [if_neg hfull, if_neg hfull', hdepth]
    exact ⟨.ok (), rfl, hfit, L.enter hwork _, hmemo⟩

theorem couples_push (frame : String) :
    Couples L.coupling (Bench.push frame) (Bench.push frame) := by
  intro s t h
  exact ⟨.ok (), h.buffer, h.fit, L.push h.work frame, h.memo⟩

theorem couples_inside {x y : Action Bench α} (h : Couples L.coupling x y) :
    Couples L.coupling (Bench.inside x) (Bench.inside y) := by
  intro s t hst
  obtain ⟨hagree, htied⟩ := h hst
  unfold Bench.inside
  generalize x s = out at hagree htied ⊢
  generalize y t = out' at hagree htied ⊢
  obtain ⟨r, s'⟩ := out
  obtain ⟨r', t'⟩ := out'
  cases hagree with
  | ok a => exact ⟨.ok a, htied.buffer, htied.fit, L.leave htied.work, htied.memo⟩
  | error h => exact ⟨.error (L.annotate htied.work h), htied.buffer, htied.fit,
      L.leave htied.work, htied.memo⟩

end Likeness

/-! ### Writing -/

namespace Writer

open Likeness

variable {d : Dialect} {L : Likeness d} {object : String → Value → Action Bench Unit}

section Nested

variable (hobject : ∀ name v, Couples L.coupling (object name v) (object name v))

include hobject

theorem couples_writeField (f : Field) :
    Couples L.coupling (writeField d object f) (writeField d object f) := by
  cases hf : f.nested with
  | false =>
      obtain ⟨act, hact, heq⟩ := writeField_of_not_nested (d := d) hf
      rw [heq]
      exact couples_onBuffer hact
  | true =>
      have hflag (present : Bool) := couples_onBuffer (L := L)
        (Buffer.handling_put "write_bool" (BigEndian.encode 1 present.toNat))
      cases f with
      | object name v => exact hobject name v
      | nullable name v =>
          cases v with
          | none => exact hflag false
          | some v => exact (hflag true).bind fun _ => hobject name v
      | _ => cases hf

theorem couples_writeBody (name : String) (v : Value) :
    Couples L.coupling (writeBody d object name v) (writeBody d object name v) := by
  intro s t hst
  obtain ⟨hagree, hmemo⟩ := L.dispatch hst.memo v
  have hplans := L.writes hst.memo v
  simp only [writeBody, Action.bind_apply, Bench.onMemo]
  generalize d.dispatch v s.memo = out at hagree hmemo hplans ⊢
  generalize d.dispatch v t.memo = out' at hagree hmemo ⊢
  obtain ⟨r, m⟩ := out
  obtain ⟨r', n⟩ := out'
  have htied : L.Tied ⟨s.buffer, s.work, m⟩ ⟨t.buffer, t.work, n⟩ :=
    ⟨hst.buffer, hst.fit, hst.work, hmemo⟩
  cases hagree with
  | ok route =>
      exact (couples_onBuffer (Buffer.handling_put "write_short" _)).bind
        (fun _ => .run (couples_writeField hobject) (hplans route rfl name)) htied
  | error h => exact ⟨.error h, htied⟩

end Nested

theorem couples_writeObject (levels : Nat) (name : String) (v : Value) :
    Couples L.coupling (writeObject d levels name v) (writeObject d levels name v) := by
  induction levels generalizing name v with
  | zero =>
      intro s t h
      have hmax : t.work.maxDepth = s.work.maxDepth := (L.depth h.work).2
      simp only [writeObject, hmax]
      exact ⟨.error (L.unframed rfl), h⟩
  | succ levels ih =>
      exact couples_enter.bind fun _ => (couples_push _).bind fun _ =>
        couples_inside (couples_writeBody ih name v)

end Writer

/-! ### Reading -/

namespace Reader

open Likeness

variable {d : Dialect} {L : Likeness d} {object : String → Action Bench Value}

/-- That the look ahead before an object is read makes no difference, whatever may come next. -/
def LooksAhead (d : Dialect) (L : Likeness d) : Prop :=
  ∀ levels name,
    (∀ name, Couples L.coupling (readObject d levels name) (readObject d levels name)) →
    Couples L.coupling (pushFrame d (readObject d levels) name)
      (pushFrame d (readObject d levels) name)

section Nested

variable (hobject : ∀ name, Couples L.coupling (object name) (object name))

include hobject

theorem couples_answer (r : Request) :
    Couples L.coupling (answer d object r) (answer d object r) := by
  cases hr : r.nested with
  | false =>
      rcases answer_of_not_nested (d := d) hr with rfl | ⟨act, hact, heq⟩
      · exact couples_read_text
      · rw [heq]
        exact couples_onBuffer hact.handling
  | true =>
      cases r with
      | object name => exact hobject name
      | objectAs c name =>
          exact (hobject name).bind fun v =>
            .lift (agree_refl fun f hf => L.unframed (Value.plain_of_expect hf).frames)
      | nullable name =>
          refine (couples_onBuffer Buffer.reading_readBool.handling).bind fun present => ?_
          cases present with
          | true => exact (hobject name).bind fun v => .pure _
          | false => exact .pure _
      | _ => cases hr

theorem couples_readBody :
    Couples L.coupling (readBody d object) (readBody d object) := by
  refine (couples_onBuffer Buffer.reading_readShort.handling).bind fun raw => ?_
  simp only
  split
  · next route hroute => exact .run (couples_answer hobject) (L.reads hroute)
  · exact .fail (L.unframed rfl)

theorem couples_describeNext :
    Couples L.coupling (describeNext d object) (describeNext d object) := by
  refine (couples_onBuffer Buffer.reading_readShort.handling).bind fun raw => ?_
  simp only
  split
  · next route hroute => exact .run (couples_answer hobject) (L.describes hroute)
  · exact .pure _

theorem couples_peekName :
    Couples L.coupling (peekName d object) (peekName d object) := by
  refine Couples.get_bind fun s t hst => ?_
  refine Couples.attempt_bind (couples_describeNext hobject) fun r r' hr => ?_
  rw [hr.toOption, show t.buffer.reader = s.buffer.reader from
    congrArg Buffer.reader (show L.Tied s t from hst).buffer]
  refine Couples.attempt_bind
    (couples_onBuffer (Buffer.reading_setReader _).handling) fun back back' hback => ?_
  cases hback with
  | ok => exact .pure _
  | error => exact .pure _

end Nested

theorem looksAhead_of_tracing (htracing : ∀ {w u}, L.Works w u → u.tracing = w.tracing) :
    LooksAhead d L := by
  intro levels name hobject
  refine Couples.get_bind fun s t hst => ?_
  rw [htracing hst.work]
  split
  · exact (couples_peekName hobject).bind fun type => couples_push _
  · exact .pure _

theorem couples_readObject (hlook : LooksAhead d L) (levels : Nat) (name : String) :
    Couples L.coupling (readObject d levels name) (readObject d levels name) := by
  induction levels generalizing name with
  | zero =>
      intro s t h
      have hmax : t.work.maxDepth = s.work.maxDepth := (L.depth h.work).2
      simp only [readObject, hmax]
      exact ⟨.error (L.unframed rfl), h⟩
  | succ levels ih =>
      exact couples_enter.bind fun _ => (hlook levels name ih).bind fun _ =>
        couples_inside (couples_readBody ih)

end Reader

end Wireform

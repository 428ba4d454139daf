import Mathlib.Tactic.Common
import Wireform.Proofs.Buffer.Fields
import Wireform.Proofs.Endpoint.History
import Wireform.Proofs.Opening

/-!
Writing and reading under watch. After every step it is noted what the workspace
has become, and beside it which objects have been opened by then and are not yet
closed. These are counted apart from the workspace: the depth and the frames are
what is watched, and the work is not guided by the watch.

There is a time when an object is open and has no frame yet. A reader has then
used up a level and looks ahead for the name of what comes, for which it may read
objects of their own. So an object is first in the stage `naming`, and then in
the stage `inside`, which lasts until it is closed.

A failure is noted where it comes up: at a field that cannot be written or read,
where a plan refuses, or where an object is one too many. A plan that gives up at
once when a request has failed passes that failure on, and there is nothing new
to be noted.

A moment is lawful if depth and frames are what they were at the outset, with one
more level for each object that is open and, if frames are kept, the frame of each
object that something is done inside of.
-/

namespace Wireform

/-- The stages of an object from its opening to its closing. -/
inductive Stage where
  | naming
  | inside (frame : String)
  deriving DecidableEq, Repr

def Stage.frame? : Stage → Option String
  | naming => none
  | inside frame => some frame

/-- The frames of the objects that are inside others in these stages, innermost first. -/
def openFrames (stages : List Stage) : List String := stages.filterMap Stage.frame?

/-- By what a moment has come about. -/
inductive Mark where
  | passed
  | closed
  /-- A failure has come up, but not for want of levels. -/
  | raised
  /-- An object has not been opened, since too many are open. -/
  | refused
  deriving DecidableEq, Repr

/-- A workspace at some moment, and the objects that are open then, innermost first. -/
structure Moment where
  mark : Mark
  stages : List Stage
  work : Workspace

/-- A bench under watch, with the moments that have been noted, latest first. -/
structure Watch where
  bench : Bench
  stages : List Stage := []
  seen : List Moment := []

abbrev Watched (α : Type) := Action Watch α

def Watch.note (w : Watch) (mark : Mark) (bench : Bench) (stages : List Stage) : Watch :=
  { bench, stages, seen := ⟨mark, stages, bench.work⟩ :: w.seen }

namespace Watched

variable {α : Type}

/-- A step in which no object is opened or closed. -/
def step (failing : Mark) (act : Action Bench α) : Watched α := fun w =>
  match act w.bench with
  | (.ok a, bench) => (.ok a, w.note .passed bench w.stages)
  | (.error f, bench) => (.error f, w.note failing bench w.stages)

def enter : Watched Unit := fun w =>
  match Bench.enter w.bench with
  | (.ok _, bench) => (.ok (), w.note .passed bench (.naming :: w.stages))
  | (.error f, bench) => (.error f, w.note .refused bench w.stages)

/-- The step by which the innermost object gets its frame. -/
def begin (frame : String) : Watched Unit := fun w =>
  let (r, bench) := Bench.push frame w.bench
  (r, w.note .passed bench (.inside frame :: w.stages.tail))

def inside (act : Watched α) : Watched α := fun w =>
  let (r, w) := act w
  let (r, bench) := Bench.inside (Action.lift r) w.bench
  (r, w.note .closed bench w.stages.tail)

end Watched

namespace Plan

variable {R : Type} {A : R → Type} {α : Type}

/-- The failure with which the plan ends without asking for anything. -/
def refusal? : Plan A α → Option Failure
  | .refuse f => some f
  | _ => none

def runWatched (answer : (r : R) → Watched (A r)) : Plan A α → Watched α
  | .done a => pure a
  | .refuse f => Watched.step .raised (Action.fail f)
  | .ask r next => Action.attempt (answer r) >>= fun
    | .ok a => (next (.ok a)).runWatched answer
    | .error f =>
      match (next (.error f)).refusal? with
      | some g => Action.fail g
      | none => (next (.error f)).runWatched answer

theorem refusal?_eq_some {p : Plan A α} {f : Failure} : p.refusal? = some f ↔ p = .refuse f := by
  cases p with
  | refuse g => simp [refusal?]
  | _ => simp [refusal?]

end Plan

namespace Writer

def watchField (d : Dialect) (object : String → Value → Watched Unit) : Field → Watched Unit
  | .object name v => object name v
  | .nullable name (some v) => do
    Watched.step .raised (Bench.onBuffer (Buffer.writeBool true))
    object name v
  | f => Watched.step .raised (writeField d (writeObject d 0) f)

def watchBody (d : Dialect) (object : String → Value → Watched Unit) (name : String) (v : Value) :
    Watched Unit := do
  let route ← Watched.step .raised (Bench.onMemo (d.dispatch v))
  Watched.step .raised (Bench.onBuffer (Buffer.writeShort route.id.raw))
  (route.format.write d.types name v).runWatched (watchField d object)

def watchObject (d : Dialect) : (levels : Nat) → (name : String) → Value → Watched Unit
  | 0, name, v => Watched.step .refused (writeObject d 0 name v)
  | levels + 1, name, v => do
    Watched.enter
    Watched.begin (frame name v)
    Watched.inside (watchBody d (watchObject d levels) name v)

end Writer

namespace Reader

def watchAnswer (d : Dialect) (object : String → Watched Value) : (r : Request) → Watched r.Answer
  | .object name => object name
  | .objectAs c name => object name >>= fun v => Watched.step .raised (Action.lift (v.expect c))
  | .nullable name => do
    if ← Watched.step .raised (Bench.onBuffer Buffer.readBool) then
      let v ← object name
      return some v
    else return none
  | r => Watched.step .raised (answer d (readObject d 0) r)

def watchBody (d : Dialect) (object : String → Watched Value) : Watched Value := do
  let id : TypeId := ⟨← Watched.step .raised (Bench.onBuffer Buffer.readShort)⟩
  match d.route? id with
  | some route => (route.format.read d.types).runWatched (watchAnswer d object)
  | none => Watched.step .raised (Action.fail (Fault.unknownFormat id.toInt))

def watchDescribeNext (d : Dialect) (object : String → Watched Value) :
    Watched (Option String) := do
  let id : TypeId := ⟨← Watched.step .raised (Bench.onBuffer Buffer.readShort)⟩
  match d.route? id with
  | some route => (route.format.describe d.types).runWatched (watchAnswer d object)
  | none => return none

def watchPeekName (d : Dialect) (object : String → Watched Value) : Watched (Option String) := do
  let start := (← Action.get).bench.buffer.reader
  let name := (← Action.attempt (watchDescribeNext d object)).toOption.join
  match ← Action.attempt (Watched.step .raised (Bench.onBuffer (Buffer.setReader start))) with
  | .ok _ => return name
  | .error _ => return none

/-- If frames are not kept then none is added, so there is no need to look ahead. -/
def watchPushFrame (d : Dialect) (object : String → Watched Value) (name : String) :
    Watched Unit := do
  if (← Action.get).bench.work.tracing then
    let type ← watchPeekName d object
    Watched.begin (frame name type)
  else Watched.begin (frame name none)

def watchObject (d : Dialect) : (levels : Nat) → (name : String) → Watched Value
  | 0, name => Watched.step .refused (readObject d 0 name)
  | levels + 1, name => do
    Watched.enter
    watchPushFrame d (watchObject d levels) name
    Watched.inside (watchBody d (watchObject d levels))

end Reader

namespace Task

/-- Does a piece of work in which at most `levels` objects may lie inside each other, as is left to
it inside of other objects. -/
def within : (t : Task) → Dialect → (levels : Nat) → Action Bench t.Answer
  | field f, d, levels => Writer.writeField d (Writer.writeObject d levels) f
  | content name v, d, levels => Writer.writeBody d (Writer.writeObject d levels) name v
  | request r, d, levels => Reader.answer d (Reader.readObject d levels) r
  | nextContent, d, levels => Reader.readBody d (Reader.readObject d levels)
  | nextName, d, levels => Reader.peekName d (Reader.readObject d levels)

theorem run_eq_within (t : Task) (d : Dialect) (s : Bench) :
    t.run d s = t.within d s.work.levels s := by
  cases t <;> rfl

def watch : (t : Task) → Dialect → (levels : Nat) → Watched t.Answer
  | field f, d, levels => Writer.watchField d (Writer.watchObject d levels) f
  | content name v, d, levels => Writer.watchBody d (Writer.watchObject d levels) name v
  | request r, d, levels => Reader.watchAnswer d (Reader.watchObject d levels) r
  | nextContent, d, levels => Reader.watchBody d (Reader.watchObject d levels)
  | nextName, d, levels => Reader.watchPeekName d (Reader.watchObject d levels)

end Task

/-! ### Lawful moments -/

/-- What is settled about a workspace when it is made. -/
structure Workspace.Sized (base w : Workspace) : Prop where
  scratch : w.scratch.length = base.scratch.length
  tracing : w.tracing = base.tracing
  maxDepth : w.maxDepth = base.maxDepth

/-- Depth and frames are those of `base` and of the objects that have been opened since. -/
structure Workspace.Lawful (base : Workspace) (stages : List Stage) (w : Workspace) : Prop
    extends base.Sized w where
  depth : w.depth = base.depth + stages.length
  bounded : w.depth ≤ max base.depth base.maxDepth
  frames : w.frames = (if base.tracing then openFrames stages else []) ++ base.frames

variable {base w : Workspace} {stages : List Stage}

theorem length_openFrames (h : Stage.naming ∉ stages) :
    (openFrames stages).length = stages.length := by
  induction stages with
  | nil => rfl
  | cons stage stages ih =>
      obtain ⟨hstage, hrest⟩ := List.ne_and_not_mem_of_not_mem_cons h
      cases stage with
      | naming => exact absurd rfl hstage
      | inside frame => exact congrArg (· + 1) (ih hrest)

namespace Workspace

theorem Sized.refl (w : Workspace) : w.Sized w := ⟨rfl, rfl, rfl⟩

theorem lawful_start (base : Workspace) : Lawful base [] base where
  toSized := .refl base
  depth := rfl
  bounded := Nat.le_max_left _ _
  frames := by split <;> rfl

namespace Lawful

theorem rescratch (h : Lawful base stages w) {scratch : List UInt8}
    (hscratch : scratch.length = w.scratch.length) : Lawful base stages { w with scratch } where
  scratch := hscratch.trans h.scratch
  tracing := h.tracing
  maxDepth := h.maxDepth
  depth := h.depth
  bounded := h.bounded
  frames := h.frames

theorem enter (h : Lawful base stages w) (hlevel : w.depth < w.maxDepth) :
    Lawful base (.naming :: stages) { w with depth := w.depth + 1 } where
  scratch := h.scratch
  tracing := h.tracing
  maxDepth := h.maxDepth
  depth := congrArg (· + 1) h.depth
  bounded := by
    have hmax := h.maxDepth
    show w.depth + 1 ≤ _
    omega
  frames := h.frames

theorem push (h : Lawful base (.naming :: stages) w) (frame : String) :
    Lawful base (.inside frame :: stages) (w.push frame) := by
  have hframes := h.frames
  have htraced := h.tracing
  unfold Workspace.push
  by_cases htracing : w.tracing = true
  · rw [if_pos htracing]
    refine ⟨⟨h.scratch, h.tracing, h.maxDepth⟩, h.depth, h.bounded, ?_⟩
    show frame :: w.frames = _
    rw [hframes, ← htraced, if_pos htracing, if_pos htracing]
    rfl
  · rw [if_neg htracing]
    refine ⟨⟨h.scratch, h.tracing, h.maxDepth⟩, h.depth, h.bounded, hframes.trans ?_⟩
    rw [← htraced, if_neg htracing, if_neg htracing]

/-- The frame that is taken away is that of the object which is closed. -/
theorem leave {frame : String} (h : Lawful base (.inside frame :: stages) w) :
    Lawful base stages w.leave := by
  have hdepth : w.depth = base.depth + (stages.length + 1) := h.depth
  have hbounded := h.bounded
  refine ⟨⟨h.scratch, h.tracing, h.maxDepth⟩, ?_, ?_, ?_⟩
  · show w.depth - 1 = base.depth + stages.length
    omega
  · show w.depth - 1 ≤ _
    omega
  · show (if w.tracing then w.frames.tail else w.frames) = _
    rw [h.tracing, h.frames]
    cases base.tracing with
    | true => rfl
    | false => rfl

theorem back (h : Lawful base [] w) :
    ∃ scratch, scratch.length = base.scratch.length ∧ w = { base with scratch } := by
  have hframes : w.frames = base.frames := by
    rw [h.frames]
    cases base.tracing with
    | true => rfl
    | false => rfl
  refine ⟨w.scratch, h.scratch, ?_⟩
  obtain ⟨scratch, tracing, frames, depth, maxDepth⟩ := w
  obtain rfl : tracing = base.tracing := h.tracing
  obtain rfl : frames = base.frames := hframes
  obtain rfl : depth = base.depth := h.depth
  obtain rfl : maxDepth = base.maxDepth := h.maxDepth
  rfl

theorem frames_eq_depth (h : Lawful base stages w) (hbase : base.frames.length = base.depth)
    (hnamed : Stage.naming ∉ stages) (htracing : w.tracing = true) :
    w.frames.length = w.depth := by
  rw [h.frames, if_pos (h.tracing.symm.trans htracing), List.length_append,
    length_openFrames hnamed, hbase, h.depth, Nat.add_comm]

end Lawful

end Workspace

end Wireform

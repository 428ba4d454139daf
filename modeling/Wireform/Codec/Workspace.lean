import Wireform.Dialect
import Wireform.Text.Wire
import Wireform.Compact.Int32
import Wireform.Compact.Int64
import Wireform.Compact.Flags

/-!
What a writer or a reader works with: the buffer, the memo of the dialect, and a workspace that is
borrowed for the work. The workspace holds the scratch area for text, the number of objects that
are open and, if it keeps track of them, a frame for each. A failure inside an object is marked
with the frames of all objects open at that moment, once, and every object that was entered is
left again, whatever happens inside.
-/

namespace Wireform

structure Workspace where
  scratch : List UInt8
  /-- Whether frames are kept. -/
  tracing : Bool
  /-- The open objects, innermost first. -/
  frames : List String := []
  depth : Nat := 0
  maxDepth : Nat
  deriving DecidableEq, Repr

/-- A workspace at work on a buffer. -/
structure Bench where
  buffer : Buffer
  work : Workspace
  memo : Memo

namespace Workspace

variable {α : Type}

def levels (w : Workspace) : Nat := w.maxDepth - w.depth

def fresh (scratch : List UInt8) (tracing : Bool) (maxDepth : Nat) : Workspace :=
  { scratch, tracing, maxDepth }

def reset (w : Workspace) : Workspace := { w with frames := [], depth := 0 }

def clean (w : Workspace) : Bool := w.depth == 0 && w.frames.isEmpty

def enter (w : Workspace) : Except Failure Workspace :=
  if w.maxDepth ≤ w.depth then .error (Fault.nestingLimit w.maxDepth)
  else .ok { w with depth := w.depth + 1 }

/-- Adds a frame, if frames are kept. -/
def push (w : Workspace) (frame : String) : Workspace :=
  if w.tracing then { w with frames := frame :: w.frames } else w

/-- Marks a failure with the open frames, if frames are kept. -/
def annotate (w : Workspace) (f : Failure) : Failure :=
  if w.tracing then f.withFrames w.frames else f

/-- Closes the innermost object and its frame. -/
def leave (w : Workspace) : Workspace :=
  { w with frames := if w.tracing then w.frames.tail else w.frames, depth := w.depth - 1 }

end Workspace

namespace Bench

variable {α : Type}

def onBuffer (act : Action Buffer α) : Action Bench α := fun ⟨buffer, work, memo⟩ =>
  let (r, buffer) := act buffer
  (r, ⟨buffer, work, memo⟩)

def onMemo (act : Action Memo α) : Action Bench α := fun ⟨buffer, work, memo⟩ =>
  let (r, memo) := act memo
  (r, ⟨buffer, work, memo⟩)

/-- Something done to the buffer through the scratch area. -/
def onScratch (act : Action (Buffer × List UInt8) α) : Action Bench α :=
  fun ⟨buffer, work, memo⟩ =>
    let (r, buffer, scratch) := act (buffer, work.scratch)
    (r, ⟨buffer, { work with scratch }, memo⟩)

def enter : Action Bench Unit := fun s =>
  match s.work.enter with
  | .ok work => (.ok (), { s with work })
  | .error e => (.error e, s)

def push (frame : String) : Action Bench Unit := fun s =>
  (.ok (), { s with work := s.work.push frame })

/-- Runs the inside of an object that is open, and closes it. -/
def inside (act : Action Bench α) : Action Bench α := fun s =>
  match act s with
  | (.ok a, s) => (.ok a, { s with work := s.work.leave })
  | (.error e, s) => (.error (s.work.annotate e), { s with work := s.work.leave })

end Bench

end Wireform

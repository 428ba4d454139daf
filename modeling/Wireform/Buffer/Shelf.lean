import Wireform.Buffer.Access

/-!
Several buffers at once, known by name, some of them over the same region. A region is kept once,
and each name has a view of it: the region's number and cursors of its own. What one view writes
all views of the region can read, while the cursors of the others stay where they are.
-/

namespace Wireform

/-- Cursors over a region that is kept elsewhere. -/
structure View where
  region : Nat
  reader : Nat
  writer : Nat
  limit : Nat
  deriving DecidableEq, Repr

/-- Regions, and the views of them that have a name. -/
structure Shelf where
  regions : Array Region := #[]
  views : List (String × View) := []
  deriving DecidableEq, Repr

namespace Shelf

variable {α : Type}

def view? (s : Shelf) (name : String) : Option View := s.views.lookup name

/-- Gives a name to a view. A view that had the name before is forgotten. -/
def setView (s : Shelf) (name : String) (v : View) : Shelf :=
  { s with views := (name, v) :: s.views.filter (·.1 != name) }

/-- Forgets a name. The region stays, for others may have views of it. -/
def drop (s : Shelf) (name : String) : Shelf :=
  { s with views := s.views.filter (·.1 != name) }

def load (s : Shelf) (v : View) : Buffer :=
  ⟨s.regions.getD v.region ⟨none, -1⟩, v.reader, v.writer, v.limit⟩

/-- What a buffer has become is put back: its region for all views, its cursors for this one. -/
def store (s : Shelf) (v : View) (b : Buffer) : Shelf × View :=
  ({ s with regions := s.regions.setIfInBounds v.region b.region },
    { v with reader := b.reader, writer := b.writer })

def add (s : Shelf) (b : Buffer) : Shelf × View :=
  ({ s with regions := s.regions.push b.region }, ⟨s.regions.size, b.reader, b.writer, b.limit⟩)

def create (s : Shelf) (name : String) (b : Buffer) : Shelf :=
  let (s, v) := s.add b
  s.setView name v

def duplicate (s : Shelf) (of name : String) : Option Shelf :=
  (s.view? of).map (s.setView name)

def sharesRegion (s : Shelf) (a b : String) : Option Bool := do
  return (← s.view? a).region == (← s.view? b).region

def buffer? (s : Shelf) (name : String) : Option Buffer := (s.view? name).map s.load

def onView (s : Shelf) (v : View) (act : Action Buffer α) : Except Failure α × Shelf × View :=
  let (r, b) := act (s.load v)
  (r, s.store v b)

def on (s : Shelf) (name : String) (act : Action Buffer α) :
    Option (Except Failure α × Shelf) :=
  (s.view? name).map fun v =>
    let (r, s, v) := s.onView v act
    (r, s.setView name v)

def transferViews (s : Shelf) (target source : View) :
    Except Failure Nat × Shelf × View × View :=
  let n := Buffer.transferable (s.load target) (s.load source)
  if n = 0 then (.ok 0, s, target, source)
  else if target.region = source.region then
    match s.onView target (Buffer.copyWithin source.reader n) with
    | (.ok _, s, target) => (.ok n, s, target, { source with reader := source.reader + n })
    | (.error e, s, target) => (.error e, s, target, source)
  else
    let (r, b, c) := Buffer.transfer (s.load target, s.load source)
    let (s, target) := s.store target b
    let (s, source) := s.store source c
    (r, s, target, source)

/-- Moves as many bytes as there are and as fit from the second name to the first. -/
def transfer (s : Shelf) (target source : String) : Option (Except Failure Nat × Shelf) := do
  let v ← s.view? target
  let w ← s.view? source
  let (r, s, v, w) := s.transferViews v w
  return (r, (s.setView target v).setView source w)

end Shelf

end Wireform

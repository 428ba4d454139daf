import Wireform.Endpoint
import Wireform.Buffer.Shelf

/-!
An endpoint together with the buffers that it is used on. Whole objects are written to and read
from a buffer that is known by name. Work field by field needs a handle, which binds a borrowed
workspace to a buffer: as long as it is held the buffer is not to be had under its name, while the
endpoint and all other buffers can be used as before, also those over the same region.
-/

namespace Wireform

structure Session where
  endpoint : Endpoint
  shelf : Shelf := {}

/-- A borrowed workspace, bound to a view. -/
structure Handle where
  work : Workspace
  view : View

namespace Session

variable {α : Type}

/-- Something done to the named buffers alone, if the names that it needs are known. -/
def onShelf (s : Session) (act : Shelf → Option (Except Failure α × Shelf)) :
    Option (Except Failure α × Session) :=
  (act s.shelf).map fun (r, shelf) => (r, { s with shelf })

/-- Something that the endpoint does to the buffer of a name, if the name is known. -/
def on (s : Session) (name : String) (act : Action (Endpoint × Buffer) α) :
    Option (Except Failure α × Session) :=
  (s.shelf.view? name).map fun view =>
    match act (s.endpoint, s.shelf.load view) with
    | (r, endpoint, buffer) =>
      let (shelf, view) := s.shelf.store view buffer
      (r, { endpoint, shelf := shelf.setView name view })

/-- Writes an object to a buffer of its own and keeps that under a name. If the object cannot be
written the name keeps the buffer that it had. -/
def write (name field : String) (v : Value) : Action Session (List UInt8) := fun s =>
  match Endpoint.write field v s.endpoint with
  | (.error e, endpoint) => (.error e, { s with endpoint })
  | (.ok buffer, endpoint) =>
    ((Buffer.toBytes buffer).1, { endpoint, shelf := s.shelf.create name buffer })

/-- Borrows a workspace for the buffer of a name, and takes that name away. -/
def acquire (s : Session) (name : String) : Option (Handle × Session) :=
  (s.shelf.view? name).map fun view =>
    let (work, endpoint) := s.endpoint.acquire
    (⟨work, view⟩, { endpoint, shelf := s.shelf.drop name })

def use (act : Dialect → Action Bench α) : Action (Session × Handle) α := fun (s, h) =>
  match Endpoint.use act (s.endpoint, h.work, s.shelf.load h.view) with
  | (r, endpoint, work, buffer) =>
    let (shelf, view) := s.shelf.store h.view buffer
    (r, { endpoint, shelf }, ⟨work, view⟩)

def release (s : Session) (name : String) (h : Handle) : Session :=
  { endpoint := s.endpoint.release h.work, shelf := s.shelf.setView name h.view }

end Session

end Wireform

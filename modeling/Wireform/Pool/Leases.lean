import Wireform.Pool

/-!
A pool together with the objects that it has lent, each known by a name. Lending under a name that
is taken gives the earlier object back afterwards, so for a moment both are out.
-/

namespace Wireform

structure Leases (σ α : Type) where
  pool : Pool σ α
  held : List (String × α) := []

namespace Leases

variable {σ α : Type}

def look? (l : Leases σ α) (name : String) : Option α := l.held.lookup name

/-- Takes back what is lent under a name, and says whether there was anything. -/
def release (l : Leases σ α) (name : String) : Bool × Leases σ α :=
  match l.look? name with
  | none => (false, l)
  | some a => (true, ⟨l.pool.release a, l.held.filter (·.1 != name)⟩)

def acquire (l : Leases σ α) (name : String) : α × Leases σ α :=
  let (a, pool) := l.pool.acquire
  let l := (release { l with pool } name).2
  (a, { l with held := (name, a) :: l.held })

def modify (l : Leases σ α) (name : String) (f : α → α) : Leases σ α :=
  { l with held := l.held.map fun (key, a) => (key, if key = name then f a else a) }

/-- Lets the handler of the pool make an object that the pool knows nothing of. -/
def make (l : Leases σ α) : α × Leases σ α :=
  let (a, state) := l.pool.handler.create l.pool.state
  (a, { l with pool := { l.pool with state } })

end Leases

end Wireform

/-!
A pool of objects that are lent and come back. It starts out full; the longest idle object is lent
first, unless the handler finds it unfit, and then it is thrown away and the next one is looked at.
When none is idle a new object is made. An object that comes back is kept if there is room.

The handler of a pool makes and tends its objects. It has a state of its own, so that it may decide
differently each time it is asked.
-/

namespace Wireform

structure Handler (σ α : Type) where
  create : σ → α × σ
  /-- Done to an object when it is lent. -/
  activate : α → σ → α × σ := fun a s => (a, s)
  /-- Done to an object when it comes back. -/
  passivate : α → σ → α × σ := fun a s => (a, s)
  /-- Whether an idle object may be lent again. -/
  validate : α → σ → Bool × σ := fun _ s => (true, s)

structure Pool (σ α : Type) where
  handler : Handler σ α
  state : σ
  capacity : Nat
  /-- The idle objects, the longest idle one first. -/
  idle : List α := []
  created : Nat := 0
  /-- The objects that were made because none was idle. -/
  intermediate : Nat := 0
  recycled : Nat := 0
  discarded : Nat := 0

namespace Pool

variable {σ α : Type}

def make (h : Handler σ α) : (n : Nat) → σ → List α × σ
  | 0, s => ([], s)
  | n + 1, s =>
    let (a, s) := h.create s
    let (rest, s) := make h n s
    (a :: rest, s)

/-- The least power of two that is not below `requested`, and not below one. -/
def capacityFor (requested : Nat) : Nat := (max 1 requested).nextPowerOfTwo

def create (requested : Nat) (handler : Handler σ α) (state : σ) : Pool σ α :=
  let capacity := capacityFor requested
  let (idle, state) := make handler capacity state
  { handler, state, capacity, idle, created := capacity }

/-- Looks for an idle object that is fit to be lent, and throws away those that are not. -/
def findFit (h : Handler σ α) : List α → (discarded : Nat) → σ → Option α × List α × Nat × σ
  | [], discarded, s => (none, [], discarded, s)
  | a :: rest, discarded, s =>
    match h.validate a s with
    | (true, s) => (some a, rest, discarded, s)
    | (false, s) => findFit h rest (discarded + 1) s

def acquire (p : Pool σ α) : α × Pool σ α :=
  let (found, idle, discarded, state) := findFit p.handler p.idle p.discarded p.state
  let p := { p with idle, discarded }
  match found with
  | some a =>
    let (a, state) := p.handler.activate a state
    (a, { p with state, recycled := p.recycled + 1 })
  | none =>
    let (a, state) := p.handler.create state
    let (a, state) := p.handler.activate a state
    (a, { p with state, created := p.created + 1, intermediate := p.intermediate + 1 })

def release (p : Pool σ α) (a : α) : Pool σ α :=
  let (a, state) := p.handler.passivate a p.state
  if p.idle.length < p.capacity then { p with state, idle := p.idle ++ [a] }
  else { p with state, discarded := p.discarded + 1 }

def describe (p : Pool σ α) : String :=
  s!"ObjectPool \x7b capacity: {p.capacity}, idle: {p.idle.length} \x7d"

end Pool

end Wireform

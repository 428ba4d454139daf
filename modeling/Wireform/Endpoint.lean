import Wireform.Codec.Writer
import Wireform.Codec.Reader
import Wireform.Pool
import Wireform.Settings

/-!
One end of a conversation: a dialect with its memo, workspaces that are lent for single pieces of
work, and the sizes of the buffers that it makes. An endpoint writes objects to buffers and reads
them back. Work field by field is done with a workspace that is borrowed for as long as it lasts.
-/

namespace Wireform

namespace Workspace

/-- Workspaces go back clean, and only clean ones of the right sizes are lent again. -/
def handler (s : Settings) : Handler Unit Workspace :=
  let scratch := List.replicate s.scratchSize 0
  { create := fun u => (fresh scratch s.debug s.maxDepth, u)
    passivate := fun w u => (w.reset, u)
    validate := fun w u =>
      (w.scratch.length == s.scratchSize && w.maxDepth == s.maxDepth && w.clean, u) }

end Workspace

structure Endpoint where
  dialect : Dialect
  memo : Memo
  pool : Pool Unit Workspace
  initialCapacity : Nat
  maxCapacity : Nat

namespace Endpoint

variable {α : Type}

def create (d : Dialect) (s : Settings) : Except Failure Endpoint := do
  s.validate
  return {
    dialect := d
    memo := d.memo
    pool := Pool.create s.poolCapacity (Workspace.handler s) ()
    initialCapacity := s.initialCapacity
    maxCapacity := s.maxCapacity }

/-- An endpoint that speaks the dialect of a blueprint, with the types of a roster added to those
that the blueprint names. -/
def ofBlueprint (p : Dialect.Blueprint) (roster : Roster) (s : Settings) :
    Except Failure Endpoint := do
  s.validate
  create (← Dialect.build { p with roster := p.roster.extend roster }) s

def acquire (e : Endpoint) : Workspace × Endpoint :=
  let (work, pool) := e.pool.acquire
  (work, { e with pool })

def release (e : Endpoint) (work : Workspace) : Endpoint :=
  { e with pool := e.pool.release work }

/-- Does a piece of work on a buffer with a workspace that is already borrowed. -/
def use (act : Dialect → Action Bench α) : Action (Endpoint × Workspace × Buffer) α :=
  fun (e, work, buffer) =>
    match act e.dialect ⟨buffer, work, e.memo⟩ with
    | (r, ⟨buffer, work, memo⟩) => (r, { e with memo }, work, buffer)

/-- Borrows a workspace for one piece of work on a buffer and gives it back. -/
def perform (act : Dialect → Action Bench α) : Action (Endpoint × Buffer) α := fun (e, buffer) =>
  let (work, e) := e.acquire
  match use act (e, work, buffer) with
  | (r, e, work, buffer) => (r, e.release work, buffer)

def writeInto (field : String) (v : Value) : Action (Endpoint × Buffer) Unit :=
  perform fun d => Writer.object d field v

def newBuffer (e : Endpoint) : Buffer := Buffer.create e.initialCapacity e.maxCapacity

def write (field : String) (v : Value) : Action Endpoint Buffer := fun e =>
  match writeInto field v (e, e.newBuffer) with
  | (.ok _, (e, buffer)) => (.ok buffer, e)
  | (.error f, (e, _)) => (.error f, e)

def read : Action (Endpoint × Buffer) Value := perform fun d => Reader.object d "value"

/-- Reads an object that has to be of the given class. -/
def readAs (c : Class) : Action (Endpoint × Buffer) Value := do
  let v ← read
  Action.lift (v.expect c)

def describe (e : Endpoint) : String :=
  s!"Serializer \x7b protocol: {e.dialect.describe e.memo}, pool: {e.pool.describe} \x7d"

end Endpoint

end Wireform

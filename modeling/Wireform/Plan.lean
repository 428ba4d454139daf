import Wireform.Value
import Wireform.Action

/-!
How the body of a value is written and read, as data. A plan asks for one field after the other
and goes on with what comes back; what it asks for may fail, and the plan sees that and may go on
from there too. Formats and application types describe themselves by plans, and only the writer
and the reader carry plans out: so a plan cannot touch a buffer, a cursor or a nesting level in any
other way than by the fields that it asks for.
-/

namespace Wireform

/-- A type's own number on the wire. -/
structure TypeId where
  raw : Int16
  deriving DecidableEq, Repr

namespace TypeId

def ofInt (n : Int) : TypeId := ⟨Int16.ofInt n⟩

def toInt (id : TypeId) : Int := id.raw.toInt

/-- Numbers that are not positive belong to the library. -/
def reserved (id : TypeId) : Bool := id.toInt ≤ 0

end TypeId

/-- Requests `r : R`, each answered by an `A r` or a failure, and a result at the end. -/
inductive Plan {R : Type} (A : R → Type) (α : Type) where
  | done (a : α)
  | refuse (f : Failure)
  | ask (r : R) (next : Except Failure (A r) → Plan A α)

namespace Plan

variable {R : Type} {A : R → Type} {α β σ : Type}

/-- A plan with a failure ends there. -/
def bind : Plan A α → (α → Plan A β) → Plan A β
  | .done a, f => f a
  | .refuse e, _ => .refuse e
  | .ask r next, f => .ask r fun answer => (next answer).bind f

instance : Monad (Plan A) where
  pure := .done
  bind := Plan.bind

/-- A single request, whose failure is the plan's failure. -/
def request (r : R) : Plan A (A r) :=
  .ask r fun
    | .ok a => .done a
    | .error e => .refuse e

def lift : Except Failure α → Plan A α
  | .ok a => .done a
  | .error e => .refuse e

/-- Carries a plan out, given how single requests are answered. A plan gets to know of a failure
unless that is fatal. -/
def run (answer : (r : R) → Action σ (A r)) : Plan A α → Action σ α
  | .done a => fun s => (.ok a, s)
  | .refuse e => fun s => (.error e, s)
  | .ask r next => fun s =>
    match answer r s with
    | (.ok a, s) => (next (.ok a)).run answer s
    | (.error e, s) => if e.fatal then (.error e, s) else (next (.error e)).run answer s

@[simp] theorem pure_bind (a : α) (f : α → Plan A β) : (pure a >>= f : Plan A β) = f a := rfl

@[simp] theorem lift_ok (a : α) : (lift (.ok a) : Plan A α) = pure a := rfl

@[simp] theorem refuse_bind (e : Failure) (f : α → Plan A β) :
    (refuse e >>= f : Plan A β) = refuse e := rfl

theorem bind_bind {γ : Type} (p : Plan A α) (f : α → Plan A β) (g : β → Plan A γ) :
    p >>= f >>= g = p >>= fun a => f a >>= g := by
  show (p.bind f).bind g = p.bind fun a => (f a).bind g
  induction p with
  | done a => rfl
  | refuse e => rfl
  | ask r next ih => simp only [Plan.bind, ih]

/-! Running commutes with the ways in which plans are put together. -/

variable {answer : (r : R) → Action σ (A r)}

@[simp] theorem run_pure (a : α) : (pure a : Plan A α).run answer = pure a := rfl

@[simp] theorem run_refuse (e : Failure) :
    (refuse e : Plan A α).run answer = Action.fail e := rfl

@[simp] theorem run_lift (r : Except Failure α) :
    (lift r : Plan A α).run answer = Action.lift r := by
  cases r <;> rfl

@[simp] theorem run_request (r : R) : (request r : Plan A (A r)).run answer = answer r := by
  funext s
  simp only [request, run]
  rcases answer r s with ⟨e | a, t⟩
  · exact ite_self _
  · rfl

theorem run_ask (r : R) (next : Except Failure (A r) → Plan A α) :
    (ask r next).run answer = Action.attempt (answer r) >>= fun a => (next a).run answer := by
  funext s
  simp only [run, Action.bind_apply, Action.attempt]
  rcases answer r s with ⟨e | a, t⟩
  · by_cases he : e.fatal
    · simp only [if_pos he]
    · simp only [if_neg he]
  · rfl

@[simp] theorem run_bind (p : Plan A α) (f : α → Plan A β) :
    (p >>= f).run answer = p.run answer >>= fun a => (f a).run answer := by
  show (p.bind f).run answer = _
  induction p with
  | done a => rfl
  | refuse e => rfl
  | ask r next ih =>
    funext s
    rw [Action.bind_apply]
    simp only [Plan.bind, run]
    rcases answer r s with ⟨e | a, t⟩
    · by_cases he : e.fatal
      · simp only [he, if_true]
      · simp only [he, Bool.false_eq_true, if_false, ih]
        rfl
    · simp only [ih]
      rfl

theorem run_ite (c : Prop) [Decidable c] (p q : Plan A α) :
    (if c then p else q).run answer = if c then p.run answer else q.run answer :=
  apply_ite (run answer) c p q

@[simp] theorem run_map (f : α → β) (p : Plan A α) :
    (f <$> p).run answer = f <$> p.run answer := by
  show (p >>= fun a => pure (f a)).run answer = _
  rw [run_bind]
  rfl

end Plan

/-- What can be written into the body of a value. -/
inductive Field where
  | bool (v : Bool)
  | flags (v : Option (List Bool))
  | byte (v : Int8)
  | octet (v : UInt8)
  | bytes (v : List UInt8)
  | short (v : Int16)
  | char (v : Char)
  | int (v : Int32)
  | compactInt (v : Int32)
  | long (v : Int64)
  | compactLong (v : Int64)
  | float (bits : UInt32)
  | double (bits : UInt64)
  | text (v : String)
  /-- The number of the value's type, by which a reader finds that type again. -/
  | typeId (v : Value)
  | object (name : String) (v : Value)
  /-- A value that may be absent, with a byte in front that says whether it is. -/
  | nullable (name : String) (v : Option Value)
  deriving Repr

abbrev Field.Answer : Field → Type := fun _ => Unit

abbrev Script := Plan Field.Answer Unit

/-- What can be read from the body of a value. -/
inductive Request where
  | bool
  | flags
  | byte
  | octet
  | bytes (n : Nat)
  /-- Like `bytes`, with the length checked against what is there before anything else. -/
  | block (n : Nat)
  | short
  | char
  | int
  | compactInt
  | long
  | compactLong
  | float
  | double
  | text
  /-- The number of a type that is registered. -/
  | typeId
  | object (name : String)
  /-- An object that has to be of the given class. -/
  | objectAs (c : Class) (name : String)
  | nullable (name : String)
  deriving DecidableEq, Repr

def Request.Answer : Request → Type
  | bool => Bool
  | flags => Option (List Bool)
  | byte => Int8
  | octet => UInt8
  | bytes _ | block _ => List UInt8
  | short => Int16
  | char => Char
  | int | compactInt => Int32
  | long | compactLong => Int64
  | float => UInt32
  | double => UInt64
  | text => String
  | typeId => TypeId
  | object _ | objectAs .. => Value
  | nullable _ => Option Value

abbrev Reading (α : Type) := Plan Request.Answer α

namespace Script

def put (f : Field) : Script := Plan.request f

end Script

namespace Reading

def bool : Reading Bool := Plan.request Request.bool

def flags : Reading (Option (List Bool)) := Plan.request Request.flags

def byte : Reading Int8 := Plan.request Request.byte

def bytes (n : Nat) : Reading (List UInt8) := Plan.request (Request.bytes n)

def block (n : Nat) : Reading (List UInt8) := Plan.request (Request.block n)

def short : Reading Int16 := Plan.request Request.short

def char : Reading Char := Plan.request Request.char

def int : Reading Int32 := Plan.request Request.int

def compactInt : Reading Int32 := Plan.request Request.compactInt

def long : Reading Int64 := Plan.request Request.long

def compactLong : Reading Int64 := Plan.request Request.compactLong

def float : Reading UInt32 := Plan.request Request.float

def double : Reading UInt64 := Plan.request Request.double

def text : Reading String := Plan.request Request.text

def typeId : Reading TypeId := Plan.request Request.typeId

def object (name : String) : Reading Value := Plan.request (Request.object name)

def objectAs (c : Class) (name : String) : Reading Value := Plan.request (Request.objectAs c name)

def nullable (name : String) : Reading (Option Value) := Plan.request (Request.nullable name)

end Reading

end Wireform

import Wireform.Format.Builtin
import Wireform.Format.Packet
import Wireform.Roster

/-!
A dialect is what the two ends of a conversation agree on: the types, the formats with their
numbers, and the rules by which a value finds its format. A rule looks at a value and passes it on
or takes it, once or for all values of its class. What was decided for a class is remembered in a
`Memo`, which also counts how often each rule was asked.
-/

namespace Wireform

/-- What a rule says about a value. -/
inductive Verdict where
  | pass
  | accept
  /-- Accepted, and so will be all values of the same class. -/
  | acceptAll
  deriving DecidableEq, Repr

abbrev Selector := Value → Verdict

namespace Selector

def ofClass (c : Class) : Selector := fun v => if v.classOf = c then .acceptAll else .pass

def describeClass (c : Class) : String := s!"TypeFilter<{c.name}>"

/-- Decides by class, from a table. -/
def ofTable (table : List (Class × Verdict)) : Selector := fun v =>
  (table.lookup v.classOf).getD .pass

end Selector

/-- A format together with the number that stands for it on the wire. -/
structure Route where
  id : TypeId
  format : Format

structure Rule where
  select : Selector
  route : Route

structure Dialect where
  types : TypeTable
  /-- The formats by which a reader knows what comes. -/
  routes : List Route
  /-- The rules, in the order in which they are asked. -/
  rules : List Rule
  /-- The classes whose way is known from the start. -/
  settled : List (Class × Route)

/-- The ways found so far, and how often each rule has been asked. -/
structure Memo where
  known : List (Class × Route)
  asked : List Nat

namespace Dialect

def route? (d : Dialect) (id : TypeId) : Option Route := d.routes.find? (·.id = id)

/-- The memo of a conversation that has not begun. -/
def memo (d : Dialect) : Memo := ⟨d.settled, d.rules.map fun _ => 0⟩

/-- Asks the rules one after the other until one takes the value: the verdict and the way, if there
is one, and the number of rules asked. -/
def consult (v : Value) : List Rule → Option (Bool × Route) × Nat
  | [] => (none, 0)
  | rule :: rest =>
    match rule.select v with
    | .pass =>
      let (found, asked) := consult v rest
      (found, asked + 1)
    | .accept => (some (false, rule.route), 1)
    | .acceptAll => (some (true, rule.route), 1)

def countAsked : (n : Nat) → List Nat → List Nat
  | n + 1, count :: counts => (count + 1) :: countAsked n counts
  | _, counts => counts

/-- Finds the way of a value: the one known for its class, or the one of the first rule that takes
it. -/
def dispatch (d : Dialect) (v : Value) : Action Memo Route := fun m =>
  match m.known.lookup v.classOf with
  | some route => (.ok route, m)
  | none =>
    let (found, asked) := consult v d.rules
    let m := { m with asked := countAsked asked m.asked }
    match found with
    | none => (.error (Fault.unsuitable v.classOf.name), m)
    | some (forAll, route) =>
      (.ok route, if forAll then { m with known := (v.classOf, route) :: m.known } else m)

def describe (d : Dialect) (m : Memo) : String :=
  s!"Protocol \x7b types: {d.types.size}, marshallers: {d.routes.length}, " ++
    s!"filters: {d.rules.length}, cached: {m.known.length} \x7d"

/-! ### Building a dialect -/

/-- What an application brings: its types, the names of those it wants, and formats of its own. -/
structure Blueprint where
  registry : Registry
  roster : Roster := {}
  custom : List (Selector × Format) := []

/-- Adds the types of a roster to a table. The library's own type is there already. -/
def addTypes (registry : Registry) : TypeTable → List String → Except Failure TypeTable
  | types, [] => .ok types
  | types, name :: names =>
    if name = Packet.typeName then addTypes registry types names
    else match registry.find? name with
      | none => .error (Fault.undeclared name)
      | some entry =>
        match entry.id with
        | none => .error (Fault.missingTypeId name)
        | some id =>
          if id.reserved then .error (Fault.reservedTypeId name id.toInt)
          else do addTypes registry (← types.add entry) names

def builtinRoute (b : Builtin) : Route := ⟨b.id, b.format⟩

/-- The classes that have a built-in format to themselves. -/
def builtinSettled : List (Class × Route) :=
  Builtin.all.filterMap fun b => b.class?.map (·, builtinRoute b)

def kindVerdict (b : Builtin) (kind : Kind) : Option Verdict :=
  match b, kind with
  | .packet, .packet .. => some .acceptAll
  | .structured, .structured cacheable _ => some (if cacheable then .acceptAll else .accept)
  | .enumeration, .enumeration _ => some .acceptAll
  | _, _ => none

/-- The rule for one kind of types, unless there are none of that kind. -/
def kindRule (types : TypeTable) (b : Builtin) : Option Rule :=
  let table := types.entries.filterMap fun e => (kindVerdict b e.kind).map (e.valueClass, ·)
  if table.isEmpty then none else some ⟨Selector.ofTable table, builtinRoute b⟩

/-- The rules for the kinds of types, packets first. -/
def kindRules (types : TypeTable) : List Rule :=
  [.packet, .structured, .enumeration].filterMap (kindRule types)

/-- Adds formats of an application, each under a number that is still free. -/
def addCustom : List Route → List Rule → List (Selector × Format) →
    Except Failure (List Route × List Rule)
  | routes, rules, [] => .ok (routes, rules)
  | routes, rules, (select, format) :: rest =>
    match format.id with
    | none => .error Fault.formatWithoutId
    | some id =>
      if routes.any (·.id = id) then .error (Fault.sharedFormatId id.toInt)
      else addCustom (routes ++ [⟨id, format⟩]) (rules ++ [⟨select, ⟨id, format⟩⟩]) rest

def build (p : Blueprint) : Except Failure Dialect := do
  let types ← addTypes p.registry ⟨[Packet.entry]⟩ p.roster.names
  let (routes, rules) ← addCustom (Builtin.all.map builtinRoute) (kindRules types) p.custom
  return { types, routes, rules, settled := builtinSettled }

end Dialect

end Wireform

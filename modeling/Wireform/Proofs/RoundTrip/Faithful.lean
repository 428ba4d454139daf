import Wireform.Proofs.Reading.Foretelling
import Wireform.Proofs.RoundTrip.Portable

/-!
What an application owes to a dialect that it adds to. The values of a type of
its own are records of one name, and what is read as a value of the type is
one. That much is implied when types are told apart by their values at all. A
constant has a name of its own, by which it is found again, though it may be
found by others, too.

Of a value it can be seen which part the types of the application had in it. A
value is ordinary if there is none but constants of enumerations. Formats of the
application may give what they like. Only if it is an ordinary value there is
something to be asked of it, since others will take it for one of their own:
that it can be sent if the objects can that have been read for it.
-/

namespace Wireform

/-- Each constant that a name stands for has a name that stands for it. -/
def Constants.Inverts (constants : Constants) : Prop :=
  ∀ name v, (Text.bytes name).length ≤ Text.maxLength → constants.ofName name = some v →
    ∃ name', constants.name v = .ok name' ∧ (Text.bytes name').length ≤ Text.maxLength ∧
      constants.ofName name' = some v

/-- The type is one of the application's, and what is read as a value of the type is one. -/
structure TypeEntry.Faithful (entry : TypeEntry) : Prop extends entry.Typed where
  record : entry.kind ≠ .plain → ∃ type, entry.valueClass = .record type
  inverts : ∀ {constants}, entry.kind = .enumeration constants → constants.Inverts

namespace Value

mutual

/-- The value is made of the library's own values and of constants of registered enumerations. -/
def Ordinary (types : TypeTable) : Value → Prop
  | .message _ body => body.Ordinary types
  | .packet _ entries => OrdinaryIn types entries
  | .record type _ => ∃ entry constants, types.ofClass? (.record type) = some entry ∧
      entry.kind = .enumeration constants
  | .octet _ | .word _ | .flags _ => False
  | _ => True

def OrdinaryIn (types : TypeTable) : List (String × Value) → Prop
  | [] => True
  | (_, v) :: entries => v.Ordinary types ∧ OrdinaryIn types entries

end

theorem OrdinaryIn.of_mem {types : TypeTable} {entries : List (String × Value)}
    {entry : String × Value} (h : OrdinaryIn types entries) (hentry : entry ∈ entries) :
    entry.2.Ordinary types := by
  induction entries with
  | nil => cases hentry
  | cons first entries ih =>
      obtain ⟨hfirst, hrest⟩ := h
      rcases List.mem_cons.mp hentry with rfl | hmem
      · exact hfirst
      · exact ih hrest hmem

theorem not_ordinary {types : TypeTable} (htypes : types.Sound) {entry : TypeEntry}
    (hentry : entry ∈ types.entries) (hfaithful : entry.Faithful) (hplain : entry.kind ≠ .plain)
    (hkind : ∀ constants, entry.kind ≠ .enumeration constants) {v : Value}
    (hv : v.classOf = entry.valueClass) : ¬ v.Ordinary types := by
  obtain ⟨type, htype⟩ := hfaithful.record hplain
  cases v with
  | record type' fields =>
      rintro ⟨other, constants, hother, henum⟩
      have hfound := htypes.ofClass?_eq hentry
      rw [← hv] at hfound
      cases hother.symm.trans hfound
      exact hkind constants henum
  | _ => cases hv.trans htype

end Value

/-- If the value is an ordinary one, it can be sent. -/
def Returns (d : Dialect) (levels : Nat) (v : Value) : Prop :=
  v.Ordinary d.types → Portable d levels v

namespace Dialect

/-- The application keeps to what is its own in the dialect `d`. -/
structure Blueprint.Faithful (p : Blueprint) (d : Dialect) : Prop where
  types : ∀ entry ∈ d.types.entries, entry = Packet.entry ∨ entry.Faithful
  formats : ∀ own ∈ p.custom, ∀ levels,
    (own.2.read d.types).EndsIn (Request.Admits (Returns d levels)) (Returns d (levels + 1))

/-- What becomes of this in the dialect that is built. -/
structure Faithful (d : Dialect) : Prop where
  built : d.Built
  entries : ∀ entry ∈ d.types.entries, entry = Packet.entry ∨ entry.Faithful
  routes : ∀ route ∈ d.routes, (∃ b, route = builtinRoute b) ∨ ∀ levels,
    (route.format.read d.types).EndsIn (Request.Admits (Returns d levels)) (Returns d (levels + 1))

theorem Faithful.of_build {p : Blueprint} {d : Dialect} (h : build p = .ok d)
    (hp : p.Faithful d) : d.Faithful := by
  have hfollows := follows_of_build h
  refine ⟨hfollows.built, hp.types, fun route hroute => ?_⟩
  have hroutes : d.routes = _ := hfollows.offers.routes
  rw [hroutes, List.mem_append, List.mem_map, List.mem_map] at hroute
  rcases hroute with ⟨b, -, rfl⟩ | ⟨rule, hrule, rfl⟩
  · exact .inl ⟨b, rfl⟩
  · obtain ⟨own, hown, -, hformat, -⟩ := mem_ownRules.mp hrule
    rw [← hformat]
    exact .inr (hp.formats own hown)

end Dialect

end Wireform

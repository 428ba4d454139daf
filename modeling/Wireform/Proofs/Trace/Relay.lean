import Wireform.Proofs.Dialect.Manner
import Wireform.Proofs.Reading.Perusal
import Wireform.Proofs.Writing.Passing

/-!
Plans that relay the failures of objects. Such a plan ends with the failure of an
object that it has asked for, unchanged. With any other failure it may do what
it likes, and it may make failures of its own, as long as these are not fatal
and have no frames as yet.

To relay is a manner. So the formats of a dialect relay if those do that an
application brings, which is for the application to see to: there is nothing in
a plan's way to look at a failure and end with another.
-/

namespace Wireform

namespace Plan

variable {R : Type} {A : R → Type} {α β σ : Type} {nested : R → Bool}

/-- The failures of nested requests are passed on as they are. All other failures with which the
plan ends are plain if those are that it is shown. -/
def Relays (nested : R → Bool) : Plan A α → Prop
  | .done _ => True
  | .refuse f => f.Plain
  | .ask r next => (∀ a, (next (.ok a)).Relays nested) ∧
      (nested r = true → ∀ f, next (.error f) = .refuse f) ∧
      (nested r = false → ∀ f, f.Plain → (next (.error f)).Relays nested)

theorem relays_pure (a : α) : (pure a : Plan A α).Relays nested := trivial

theorem relays_refuse {f : Failure} (h : f.Plain) : (refuse f : Plan A α).Relays nested := h

theorem relays_request (r : R) : (request r : Plan A (A r)).Relays nested :=
  ⟨fun _ => trivial, fun _ _ => rfl, fun _ _ h => h⟩

theorem Relays.bind {p : Plan A α} {q : α → Plan A β} (hp : p.Relays nested)
    (hq : ∀ a, (q a).Relays nested) : (p >>= q).Relays nested := by
  show (p.bind q).Relays nested
  induction p with
  | done a => exact hq a
  | refuse f => exact hp
  | ask r next ih =>
      obtain ⟨hok, hnested, hother⟩ := hp
      exact ⟨fun a => ih _ (hok a), fun hr f => congrArg (·.bind q) (hnested hr f),
        fun hr f hf => ih _ (hother hr f hf)⟩

end Plan

open Plan

/-- A reading relays, and no failure that is shown to it leads to a fatal one. -/
structure Reading.Relays {α : Type} (p : Reading α) : Prop where
  relays : Plan.Relays Request.nested p
  calm : p.Calm

/-- To relay the failures of objects. -/
def Manner.relaying : Manner where
  Writes := Plan.Relays Field.nested
  Reads := Reading.Relays
  Refuses := Failure.Plain
  refuses := fun h => h
  writes_pure := relays_pure
  writes_refuse := relays_refuse
  writes_request := relays_request
  writes_bind := Relays.bind
  reads_pure := fun a => ⟨relays_pure a, failsIn_pure a⟩
  reads_refuse := fun h => ⟨relays_refuse h, failsIn_refuse h.fatal⟩
  reads_request := fun r => ⟨relays_request r, failsIn_request r⟩
  reads_bind := fun hp hq =>
    ⟨hp.relays.bind fun a => (hq a).relays, hp.calm.bind fun a => (hq a).calm⟩

def Dialect.Relays (d : Dialect) : Prop :=
  ∀ route ∈ d.routes, Manner.relaying.OfFormat route.format d.types

theorem Dialect.Relays.calm {d : Dialect} (h : d.Relays) : d.Calm :=
  ⟨fun route hroute => (h route hroute).read.calm,
    fun route hroute => (h route hroute).describe.calm⟩

end Wireform

import Wireform.Dialect
import Wireform.Proofs.Dialect.Types

/-!
Dialects in which nothing can be met but what the library brings and constants
of enumerations. What makes them so is that no application adds formats of its
own, and that its types are enumerations or known by name only. The values of
an enumeration are constants: they are of the one class that the enumeration is
registered for, which belongs to the application.
-/

namespace Wireform

/-- The entry is an enumeration, and what its names stand for are values of its own class. -/
structure TypeEntry.Enumerates (entry : TypeEntry) (constants : Constants) : Prop where
  kind : entry.kind = .enumeration constants
  record : ∃ type, entry.valueClass = .record type
  sound : ∀ name v, constants.ofName name = some v → v.classOf = entry.valueClass

/-- The dialect knows built-in formats only, and no types but enumerations besides the library's
own. -/
structure Dialect.Standard (d : Dialect) : Prop where
  routes : d.routes = Builtin.all.map Dialect.builtinRoute
  packet : d.types.byId? Packet.typeId = some Packet.entry
  kinds : ∀ entry ∈ d.types.entries, entry = Packet.entry ∨ entry.kind = .plain ∨
    ∃ constants, entry.Enumerates constants

theorem Builtin.find?_id (b : Builtin) : Builtin.all.find? (·.id = b.id) = some b := by
  cases b <;> rfl

theorem Builtin.mem_all (b : Builtin) : b ∈ Builtin.all := List.mem_of_find?_eq_some b.find?_id

theorem Builtin.id_injective {b c : Builtin} (h : b.id = c.id) : b = c := by
  have hb := b.find?_id
  rw [h, c.find?_id] at hb
  exact (Option.some.inj hb).symm

namespace Dialect

variable {d : Dialect}

/-- A built-in format is found by its number, whatever formats are added. -/
theorem route?_builtin {custom : List Route} (h : d.routes = Builtin.all.map builtinRoute ++ custom)
    (b : Builtin) : d.route? b.id = some (builtinRoute b) := by
  rw [route?, h, List.find?_append]
  cases b <;> rfl

theorem Standard.route? (hd : d.Standard) (b : Builtin) : d.route? b.id = some (builtinRoute b) :=
  route?_builtin (hd.routes.trans (List.append_nil _).symm) b

theorem Standard.builtin_of_route? (hd : d.Standard) {id : TypeId} {route : Route}
    (h : d.route? id = some route) : ∃ b, route = builtinRoute b ∧ b.id = id := by
  have hmem := List.mem_of_find?_eq_some h
  rw [hd.routes] at hmem
  obtain ⟨b, -, rfl⟩ := List.mem_map.mp hmem
  have hid := List.find?_some h
  exact ⟨b, rfl, of_decide_eq_true hid⟩

end Dialect

end Wireform

import Wireform.Registry

/-!
Tables of types in which no number and no class stands twice. Every table that
a conversation uses is one, since a type is only added if its number and its
class are both new. In such a table an entry is found by each of them.
-/

namespace Wireform

theorem find?_key {α κ : Type} [DecidableEq κ] {key : α → κ} {xs : List α} {x : α}
    (h : xs.Pairwise (key · ≠ key ·)) (hx : x ∈ xs) : xs.find? (key · = key x) = some x := by
  induction xs with
  | nil => cases hx
  | cons first xs ih =>
      obtain ⟨hfirst, hrest⟩ := List.pairwise_cons.mp h
      rcases List.mem_cons.mp hx with rfl | hmem
      · simp only [List.find?_cons, decide_true]
      · rw [List.find?_cons_of_neg (by simpa using hfirst x hmem)]
        exact ih hrest hmem

namespace TypeTable

/-- All entries have numbers, and no number and no class stands twice. -/
structure Sound (types : TypeTable) : Prop where
  numbered : ∀ entry ∈ types.entries, ∃ id, entry.id = some id
  ids : types.entries.Pairwise (·.id ≠ ·.id)
  classes : types.entries.Pairwise (·.valueClass ≠ ·.valueClass)

variable {types : TypeTable} {id : TypeId} {c : Class} {entry : TypeEntry}

theorem mem_of_byId? (h : types.byId? id = some entry) : entry ∈ types.entries :=
  List.mem_of_find?_eq_some h

theorem id_of_byId? (h : types.byId? id = some entry) : entry.id = some id := by
  simpa using List.find?_some h

theorem mem_of_ofClass? (h : types.ofClass? c = some entry) : entry ∈ types.entries :=
  List.mem_of_find?_eq_some h

theorem class_of_ofClass? (h : types.ofClass? c = some entry) : entry.valueClass = c := by
  simpa using List.find?_some h

theorem Sound.byId?_eq (h : types.Sound) (hentry : entry ∈ types.entries)
    (hid : entry.id = some id) : types.byId? id = some entry := by
  rw [byId?, ← hid]
  exact find?_key h.ids hentry

theorem Sound.ofClass?_eq (h : types.Sound) (hentry : entry ∈ types.entries) :
    types.ofClass? entry.valueClass = some entry :=
  find?_key h.classes hentry

/-- An entry that is found by its class has a number, by which it is found as well. -/
theorem Sound.exists_id (h : types.Sound) (hentry : types.ofClass? c = some entry) :
    ∃ id, entry.id = some id ∧ types.byId? id = some entry := by
  have hmem := mem_of_ofClass? hentry
  obtain ⟨id, hid⟩ := h.numbered entry hmem
  exact ⟨id, hid, h.byId?_eq hmem hid⟩

theorem Sound.single (entry : TypeEntry) (h : entry.id = some id) : Sound ⟨[entry]⟩ where
  numbered := by
    intro e he
    cases List.mem_singleton.mp he
    exact ⟨id, h⟩
  ids := List.pairwise_singleton _ _
  classes := List.pairwise_singleton _ _

/-- The two checks on a type with a number, and what comes of them. -/
theorem add_cases (types : TypeTable) (hid : entry.id = some id) :
    (∃ other, types.byId? id = some other ∧
      types.add entry = .error (Fault.sharedTypeId id.toInt other.name entry.name)) ∨
    (types.byId? id = none ∧ ∃ other, types.ofClass? entry.valueClass = some other ∧
      types.add entry = .error (Fault.registeredTwice entry.name)) ∨
    (types.byId? id = none ∧ types.ofClass? entry.valueClass = none ∧
      types.add entry = .ok ⟨types.entries ++ [entry]⟩) := by
  cases hfree : types.byId? id with
  | some other => exact .inl ⟨other, rfl, by simp only [add, hid, hfree]⟩
  | none =>
      cases hclass : types.ofClass? entry.valueClass with
      | some other =>
          refine .inr (.inl ⟨rfl, other, rfl, ?_⟩)
          simp only [add, hid, hfree, hclass, Option.isSome_some, if_true]
      | none =>
          refine .inr (.inr ⟨rfl, rfl, ?_⟩)
          simp only [add, hid, hfree, hclass]
          rfl

theorem Sound.push (h : types.Sound) (hid : entry.id = some id) (hfree : types.byId? id = none)
    (hclass : types.ofClass? entry.valueClass = none) : Sound ⟨types.entries ++ [entry]⟩ where
  numbered := by
    intro e he
    rcases List.mem_append.mp he with he | he
    · exact h.numbered e he
    · cases List.mem_singleton.mp he
      exact ⟨id, hid⟩
  ids := by
    refine List.pairwise_append.mpr ⟨h.ids, List.pairwise_singleton _ _, ?_⟩
    intro e he last hlast heq
    cases List.mem_singleton.mp hlast
    rw [h.byId?_eq he (heq.trans hid)] at hfree
    cases hfree
  classes := by
    refine List.pairwise_append.mpr ⟨h.classes, List.pairwise_singleton _ _, ?_⟩
    intro e he last hlast heq
    cases List.mem_singleton.mp hlast
    rw [← heq, h.ofClass?_eq he] at hclass
    cases hclass

end TypeTable

end Wireform

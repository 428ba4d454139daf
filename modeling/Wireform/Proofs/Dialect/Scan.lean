import Wireform.Proofs.Dialect.Standard

/-!
Building a dialect goes through the names of the roster and then through the
formats of the application, and it stops at the first of them that does not go
together with what came before. Both loops are scans for a flaw. So what is
said of one step of each is all that has to be said about them: whether the
step finds a flaw, and what has been put together if it does not.
-/

namespace Wireform

/-! ### Scans -/

section Scan

variable {α σ : Type} {flaw : List α → α → Fault → Prop} {before xs : List α} {x : α}
  {fault : Fault} {s : σ}

/-- The fault of the first element that has one, where `flaw` says which faults an element has
behind those that are `before` it. -/
inductive FirstFlaw (flaw : List α → α → Fault → Prop) : List α → List α → Fault → Prop where
  | here {before xs : List α} {x : α} {fault : Fault} (h : flaw before x fault) :
      FirstFlaw flaw before (x :: xs) fault
  | later {before xs : List α} {x : α} {fault : Fault} (hx : ∀ g, ¬ flaw before x g)
      (h : FirstFlaw flaw (before ++ [x]) xs fault) : FirstFlaw flaw before (x :: xs) fault

theorem FirstFlaw.exists_flaw (h : FirstFlaw flaw before xs fault) :
    ∃ pre x post, xs = pre ++ x :: post ∧ flaw (before ++ pre) x fault := by
  induction h with
  | @here before xs x fault h => exact ⟨[], x, xs, rfl, by rwa [List.append_nil]⟩
  | @later before xs y fault _ _ ih =>
      obtain ⟨pre, x, post, rfl, hflaw⟩ := ih
      exact ⟨y :: pre, x, post, rfl, by simpa using hflaw⟩

theorem exists_firstFlaw {pre : List α} (h : flaw (before ++ pre) x fault) (post : List α) :
    ∃ g, FirstFlaw flaw before (pre ++ x :: post) g := by
  induction pre generalizing before with
  | nil =>
      rw [List.append_nil] at h
      exact ⟨fault, .here h⟩
  | cons y pre ih =>
      by_cases hy : ∃ g, flaw before y g
      · obtain ⟨g, hg⟩ := hy
        exact ⟨g, .here hg⟩
      · have hrest : flaw ((before ++ [y]) ++ pre) x fault := by simpa using h
        obtain ⟨g, hg⟩ := ih hrest
        exact ⟨g, .later (not_exists.mp hy) hg⟩

theorem flawless_iff : (∀ g, ¬ FirstFlaw flaw [] xs g) ↔
    ∀ pre x post, xs = pre ++ x :: post → ∀ g, ¬ flaw pre x g := by
  constructor
  · rintro h pre x post rfl g hflaw
    rw [← List.nil_append pre] at hflaw
    obtain ⟨first, hfirst⟩ := exists_firstFlaw hflaw post
    exact h first hfirst
  · intro h g hfirst
    obtain ⟨pre, x, post, hxs, hflaw⟩ := hfirst.exists_flaw
    exact h pre x post hxs g hflaw

/-- A result that settles whether there is a flaw: it is the fault of one, or something that holds
when there is none. -/
inductive Settles (r : Except Failure σ) (Holds : σ → Prop) (Flaw : Fault → Prop) : Prop where
  | ok {s : σ} (hr : r = .ok s) (hs : Holds s) (hnone : ∀ fault, ¬ Flaw fault)
  | error {fault : Fault} (hr : r = .error fault) (hflaw : Flaw fault)

/-- The loop takes the elements one by one and stops at the first flaw. What it makes of those that
it has taken is what `Holds` says. -/
structure Scans (loop : σ → List α → Except Failure σ) (flaw : List α → α → Fault → Prop)
    (Holds : List α → σ → Prop) : Prop where
  nil : ∀ s, loop s [] = .ok s
  cons : ∀ s x xs, loop s (x :: xs) = loop s [x] >>= fun s => loop s xs
  step : ∀ before s x, Holds before s →
    Settles (loop s [x]) (Holds (before ++ [x])) (flaw before x)

theorem Scans.settles {loop : σ → List α → Except Failure σ} {Holds : List α → σ → Prop}
    (h : Scans loop flaw Holds) (hs : Holds before s) (xs : List α) :
    Settles (loop s xs) (Holds (before ++ xs)) (FirstFlaw flaw before xs) := by
  induction xs generalizing before s with
  | nil =>
      rw [List.append_nil]
      exact .ok (h.nil s) hs fun fault hfirst => nomatch hfirst
  | cons x xs ih =>
      rw [h.cons]
      cases h.step before s x hs with
      | error hr hflaw =>
          rw [hr]
          exact .error rfl (.here hflaw)
      | ok hr hs₁ hnone =>
          rw [hr, List.append_cons]
          cases ih hs₁ with
          | error hr' hlater => exact .error hr' (.later hnone hlater)
          | ok hr' hs' hrest =>
              refine .ok hr' hs' fun fault hfirst => ?_
              cases hfirst with
              | here hflaw => exact hnone fault hflaw
              | later _ hlater => exact hrest fault hlater

end Scan

/-! ### Names -/

/-- The type that a name in a roster stands for. The library's own is none of the registry's. -/
def Registry.listed? (registry : Registry) (name : String) : Option TypeEntry :=
  if name = Packet.typeName then none else registry.find? name

namespace Dialect

variable {registry : Registry} {types : TypeTable} {names before : List String}
  {name : String} {entry : TypeEntry} {id : TypeId}

/-- What may be wrong with a name behind those that are `before` it. -/
inductive NameFlaw (registry : Registry) (before : List String) (name : String) : Fault → Prop where
  | undeclared (hname : name ≠ Packet.typeName) (hfind : registry.find? name = none) :
      NameFlaw registry before name (.undeclared name)
  | unnumbered {entry : TypeEntry} (hentry : registry.listed? name = some entry)
      (hid : entry.id = none) : NameFlaw registry before name (.missingTypeId name)
  | reserved {entry : TypeEntry} {id : TypeId} (hentry : registry.listed? name = some entry)
      (hid : entry.id = some id) (hreserved : id.toInt ≤ 0) :
      NameFlaw registry before name (.reservedTypeId name id.toInt)
  | shared {entry entry' : TypeEntry} {id : TypeId} {other : String}
      (hentry : registry.listed? name = some entry) (hid : entry.id = some id)
      (hother : other ∈ before) (hentry' : registry.listed? other = some entry')
      (hid' : entry'.id = some id) :
      NameFlaw registry before name (.sharedTypeId id.toInt other name)
  /-- Two types of one class, which differ in their numbers. -/
  | twice {entry entry' : TypeEntry} (hentry : registry.listed? name = some entry)
      (hentry' : entry' ∈ Packet.entry :: before.filterMap registry.listed?)
      (hclass : entry'.valueClass = entry.valueClass) (hid : entry'.id ≠ entry.id) :
      NameFlaw registry before name (.registeredTwice name)

/-- The table has the library's own type and those that the names stand for, in their order. -/
structure Lists (registry : Registry) (names : List String) (types : TypeTable) : Prop where
  entries : types.entries = Packet.entry :: names.filterMap registry.listed?
  sound : types.Sound

theorem listed?_of_find? (hname : name ≠ Packet.typeName)
    (hfind : registry.find? name = some entry) : registry.listed? name = some entry := by
  rw [Registry.listed?, if_neg hname, hfind]

theorem listed?_of_find?_none (hfind : registry.find? name = none) :
    registry.listed? name = none := by
  rw [Registry.listed?, hfind, ite_self]

theorem find?_of_listed? (h : registry.listed? name = some entry) :
    name ≠ Packet.typeName ∧ registry.find? name = some entry := by
  unfold Registry.listed? at h
  split at h
  · cases h
  · next hname => exact ⟨hname, h⟩

theorem name_of_listed? (h : registry.listed? name = some entry) : entry.name = name := by
  simpa using List.find?_some (find?_of_listed? h).2

theorem mem_of_listed? (h : registry.listed? name = some entry) : entry ∈ registry.entries :=
  List.mem_of_find?_eq_some (find?_of_listed? h).2

theorem Lists.mem_iff (h : Lists registry names types) :
    entry ∈ types.entries ↔
      entry = Packet.entry ∨ ∃ name ∈ names, registry.listed? name = some entry := by
  rw [h.entries, List.mem_cons, List.mem_filterMap]

theorem Lists.skip (h : Lists registry before types) (hname : registry.listed? name = none) :
    Lists registry (before ++ [name]) types where
  entries := by
    rw [h.entries, List.filterMap_append, List.filterMap_cons_none hname, List.filterMap_nil,
      List.append_nil]
  sound := h.sound

theorem Lists.push (h : Lists registry before types) (hname : registry.listed? name = some entry)
    (hid : entry.id = some id) (hfree : types.byId? id = none)
    (hclass : types.ofClass? entry.valueClass = none) :
    Lists registry (before ++ [name]) ⟨types.entries ++ [entry]⟩ where
  entries := by
    rw [h.entries, List.filterMap_append, List.filterMap_cons_some hname]
    rfl
  sound := h.sound.push hid hfree hclass

theorem reserved_iff : id.reserved = true ↔ id.toInt ≤ 0 := decide_eq_true_iff

theorem addTypes_cons (registry : Registry) (types : TypeTable) (name : String)
    (names : List String) : addTypes registry types (name :: names) =
      addTypes registry types [name] >>= fun types => addTypes registry types names := by
  simp only [addTypes]
  split
  · rfl
  · split
    · rfl
    · split
      · rfl
      · split
        · rfl
        · cases types.add _ <;> rfl

/-- A number that is not reserved is shared, if at all, with a name from before. -/
theorem exists_other (htypes : Lists registry before types) (hreserved : ¬ id.toInt ≤ 0)
    {other : TypeEntry} (hother : types.byId? id = some other) :
    ∃ name ∈ before, registry.listed? name = some other ∧ other.id = some id := by
  have hid := TypeTable.id_of_byId? hother
  rcases htypes.mem_iff.mp (TypeTable.mem_of_byId? hother) with rfl | ⟨name, hname, hlisted⟩
  · cases hid
    exact absurd (by decide) hreserved
  · exact ⟨name, hname, hlisted, hid⟩

theorem Lists.settles_add (h : Lists registry before types)
    (hname : registry.listed? name = some entry) (hid : entry.id = some id)
    (hreserved : ¬ id.toInt ≤ 0) :
    Settles (types.add entry) (Lists registry (before ++ [name]))
      (NameFlaw registry before name) := by
  rcases types.add_cases hid with ⟨other, hother, hr⟩ | ⟨hfree, other, hother, hr⟩ |
    ⟨hfree, hclass, hr⟩
  · obtain ⟨name', hbefore, hname', hid'⟩ := exists_other h hreserved hother
    rw [name_of_listed? hname, name_of_listed? hname'] at hr
    exact .error hr (.shared hname hid hbefore hname' hid')
  · have hmem := TypeTable.mem_of_ofClass? hother
    have hnumber : other.id ≠ entry.id := by
      rw [TypeTable.byId?, List.find?_eq_none] at hfree
      rw [hid]
      exact fun hsame => hfree other hmem (decide_eq_true hsame)
    rw [name_of_listed? hname] at hr
    exact .error hr (.twice hname (h.entries ▸ hmem) (TypeTable.class_of_ofClass? hother) hnumber)
  · refine .ok hr (h.push hname hid hfree hclass) fun fault hflaw => ?_
    cases hflaw with
    | undeclared hne hnone => simp [listed?_of_find?_none hnone] at hname
    | unnumbered hentry hnone =>
        cases hname.symm.trans hentry
        cases hid.symm.trans hnone
    | reserved hentry hid' hle =>
        cases hname.symm.trans hentry
        cases hid.symm.trans hid'
        exact hreserved hle
    | shared hentry hid' hother hentry' hshared =>
        cases hname.symm.trans hentry
        cases hid.symm.trans hid'
        have hfound := h.sound.byId?_eq (h.mem_iff.mpr (.inr ⟨_, hother, hentry'⟩)) hshared
        cases hfree.symm.trans hfound
    | twice hentry hentry' hsame =>
        cases hname.symm.trans hentry
        have hfound := h.sound.ofClass?_eq (h.entries.symm ▸ hentry')
        rw [hsame, hclass] at hfound
        cases hfound

theorem settles_addTypes (h : Lists registry before types) :
    Settles (addTypes registry types [name]) (Lists registry (before ++ [name]))
      (NameFlaw registry before name) := by
  rw [addTypes]
  split
  · next hname =>
    -- the name of the library's own type stands for nothing else, whatever is registered under it
    have hnone : registry.listed? name = none := if_pos hname
    refine .ok rfl (h.skip hnone) fun fault hflaw => ?_
    cases hflaw with
    | undeclared hne => exact hne hname
    | unnumbered hentry => simp [hnone] at hentry
    | reserved hentry => simp [hnone] at hentry
    | shared hentry => simp [hnone] at hentry
    | twice hentry => simp [hnone] at hentry
  · next hname =>
    cases hfind : registry.find? name with
    | none => exact .error rfl (.undeclared hname hfind)
    | some entry =>
      have hentry := listed?_of_find? hname hfind
      cases hid : entry.id with
      | none =>
        simp only [hid]
        exact .error rfl (.unnumbered hentry hid)
      | some id =>
        simp only [hid]
        by_cases hreserved : id.reserved = true
        · rw [if_pos hreserved]
          exact .error rfl (.reserved hentry hid (reserved_iff.mp hreserved))
        · rw [if_neg hreserved]
          rw [reserved_iff] at hreserved
          cases h.settles_add hentry hid hreserved with
          | ok hr hs hnone => exact .ok (by rw [hr]; rfl) hs hnone
          | error hr hflaw => exact .error (by rw [hr]; rfl) hflaw

theorem scans_addTypes (registry : Registry) :
    Scans (addTypes registry) (NameFlaw registry) (Lists registry) where
  nil _ := rfl
  cons := addTypes_cons registry
  step _ _ _ h := settles_addTypes h

theorem lists_nil (registry : Registry) : Lists registry [] ⟨[Packet.entry]⟩ where
  entries := rfl
  sound := .single Packet.entry rfl

/-! ### Formats -/

variable {own : Selector × Format} {custom earlier : List (Selector × Format)} {rules : List Rule}
  {lists : List Route × List Rule}

def ownRule? (own : Selector × Format) : Option Rule :=
  own.2.id.map fun id => ⟨own.1, ⟨id, own.2⟩⟩

def ownRules (custom : List (Selector × Format)) : List Rule := custom.filterMap ownRule?

/-- What may be wrong with a format behind those that are `earlier`. -/
inductive FormatFlaw (earlier : List (Selector × Format)) (own : Selector × Format) :
    Fault → Prop where
  | unnumbered (hid : own.2.id = none) : FormatFlaw earlier own .formatWithoutId
  | builtin {b : Builtin} (hid : own.2.id = some b.id) :
      FormatFlaw earlier own (.sharedFormatId b.id.toInt)
  | shared {other : Selector × Format} {id : TypeId} (hid : own.2.id = some id)
      (hother : other ∈ earlier) (hid' : other.2.id = some id) :
      FormatFlaw earlier own (.sharedFormatId id.toInt)

/-- The ways and the rules are those that are there anyway, with those of the application behind. No
two of the ways have the same number. -/
structure Offers (rules : List Rule) (custom : List (Selector × Format))
    (lists : List Route × List Rule) : Prop where
  routes : lists.1 = Builtin.all.map builtinRoute ++ (ownRules custom).map (·.route)
  rules : lists.2 = rules ++ ownRules custom
  distinct : lists.1.Pairwise (·.id ≠ ·.id)

theorem ownRules_concat (hid : own.2.id = some id) :
    ownRules (earlier ++ [own]) = ownRules earlier ++ [⟨own.1, ⟨id, own.2⟩⟩] := by
  have hrule : ownRule? own = some ⟨own.1, ⟨id, own.2⟩⟩ := by rw [ownRule?, hid]; rfl
  rw [ownRules, List.filterMap_append, List.filterMap_cons_some hrule]
  rfl

theorem mem_ownRules {rule : Rule} : rule ∈ ownRules custom ↔
    ∃ own ∈ custom, own.1 = rule.select ∧ own.2 = rule.route.format ∧
      own.2.id = some rule.route.id := by
  simp only [ownRules, List.mem_filterMap]
  refine exists_congr fun own => and_congr_right fun _ => ?_
  constructor
  · intro hrule
    obtain ⟨id, hid, rfl⟩ := Option.map_eq_some_iff.mp hrule
    exact ⟨rfl, rfl, hid⟩
  · rintro ⟨hselect, hformat, hid⟩
    rw [ownRule?, hid, hselect, hformat]
    rfl

theorem Offers.push (h : Offers rules earlier lists) (hid : own.2.id = some id)
    (hfree : ¬ lists.1.any (·.id = id) = true) : Offers rules (earlier ++ [own])
      (lists.1 ++ [⟨id, own.2⟩], lists.2 ++ [⟨own.1, ⟨id, own.2⟩⟩]) where
  routes := by
    rw [h.routes, ownRules_concat hid, List.map_append, List.append_assoc]
    rfl
  rules := by
    rw [h.rules, ownRules_concat hid, List.append_assoc]
  distinct := by
    simpa [List.pairwise_append, h.distinct] using hfree

theorem Offers.taken_iff (h : Offers rules earlier lists) :
    lists.1.any (·.id = id) = true ↔
      (∃ b : Builtin, id = b.id) ∨ ∃ other ∈ earlier, other.2.id = some id := by
  simp only [h.routes, List.any_eq_true, List.mem_append, List.mem_map, decide_eq_true_eq]
  constructor
  · rintro ⟨route, ⟨b, -, rfl⟩ | ⟨rule, hrule, rfl⟩, rfl⟩
    · exact .inl ⟨b, rfl⟩
    · obtain ⟨other, hother, -, -, hid⟩ := mem_ownRules.mp hrule
      exact .inr ⟨other, hother, hid⟩
  · rintro (⟨b, rfl⟩ | ⟨other, hother, hid⟩)
    · exact ⟨builtinRoute b, .inl ⟨b, b.mem_all, rfl⟩, rfl⟩
    · exact ⟨⟨id, other.2⟩, .inr ⟨⟨other.1, ⟨id, other.2⟩⟩,
        mem_ownRules.mpr ⟨other, hother, rfl, rfl, hid⟩, rfl⟩, rfl⟩

theorem settles_addCustom (h : Offers rules earlier lists) :
    Settles (addCustom lists.1 lists.2 [own]) (Offers rules (earlier ++ [own]))
      (FormatFlaw earlier own) := by
  rw [addCustom]
  cases hid : own.2.id with
  | none => exact .error rfl (.unnumbered hid)
  | some id =>
    simp only
    by_cases htaken : lists.1.any (·.id = id) = true
    · rw [if_pos htaken]
      rcases h.taken_iff.mp htaken with ⟨b, rfl⟩ | ⟨other, hother, hid'⟩
      · exact .error rfl (.builtin hid)
      · exact .error rfl (.shared hid hother hid')
    · rw [if_neg htaken]
      refine .ok rfl (h.push hid htaken) fun fault hflaw => htaken (h.taken_iff.mpr ?_)
      cases hflaw with
      | unnumbered hnone => cases hid.symm.trans hnone
      | @builtin b hb =>
          cases hid.symm.trans hb
          exact .inl ⟨b, rfl⟩
      | @shared other _ hid' hother hother' =>
          cases hid.symm.trans hid'
          exact .inr ⟨other, hother, hother'⟩

theorem addCustom_cons (routes : List Route) (rules : List Rule) (own : Selector × Format)
    (custom : List (Selector × Format)) : addCustom routes rules (own :: custom) =
      addCustom routes rules [own] >>= fun lists => addCustom lists.1 lists.2 custom := by
  simp only [addCustom]
  split
  · rfl
  · split <;> rfl

theorem scans_addCustom (rules : List Rule) :
    Scans (fun lists custom => addCustom lists.1 lists.2 custom) FormatFlaw (Offers rules) where
  nil _ := rfl
  cons lists := addCustom_cons lists.1 lists.2
  step _ _ _ h := settles_addCustom h

theorem offers_nil (rules : List Rule) : Offers rules [] (Builtin.all.map builtinRoute, rules) where
  routes := (List.append_nil _).symm
  rules := (List.append_nil _).symm
  distinct := by
    have hbuiltin : (Builtin.all.map builtinRoute).Pairwise (·.id ≠ ·.id) := by decide
    exact hbuiltin

end Dialect

end Wireform

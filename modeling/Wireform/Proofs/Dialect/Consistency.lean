import Wireform.Proofs.Dialect.Build
import Wireform.Proofs.Roster.Order
import Wireform.Proofs.RoundTrip.Builtin
import Wireform.Sample.Formats

/-!
From which blueprints a dialect can be built: from those whose names and formats
are as they should be one by one and do not share numbers. From any other
blueprint building ends with the first flaw that it meets.

A dialect that has been built has a table with the library's own type and those
that are listed. Looking up by number and looking up by class show the same
entries, so a type whose number has been written is found again by the reader.

A table of types has two checks on what is added to it, by number and by class.
As long as no class has two numbers the second one never finds anything.
-/

namespace Wireform

variable {registry : Registry} {names : List String} {custom : List (Selector × Format)}
  {fault : Fault}

/-- Each class has one number, also the class of the library's own type. -/
def Registry.Coherent (registry : Registry) : Prop :=
  ∀ e ∈ Packet.entry :: registry.entries, ∀ e' ∈ Packet.entry :: registry.entries,
    e.valueClass = e'.valueClass → e.id = e'.id

/-- Every name but that of the library's own type is declared. What it stands for has a positive
number, and no other name the same. -/
structure Registry.Provides (registry : Registry) (names : List String) : Prop where
  declared : ∀ name ∈ names, name ≠ Packet.typeName → ∃ entry, registry.find? name = some entry
  numbered : ∀ name ∈ names, ∀ entry, registry.listed? name = some entry →
    ∃ id, entry.id = some id ∧ 0 < id.toInt
  distinct : ∀ name ∈ names, ∀ other ∈ names, ∀ entry entry', registry.listed? name = some entry →
    registry.listed? other = some entry' → entry.id = entry'.id → name = other

namespace Dialect

variable {p : Blueprint} {d : Dialect}

/-- The names are provided for. Every format has a number that is not built in, and no other format
the same. -/
structure Blueprint.Consistent (p : Blueprint) : Prop where
  names : p.registry.Provides p.roster.names
  numbered : ∀ own ∈ p.custom, ∃ id, own.2.id = some id ∧ ∀ b : Builtin, id ≠ b.id
  distinct : p.custom.Pairwise (·.2.id ≠ ·.2.id)

/-- The table of types has two views, by number and by class, of the same entries. These are the
library's own type and those that are listed. -/
structure Tables (p : Blueprint) (d : Dialect) : Prop where
  mem_iff : ∀ entry, entry ∈ d.types.entries ↔
    entry = Packet.entry ∨ ∃ name ∈ p.roster.names, p.registry.listed? name = some entry
  byId?_iff : ∀ id entry,
    d.types.byId? id = some entry ↔ entry ∈ d.types.entries ∧ entry.id = some id
  ofClass?_iff : ∀ c entry,
    d.types.ofClass? c = some entry ↔ entry ∈ d.types.entries ∧ entry.valueClass = c

/-! ### Names and formats that go together -/

theorem provides_of_flawless (h : ∀ g, ¬ FirstFlaw (NameFlaw registry) [] names g) :
    registry.Provides names := by
  rw [flawless_iff] at h
  have hnumbered : ∀ name ∈ names, ∀ entry, registry.listed? name = some entry →
      ∃ id, entry.id = some id ∧ 0 < id.toInt := by
    intro name hmem entry hentry
    obtain ⟨pre, post, hsplit⟩ := List.append_of_mem hmem
    cases hid : entry.id with
    | none => exact absurd (.unnumbered hentry hid) (h pre name post hsplit _)
    | some id =>
        refine ⟨id, rfl, Int.not_le.mp fun hle => ?_⟩
        exact h pre name post hsplit _ (.reserved hentry hid hle)
  -- of two names that share a number the later one has the flaw
  have hlater : ∀ pre name post, names = pre ++ name :: post → ∀ other ∈ pre,
      ∀ entry entry', registry.listed? name = some entry →
        registry.listed? other = some entry' → entry.id ≠ entry'.id := by
    intro pre name post hsplit other hother entry entry' hentry hentry' hsame
    obtain ⟨id, hid, -⟩ := hnumbered name (by simp [hsplit]) entry hentry
    exact h pre name post hsplit _ (.shared hentry hid hother hentry' (hsame ▸ hid))
  refine ⟨?_, hnumbered, ?_⟩
  · intro name hmem hname
    obtain ⟨pre, post, hsplit⟩ := List.append_of_mem hmem
    cases hfind : registry.find? name with
    | none => exact absurd (.undeclared hname hfind) (h pre name post hsplit _)
    | some entry => exact ⟨entry, rfl⟩
  · intro name hmem other hother entry entry' hentry hentry' hsame
    obtain ⟨pre, post, hsplit⟩ := List.append_of_mem hmem
    rw [hsplit, List.mem_append, List.mem_cons] at hother
    rcases hother with hother | rfl | hother
    · exact absurd hsame (hlater pre name post hsplit other hother _ _ hentry hentry')
    · rfl
    · obtain ⟨mid, rest, hpost⟩ := List.append_of_mem hother
      have hsplit' : names = (pre ++ name :: mid) ++ other :: rest := by simp [hsplit, hpost]
      exact absurd hsame.symm
        (hlater _ other rest hsplit' name (by simp) entry' entry hentry' hentry)

theorem not_twice (hclasses : registry.Coherent) {before : List String} {name other : String} :
    ¬ NameFlaw registry before name (.registeredTwice other) := by
  rintro (_ | _ | _ | _ | ⟨hentry, hentry', hclass, hid⟩)
  have hknown : Packet.entry :: before.filterMap registry.listed? ⊆
      Packet.entry :: registry.entries := by
    refine List.cons_subset_cons _ fun entry hmem => ?_
    obtain ⟨earlier, -, hlisted⟩ := List.mem_filterMap.mp hmem
    exact mem_of_listed? hlisted
  exact hid (hclasses _ (hknown hentry') _ (List.mem_cons_of_mem _ (mem_of_listed? hentry)) hclass)

theorem flawless_of_provides (hclasses : registry.Coherent) (h : registry.Provides names)
    (hnodup : names.Nodup) (g : Fault) : ¬ FirstFlaw (NameFlaw registry) [] names g := by
  refine flawless_iff.mpr ?_ g
  intro pre name post hsplit g hflaw
  have hmem : name ∈ names := by simp [hsplit]
  cases hflaw with
  | undeclared hname hfind =>
      obtain ⟨entry, hentry⟩ := h.declared name hmem hname
      simp [hfind] at hentry
  | unnumbered hentry hid =>
      obtain ⟨id, hid', -⟩ := h.numbered name hmem _ hentry
      simp [hid] at hid'
  | reserved hentry hid hle =>
      obtain ⟨id, hid', hpos⟩ := h.numbered name hmem _ hentry
      cases hid.symm.trans hid'
      omega
  | twice hentry hentry' hclass hid =>
      exact not_twice hclasses (.twice hentry hentry' hclass hid)
  | @shared _ _ _ other hentry hid hother hentry' hid' =>
      have hmem' : other ∈ names := by simp [hsplit, hother]
      have hsame := h.distinct name hmem other hmem' _ _ hentry hentry' (hid.trans hid'.symm)
      rw [hsplit, List.nodup_append] at hnodup
      exact hnodup.2.2 other hother name List.mem_cons_self hsame.symm

theorem formats_flawless_iff : (∀ g, ¬ FirstFlaw FormatFlaw [] custom g) ↔
    (∀ own ∈ custom, ∃ id, own.2.id = some id ∧ ∀ b : Builtin, id ≠ b.id) ∧
      custom.Pairwise (·.2.id ≠ ·.2.id) := by
  rw [flawless_iff]
  constructor
  · intro h
    have hnumbered : ∀ own ∈ custom, ∃ id, own.2.id = some id ∧ ∀ b : Builtin, id ≠ b.id := by
      intro own hmem
      obtain ⟨pre, post, hsplit⟩ := List.append_of_mem hmem
      cases hid : own.2.id with
      | none => exact absurd (.unnumbered hid) (h pre own post hsplit _)
      | some id =>
          refine ⟨id, rfl, ?_⟩
          rintro b rfl
          exact h pre own post hsplit _ (.builtin hid)
    refine ⟨hnumbered, List.pairwise_iff_forall_sublist.mpr ?_⟩
    intro other own hsub hsame
    obtain ⟨pre, rest, hcustom, hother, hrest⟩ := List.cons_sublist_iff.mp hsub
    obtain ⟨mid, post, rfl⟩ := List.append_of_mem (List.singleton_sublist.mp hrest)
    obtain ⟨id, hid, -⟩ := hnumbered own (by simp [hcustom])
    have hflaw : FormatFlaw (pre ++ mid) own (.sharedFormatId id.toInt) :=
      .shared hid (List.mem_append_left _ hother) (hsame.trans hid)
    exact h (pre ++ mid) own post (by simp [hcustom]) _ hflaw
  · rintro ⟨hnumbered, hdistinct⟩ pre own post hsplit g hflaw
    obtain ⟨id, hid, hfree⟩ := hnumbered own (by simp [hsplit])
    cases hflaw with
    | unnumbered hnone => simp [hid] at hnone
    | @builtin b hb =>
        cases hid.symm.trans hb
        exact hfree b rfl
    | shared hown hother hid' =>
        rw [hsplit, List.pairwise_append] at hdistinct
        exact hdistinct.2.2 _ hother own List.mem_cons_self (hid'.trans hown.symm)

theorem Blueprint.consistent_iff (hclasses : p.registry.Coherent)
    (hnodup : p.roster.names.Nodup) : p.Consistent ↔ ∀ fault, ¬ p.Fails fault := by
  constructor
  · intro h fault hfails
    have hformats := formats_flawless_iff.mpr ⟨h.numbered, h.distinct⟩
    cases hfails with
    | name hfirst => exact flawless_of_provides hclasses h.names hnodup fault hfirst
    | format _ hfirst => exact hformats fault hfirst
  · intro h
    have hnames := fun g hfirst => h g (.name hfirst)
    have hformats := fun g hfirst => h g (.format hnames hfirst)
    obtain ⟨hnumbered, hdistinct⟩ := formats_flawless_iff.mp hformats
    exact ⟨provides_of_flawless hnames, hnumbered, hdistinct⟩

/-! ### Building -/

theorem Follows.tables (h : d.Follows p) : Tables p d where
  mem_iff _ := h.types.mem_iff
  byId?_iff id entry := by
    constructor
    · intro hfound
      exact ⟨TypeTable.mem_of_byId? hfound, TypeTable.id_of_byId? hfound⟩
    · rintro ⟨hmem, hid⟩
      exact h.types.sound.byId?_eq hmem hid
  ofClass?_iff c entry := by
    constructor
    · intro hfound
      exact ⟨TypeTable.mem_of_ofClass? hfound, TypeTable.class_of_ofClass? hfound⟩
    · rintro ⟨hmem, rfl⟩
      exact h.types.sound.ofClass?_eq hmem

theorem Blueprint.Fails.ne_registeredTwice (hclasses : p.registry.Coherent) (h : p.Fails fault)
    (name : String) : fault ≠ .registeredTwice name := by
  rintro rfl
  cases h with
  | name hfirst =>
      obtain ⟨pre, other, post, -, hflaw⟩ := hfirst.exists_flaw
      exact not_twice hclasses hflaw
  | format _ hfirst =>
      obtain ⟨pre, own, post, -, hflaw⟩ := hfirst.exists_flaw
      cases hflaw

def Blueprint.of (registry : Registry) (names : List String) (custom : List (Selector × Format)) :
    Blueprint := ⟨registry, Roster.ofList names, custom⟩

/-- Where every class has one number, the consistent blueprints are those that a dialect can be
built from. For the others building tells the first flaw. -/
theorem build_settled (hclasses : registry.Coherent) (names : List String)
    (custom : List (Selector × Format)) :
    ((∃ d, build (.of registry names custom) = .ok d) ↔
      (Blueprint.of registry names custom).Consistent) ∧
    (∀ f, build (.of registry names custom) = .error f → ∃ fault : Fault, f = fault ∧
      (Blueprint.of registry names custom).Fails fault ∧ ∀ name, fault ≠ .registeredTwice name) ∧
    ∀ d, build (.of registry names custom) = .ok d → Tables (.of registry names custom) d ∧
      ∀ v entry, d.types.ofClass? v.classOf = some entry →
        ∃ e, Mirrors d 0 (Script.put (.typeId v)) d.types.readEntry entry e := by
  have hnodup : (Blueprint.of registry names custom).roster.names.Nodup := Roster.nodup_ofList names
  have hsettles := settles_build (.of registry names custom)
  refine ⟨?_, ?_, ?_⟩
  · rw [Blueprint.consistent_iff hclasses hnodup]
    cases hsettles with
    | ok hr _ hnone => exact ⟨fun _ => hnone, fun _ => ⟨_, hr⟩⟩
    | error hr hfails =>
        refine ⟨?_, fun hnone => absurd hfails (hnone _)⟩
        rintro ⟨d, hd⟩
        cases hd.symm.trans hr
  · intro f hf
    cases hsettles with
    | ok hr => cases hf.symm.trans hr
    | @error fault hr hfails =>
        cases hf.symm.trans hr
        exact ⟨fault, rfl, hfails, hfails.ne_registeredTwice hclasses⟩
  · intro d hd
    have hfollows := follows_of_build hd
    exact ⟨hfollows.tables, fun v entry hentry => exists_mirrors_entry hfollows.built hentry⟩

/-- Points and their double have the same number, so they do not go together. -/
theorem build_settled_clash :
    let registry := Sample.registry [(.structured, "Point"), (.plain, "Clash")]
    registry.Coherent ∧
      (∃ d, build (.of registry ["demo::Point", "demo::Point"] []) = .ok d ∧
        Tables (.of registry ["demo::Point", "demo::Point"] []) d) ∧
      ¬ (Blueprint.of registry ["demo::Point", "demo::Clash"] []).Consistent ∧
      (Blueprint.of registry ["demo::Point", "demo::Clash"] []).Fails
        (.sharedTypeId 1 "demo::Point" "demo::Clash") := by
  have hclasses : (Sample.registry [(.structured, "Point"), (.plain, "Clash")]).Coherent := by
    unfold Registry.Coherent
    decide
  obtain ⟨-, -, htables⟩ := build_settled hclasses ["demo::Point", "demo::Point"] []
  obtain ⟨hiff, hfirst, -⟩ := build_settled hclasses ["demo::Point", "demo::Clash"] []
  obtain ⟨fault, hfault, hfails, -⟩ := hfirst _ rfl
  refine ⟨hclasses, ⟨_, rfl, (htables _ rfl).1⟩, ?_, ?_⟩
  · intro hconsistent
    obtain ⟨d, hd⟩ := hiff.mpr hconsistent
    cases hd
  · cases congrArg Failure.fault hfault
    exact hfails

end Dialect

end Wireform

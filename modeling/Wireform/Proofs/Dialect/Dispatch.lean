import Wireform.Proofs.Dialect.Build

/-!
How a value finds its format. The classes that the library knows are settled
from the start. A class of a registered type is decided by the rule for the
kind of that type, since rules for kinds are asked before those of an
application, and a type has only one kind.

What has been decided is remembered, so the way of a value also depends on what
was asked before. It does so only in appearance: in every memo that a
conversation can get to, what is remembered is what the rules would say again.

What a single dispatch can do to a memo is said by `Decides`, case by case. All
that is said of memos is read off these cases.
-/

namespace Wireform

def Kind.builtin? : Kind → Option Builtin
  | plain => none
  | structured .. => some .structured
  | packet .. => some .packet
  | enumeration _ => some .enumeration

namespace Dialect

variable {d : Dialect} {types : TypeTable} {entry : TypeEntry} {b : Builtin} {v : Value}
  {rules before rest : List Rule} {rule : Rule} {m : Memo} {o : Except Failure Route × Memo}

/-! ### Asking rules -/

/-- Either all rules pass or one of them is the first that does not. -/
theorem rules_cases (v : Value) (rules : List Rule) :
    (∀ rule ∈ rules, rule.select v = .pass) ∨ ∃ before rule after, rules = before ++ rule :: after ∧
      (∀ other ∈ before, other.select v = .pass) ∧ rule.select v ≠ .pass := by
  cases hfind : rules.find? (·.select v ≠ .pass) with
  | none => exact .inl (by simpa using hfind)
  | some rule =>
      obtain ⟨htakes, before, after, hrules, hpass⟩ := List.find?_eq_some_iff_append.mp hfind
      exact .inr ⟨before, rule, after, hrules, by simpa using hpass, by simpa using htakes⟩

/-- Rules that pass leave the decision to those behind them. -/
theorem consult_append (hpass : ∀ other ∈ before, other.select v = .pass) (rest : List Rule) :
    consult v (before ++ rest) = ((consult v rest).1, (consult v rest).2 + before.length) := by
  induction before with
  | nil => rfl
  | cons first before ih =>
      obtain ⟨hfirst, hbefore⟩ := List.forall_mem_cons.mp hpass
      simp only [List.cons_append, consult, hfirst, ih hbefore, List.length_cons]
      rfl

theorem consult_of_forall_pass (hpass : ∀ rule ∈ rules, rule.select v = .pass) :
    consult v rules = (none, rules.length) := by
  have hconsult := consult_append hpass []
  rwa [List.append_nil, consult, Nat.zero_add] at hconsult

theorem consult_of_accept (hrules : rules = before ++ rule :: rest)
    (hpass : ∀ other ∈ before, other.select v = .pass) (hselect : rule.select v = .accept) :
    consult v rules = (some (false, rule.route), before.length + 1) := by
  rw [hrules, consult_append hpass, Nat.add_comm before.length]
  simp only [consult, hselect]

theorem consult_of_acceptAll (hrules : rules = before ++ rule :: rest)
    (hpass : ∀ other ∈ before, other.select v = .pass) (hselect : rule.select v = .acceptAll) :
    consult v rules = (some (true, rule.route), before.length + 1) := by
  rw [hrules, consult_append hpass, Nat.add_comm before.length]
  simp only [consult, hselect]

/-! ### Rules for kinds -/

theorem kindVerdict_isSome (b : Builtin) (kind : Kind) :
    (kindVerdict b kind).isSome ↔ kind.builtin? = some b := by
  cases kind <;> cases b <;> simp [kindVerdict, Kind.builtin?]

theorem mem_kinds_of_builtin? {kind : Kind} (h : kind.builtin? = some b) :
    b ∈ [Builtin.packet, .structured, .enumeration] := by
  cases kind <;> cases h <;> decide

theorem kindVerdict_ne_pass (b : Builtin) (kind : Kind) : kindVerdict b kind ≠ some .pass := by
  unfold kindVerdict
  split
  · simp
  · split <;> simp
  · simp
  · simp

def verdicts (b : Builtin) (entries : List TypeEntry) : List (Class × Verdict) :=
  entries.filterMap fun e => (kindVerdict b e.kind).map (e.valueClass, ·)

theorem lookup_verdicts_of_forall_ne {entries : List TypeEntry} {c : Class}
    (h : ∀ e ∈ entries, e.valueClass ≠ c) (b : Builtin) : (verdicts b entries).lookup c = none := by
  rw [List.lookup_eq_none_iff]
  intro pair hpair
  obtain ⟨e, he, hmap⟩ := List.mem_filterMap.mp hpair
  obtain ⟨verdict, -, rfl⟩ := Option.map_eq_some_iff.mp hmap
  simpa using (h e he).symm

theorem lookup_verdicts {entries : List TypeEntry}
    (h : entries.Pairwise (·.valueClass ≠ ·.valueClass)) (hentry : entry ∈ entries) (b : Builtin) :
    (verdicts b entries).lookup entry.valueClass = kindVerdict b entry.kind := by
  induction entries with
  | nil => cases hentry
  | cons first entries ih =>
      obtain ⟨hfirst, hrest⟩ := List.pairwise_cons.mp h
      rcases List.mem_cons.mp hentry with rfl | hmem
      · have hnone := lookup_verdicts_of_forall_ne (fun e he => (hfirst e he).symm) b
        cases hverdict : kindVerdict b entry.kind with
        | none =>
            rw [verdicts, List.filterMap_cons_none (by rw [hverdict]; rfl)]
            exact hnone
        | some verdict =>
            rw [verdicts, List.filterMap_cons_some (by rw [hverdict]; rfl), List.lookup_cons_self]
      · have hne : (entry.valueClass == first.valueClass) = false := by
          simpa using (hfirst entry hmem).symm
        cases hverdict : kindVerdict b first.kind with
        | none =>
            rw [verdicts, List.filterMap_cons_none (by rw [hverdict]; rfl)]
            exact ih hrest hmem
        | some verdict =>
            rw [verdicts, List.filterMap_cons_some (by rw [hverdict]; rfl), List.lookup_cons, hne]
            exact ih hrest hmem

theorem route_of_kindRule (h : kindRule types b = some rule) : rule.route = builtinRoute b := by
  simp only [kindRule] at h
  split at h
  · cases h
  · cases h
    rfl

section Registered

variable (htypes : types.Sound) (hentry : types.ofClass? v.classOf = some entry)

include htypes hentry

theorem lookup_verdicts_classOf (b : Builtin) :
    (verdicts b types.entries).lookup v.classOf = kindVerdict b entry.kind := by
  rw [← TypeTable.class_of_ofClass? hentry]
  exact lookup_verdicts htypes.classes (TypeTable.mem_of_ofClass? hentry) b

theorem select_of_kindRule (h : kindRule types b = some rule) :
    rule.select v = (kindVerdict b entry.kind).getD .pass := by
  simp only [kindRule] at h
  split at h
  · cases h
  · cases h
    exact congrArg (Option.getD · .pass) (lookup_verdicts_classOf htypes hentry b)

theorem exists_kindRule (hkind : entry.kind.builtin? = some b) :
    ∃ rule, kindRule types b = some rule := by
  refine ⟨⟨Selector.ofTable (verdicts b types.entries), builtinRoute b⟩, if_neg fun hempty => ?_⟩
  have hnil : verdicts b types.entries = [] := List.isEmpty_iff.mp hempty
  have hlookup := lookup_verdicts_classOf htypes hentry b
  rw [hnil] at hlookup
  have hverdict := (kindVerdict_isSome b entry.kind).mpr hkind
  rw [← hlookup] at hverdict
  cases hverdict

/-- Of the rules for kinds all pass but the one for the value's own kind, which takes it as the
verdict on that kind says. -/
theorem consult_kindRules (hkind : entry.kind.builtin? = some b) (rest : List Rule)
    {kinds : List Builtin} (hb : b ∈ kinds) : ∃ forAll n,
      consult v (kinds.filterMap (kindRule types) ++ rest) = (some (forAll, builtinRoute b), n) ∧
        kindVerdict b entry.kind = some (if forAll then .acceptAll else .accept) := by
  obtain ⟨before, after, rfl, hnot⟩ := List.eq_append_cons_of_mem hb
  have hpass : ∀ other ∈ before.filterMap (kindRule types), other.select v = .pass := by
    intro other hother
    obtain ⟨kind, hmem, hrule⟩ := List.mem_filterMap.mp hother
    have hverdict : kindVerdict kind entry.kind = none := by
      rw [← Option.not_isSome_iff_eq_none, kindVerdict_isSome, hkind]
      exact fun hsame => hnot (Option.some.inj hsame ▸ hmem)
    rw [select_of_kindRule htypes hentry hrule, hverdict]
    rfl
  obtain ⟨rule, hrule⟩ := exists_kindRule htypes hentry hkind
  have hselect := select_of_kindRule htypes hentry hrule
  obtain ⟨verdict, hverdict⟩ := Option.isSome_iff_exists.mp
    ((kindVerdict_isSome b entry.kind).mpr hkind)
  rw [hverdict, Option.getD_some] at hselect
  have hrules : (before ++ b :: after).filterMap (kindRule types) ++ rest =
      before.filterMap (kindRule types) ++ rule :: (after.filterMap (kindRule types) ++ rest) := by
    rw [List.filterMap_append, List.append_assoc, List.filterMap_cons_some hrule, List.cons_append]
  rw [← route_of_kindRule hrule]
  cases verdict with
  | pass => exact absurd hverdict (kindVerdict_ne_pass b entry.kind)
  | accept => exact ⟨false, _, consult_of_accept hrules hpass hselect, hverdict⟩
  | acceptAll => exact ⟨true, _, consult_of_acceptAll hrules hpass hselect, hverdict⟩

end Registered

/-! ### Decisions -/

/-- The ways in which a dispatch may end, and the memo that it then leaves. -/
inductive Decides (d : Dialect) (v : Value) (m : Memo) : Except Failure Route × Memo → Prop where
  /-- The way is known, so no rule is asked. -/
  | known {route : Route} (hknown : m.known.lookup v.classOf = some route) :
      Decides d v m (.ok route, m)
  /-- The first rule that does not pass takes this value. -/
  | accepted {before after : List Rule} {rule : Rule} (hunknown : m.known.lookup v.classOf = none)
      (hrules : d.rules = before ++ rule :: after)
      (hpass : ∀ other ∈ before, other.select v = .pass) (hselect : rule.select v = .accept) :
      Decides d v m (.ok rule.route, ⟨m.known, countAsked (before.length + 1) m.asked⟩)
  /-- The first rule that does not pass takes all values of the class. -/
  | remembered {before after : List Rule} {rule : Rule}
      (hunknown : m.known.lookup v.classOf = none) (hrules : d.rules = before ++ rule :: after)
      (hpass : ∀ other ∈ before, other.select v = .pass) (hselect : rule.select v = .acceptAll) :
      Decides d v m (.ok rule.route,
        ⟨(v.classOf, rule.route) :: m.known, countAsked (before.length + 1) m.asked⟩)
  /-- All rules pass. -/
  | rejected (hunknown : m.known.lookup v.classOf = none)
      (hpass : ∀ rule ∈ d.rules, rule.select v = .pass) :
      Decides d v m (.error (Fault.unsuitable v.classOf.name),
        ⟨m.known, countAsked d.rules.length m.asked⟩)

theorem dispatch_decides (d : Dialect) (v : Value) (m : Memo) :
    d.Decides v m (d.dispatch v m) := by
  unfold dispatch
  cases hknown : m.known.lookup v.classOf with
  | some route => exact .known hknown
  | none =>
      rcases rules_cases v d.rules with hpass | ⟨before, rule, after, hrules, hpass, htakes⟩
      · simp only [consult_of_forall_pass hpass]
        exact .rejected hknown hpass
      · cases hselect : rule.select v with
        | pass => exact absurd hselect htakes
        | accept =>
            simp only [consult_of_accept hrules hpass hselect]
            exact .accepted hknown hrules hpass hselect
        | acceptAll =>
            simp only [consult_of_acceptAll hrules hpass hselect]
            exact .remembered hknown hrules hpass hselect

theorem dispatch_of_known {route : Route} (hknown : m.known.lookup v.classOf = some route) :
    d.dispatch v m = (.ok route, m) := by
  simp only [dispatch, hknown]

/-- A decision adds one entry at most, and this for a class that had none. -/
theorem Decides.known_cases (h : d.Decides v m o) : o.2.known = m.known ∨
    m.known.lookup v.classOf = none ∧ ∃ route, o.2.known = (v.classOf, route) :: m.known := by
  cases h with
  | known => exact .inl rfl
  | accepted => exact .inl rfl
  | remembered hunknown => exact .inr ⟨hunknown, _, rfl⟩
  | rejected => exact .inl rfl

/-- What the first memo knows the second knows as well, and in front of it what is new. -/
structure Grows (m m' : Memo) : Prop where
  known : m.known <:+ m'.known
  lookup : ∀ c route, m.known.lookup c = some route → m'.known.lookup c = some route

theorem Grows.of_eq {m m' : Memo} (h : m'.known = m.known) : Grows m m' :=
  ⟨h.symm ▸ List.suffix_refl m.known, fun c route hc => by rwa [h]⟩

theorem Grows.trans {m m' m'' : Memo} (h : Grows m m') (h' : Grows m' m'') : Grows m m'' :=
  ⟨h.known.trans h'.known, fun c route hc => h'.lookup c route (h.lookup c route hc)⟩

theorem Decides.grows (h : d.Decides v m o) : Grows m o.2 := by
  rcases h.known_cases with hsame | ⟨hunknown, route, hmore⟩
  · exact .of_eq hsame
  · refine ⟨by rw [hmore]; exact List.suffix_cons _ _, fun c other hc => ?_⟩
    have hne : (c == v.classOf) = false := by
      rw [beq_eq_false_iff_ne]
      rintro rfl
      cases hunknown.symm.trans hc
    rw [hmore, List.lookup_cons, hne]
    exact hc

/-! ### Memos -/

/-- The memos that a conversation can get to. -/
inductive Reaches (d : Dialect) : Memo → Prop where
  | start : Reaches d d.memo
  | dispatch {m : Memo} (h : Reaches d m) (v : Value) : Reaches d (d.dispatch v m).2

/-- What a memo holds is settled from the start or was found by the rules. -/
structure Remembers (d : Dialect) (m : Memo) : Prop where
  settled : ∀ c route, d.settled.lookup c = some route → m.known.lookup c = some route
  found : ∀ c route, m.known.lookup c = some route → d.settled.lookup c = some route ∨
    ∃ v n, v.classOf = c ∧ consult v d.rules = (some (true, route), n)

theorem Decides.remembers (h : d.Decides v m o) (hm : d.Remembers m) : d.Remembers o.2 := by
  refine ⟨fun c route hc => h.grows.lookup c route (hm.settled c route hc), ?_⟩
  cases h with
  | known => exact hm.found
  | accepted => exact hm.found
  | rejected => exact hm.found
  | @remembered before after rule hunknown hrules hpass hselect =>
      intro c route hc
      rw [List.lookup_cons] at hc
      by_cases hsame : c = v.classOf
      · subst hsame
        rw [beq_self_eq_true] at hc
        cases hc
        exact .inr ⟨v, _, rfl, consult_of_acceptAll hrules hpass hselect⟩
      · rw [beq_eq_false_iff_ne.mpr hsame] at hc
        exact hm.found c route hc

theorem Reaches.remembers (h : d.Reaches m) : d.Remembers m := by
  induction h with
  | start => exact ⟨fun _ _ h => h, fun _ _ h => .inl h⟩
  | dispatch _ v ih => exact (dispatch_decides d v _).remembers ih

/-! ### The ways of values -/

/-- From every memo that can be got to the value is sent to the built-in format `b`. -/
def Sends (d : Dialect) (v : Value) (b : Builtin) : Prop :=
  ∀ m, d.Reaches m → ∃ m', d.dispatch v m = (.ok (builtinRoute b), m') ∧ d.Reaches m'

theorem lookup_builtinSettled {c : Class} (hb : b.class? = some c) :
    builtinSettled.lookup c = some (builtinRoute b) := by
  cases b <;> cases hb <;> rfl

theorem Built.sends_settled (hd : d.Built) (hb : b.class? = some v.classOf) : d.Sends v b := by
  intro m hm
  have hsettled : d.settled.lookup v.classOf = some (builtinRoute b) := by
    rw [hd.settled]
    exact lookup_builtinSettled hb
  exact ⟨m, dispatch_of_known (hm.remembers.settled _ _ hsettled), hm⟩

/-- A class of a registered type goes to the format for that type's kind, whichever of the two has
the say, memo or rules. -/
theorem Built.sends_kind (hd : d.Built) (hentry : d.types.ofClass? v.classOf = some entry)
    (hkind : entry.kind.builtin? = some b) (hfree : builtinSettled.lookup v.classOf = none) :
    d.Sends v b := by
  intro m hm
  have hconsult : ∀ w : Value, w.classOf = v.classOf →
      ∃ forAll n, consult w d.rules = (some (forAll, builtinRoute b), n) := by
    intro w hw
    obtain ⟨custom, hrules⟩ := hd.rules
    rw [hrules]
    obtain ⟨forAll, n, hconsult, -⟩ :=
      consult_kindRules hd.types (hw ▸ hentry) hkind custom (mem_kinds_of_builtin? hkind)
    exact ⟨forAll, n, hconsult⟩
  refine ⟨(d.dispatch v m).2, ?_, hm.dispatch v⟩
  have hroute : (d.dispatch v m).1 = .ok (builtinRoute b) := by
    unfold Dialect.dispatch
    split
    · next route hknown =>
      rcases hm.remembers.found _ _ hknown with hsettled | ⟨w, n, hw, hfound⟩
      · rw [hd.settled, hfree] at hsettled
        cases hsettled
      · obtain ⟨forAll, n', hw'⟩ := hconsult w hw
        rw [hfound] at hw'
        cases hw'
        rfl
    · obtain ⟨forAll, n, hv⟩ := hconsult v rfl
      rw [hv]
  rw [← hroute]

end Dialect

end Wireform

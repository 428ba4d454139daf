import Wireform.Proofs.Buffer.Fields
import Wireform.Proofs.Dialect.Agreement

/-!
Built-in formats are never handed a value that they are not there for. They could be, as far as
their scripts go: each looks at the value and complains if it is of another class, or if its type is
not registered, or of another kind, or has no number. But a script is run only for a value that has
been sent to the format, and its number is on the wire by then.

Whom a rule sends to a built-in format is known from the table of types, since formats of an
application have other numbers. The memo repeats what a rule has said about another value of the
class. So what such a value is like is the same in every memo that can be got to, and with that the
complaints can be crossed out of the scripts, one by one.
-/

namespace Wireform

/-- The complaints of a built-in format about a value that it is not there for. -/
inductive Fault.Foreign : Fault → Prop where
  | mismatch (expected found : String) : Foreign (.mismatch expected found)
  | unregistered (type : String) : Foreign (.unregistered type)
  | withoutTypeId (type : String) : Foreign (.withoutTypeId type)
  | wrongKind (type expected : String) : Foreign (.wrongKind type expected)

namespace Dialect

variable {p : Blueprint} {d : Dialect} {m : Memo} {v : Value} {b : Builtin} {rule : Rule}
  {rules : List Rule} {route : Route} {forAll : Bool} {n : Nat}

/-! ### Who is sent to a built-in format -/

/-- The values that a built-in format is there for: those of its one class, or those of registered
types of its kind. -/
inductive Serves (d : Dialect) (b : Builtin) (v : Value) : Prop where
  | ofClass (h : b.class? = some v.classOf)
  | ofKind {entry : TypeEntry} (hentry : d.types.ofClass? v.classOf = some entry)
      (hkind : entry.kind.builtin? = some b)

theorem Serves.congr {w : Value} (h : d.Serves b w) (hclass : w.classOf = v.classOf) :
    d.Serves b v := by
  cases h with
  | ofClass h => exact .ofClass (hclass ▸ h)
  | ofKind hentry hkind => exact .ofKind (hclass ▸ hentry) hkind

theorem exists_of_consult (h : consult v rules = (some (forAll, route), n)) :
    ∃ rule ∈ rules, rule.route = route ∧ rule.select v ≠ .pass := by
  rcases rules_cases v rules with hpass | ⟨before, rule, after, hrules, hpass, htakes⟩
  · rw [consult_of_forall_pass hpass] at h
    cases h
  · refine ⟨rule, by simp [hrules], ?_, htakes⟩
    cases hselect : rule.select v with
    | pass => exact absurd hselect htakes
    | accept =>
        rw [consult_of_accept hrules hpass hselect] at h
        cases h
        rfl
    | acceptAll =>
        rw [consult_of_acceptAll hrules hpass hselect] at h
        cases h
        rfl

/-- The rule for a kind takes a value only if the type of the value is of that kind. -/
theorem exists_of_kindRule {types : TypeTable} (htypes : types.Sound)
    (hrule : kindRule types b = some rule) (htakes : rule.select v ≠ .pass) :
    ∃ entry, types.ofClass? v.classOf = some entry ∧ entry.kind.builtin? = some b := by
  cases hentry : types.ofClass? v.classOf with
  | none =>
      have hclasses : ∀ e ∈ types.entries, e.valueClass ≠ v.classOf := by
        simpa [TypeTable.ofClass?] using hentry
      refine absurd ?_ htakes
      simp only [kindRule] at hrule
      split at hrule
      · cases hrule
      · cases hrule
        exact congrArg (Option.getD · .pass) (lookup_verdicts_of_forall_ne hclasses b)
  | some entry =>
      have hselect := select_of_kindRule htypes hentry hrule
      refine ⟨entry, rfl, (kindVerdict_isSome b entry.kind).mp ?_⟩
      cases hverdict : kindVerdict b entry.kind with
      | none =>
          rw [hverdict] at hselect
          exact absurd hselect htakes
      | some verdict => rfl

/-- A format of an application has a number of its own, so none of them is built in. -/
theorem ne_builtinRoute (hd : build p = .ok d) (hrule : rule ∈ ownRules p.custom) (b : Builtin) :
    rule.route ≠ builtinRoute b := by
  obtain ⟨hroutes, -, hdistinct⟩ := (follows_of_build hd).offers
  simp only at hroutes hdistinct
  rw [hroutes, List.pairwise_append] at hdistinct
  intro hsame
  exact hdistinct.2.2 _ (List.mem_map_of_mem b.mem_all) _ (List.mem_map_of_mem hrule)
    (congrArg Route.id hsame.symm)

theorem serves_of_rule (hd : build p = .ok d) (hrule : rule ∈ d.rules)
    (hroute : rule.route = builtinRoute b) (htakes : rule.select v ≠ .pass) : d.Serves b v := by
  have hrules : d.rules = _ := (follows_of_build hd).offers.rules
  rw [hrules, List.mem_append] at hrule
  rcases hrule with hkind | hown
  · obtain ⟨kind, -, hkind⟩ := List.mem_filterMap.mp hkind
    have hsame : kind = b := by
      refine Builtin.id_injective ?_
      exact congrArg Route.id ((route_of_kindRule hkind).symm.trans hroute)
    subst hsame
    obtain ⟨entry, hentry, hbuiltin⟩ := exists_of_kindRule (Built.of_build hd).types hkind htakes
    exact .ofKind hentry hbuiltin
  · exact absurd hroute (ne_builtinRoute hd hown b)

theorem class?_of_builtinSettled {c : Class}
    (h : builtinSettled.lookup c = some (builtinRoute b)) : b.class? = some c := by
  obtain ⟨front, back, hsettled, -⟩ := List.lookup_eq_some_iff.mp h
  have hmem : (c, builtinRoute b) ∈ builtinSettled := by simp [hsettled]
  obtain ⟨other, -, hother⟩ := List.mem_filterMap.mp hmem
  obtain ⟨c', hclass, hpair⟩ := Option.map_eq_some_iff.mp hother
  obtain ⟨rfl, hroute⟩ := Prod.mk.inj hpair
  rwa [← Builtin.id_injective (congrArg Route.id hroute)]

/-- Whatever the memo, a built-in format is found only for a value that it is there for. -/
theorem serves_of_dispatch (hd : build p = .ok d) (hm : d.Reaches m) {m' : Memo}
    (hdispatch : d.dispatch v m = (.ok (builtinRoute b), m')) : d.Serves b v := by
  have hdecides := dispatch_decides d v m
  rw [hdispatch] at hdecides
  generalize hroute : builtinRoute b = route at hdecides
  cases hdecides with
  | known hknown =>
      rw [← hroute] at hknown
      rcases hm.remembers.found _ _ hknown with hsettled | ⟨w, n, hclass, hfound⟩
      · rw [(Built.of_build hd).settled] at hsettled
        exact .ofClass (class?_of_builtinSettled hsettled)
      · obtain ⟨rule, hrule, hroute, htakes⟩ := exists_of_consult hfound
        exact (serves_of_rule hd hrule hroute htakes).congr hclass
  | accepted _ hrules _ hselect =>
      exact serves_of_rule hd (by simp [hrules]) hroute.symm (by simp [hselect])
  | remembered _ hrules _ hselect =>
      exact serves_of_rule hd (by simp [hrules]) hroute.symm (by simp [hselect])

end Dialect

/-! ### What is left of the complaints -/

/-- Whatever becomes of the state, there are no other failures than those in `F`. -/
def Conduct.failing (σ : Type) (F : Failure → Prop) : Conduct σ where
  Fit _ := True
  Moves _ _ := True
  Fails := F
  refl _ := trivial
  trans _ _ := trivial
  fit _ _ := trivial

section Failing

variable {σ α : Type} {F : Failure → Prop}

theorem obeys_failing {act : Action σ α} :
    Obeys (Conduct.failing σ F) act ↔ ∀ s f, (act s).1 = .error f → F f :=
  ⟨fun h s => (h (s := s) trivial).2, fun h s _ => ⟨trivial, h s⟩⟩

theorem Obeys.failing_onBuffer {act : Action Buffer α} (h : Obeys (Conduct.failing Buffer F) act) :
    Obeys (Conduct.failing Bench F) (Bench.onBuffer act) :=
  fun s _ => ⟨trivial, (h (s := s.buffer) trivial).2⟩

theorem Buffer.failing_put (hF : ∀ f : Failure, ¬ f.fault.Foreign → F f) (operation : String)
    (data : List UInt8) : Obeys (Conduct.failing Buffer F) (put operation data) := by
  rw [obeys_failing]
  intro b f hf
  refine hF f ?_
  obtain ⟨⟨_ | bytes, locks⟩, reader, writer, limit⟩ := b
  · cases hf
    rintro ⟨⟩
  · rw [put] at hf
    split at hf
    · cases hf
      rintro ⟨⟩
    · cases hf

end Failing

/-- What a type brings for the writing of `v` fails only with failures in `F`. -/
def TypeEntry.WritesIn (entry : TypeEntry) (F : Failure → Prop) (d : Dialect)
    (object : String → Value → Action Bench Unit) (v : Value) : Prop :=
  let Body (script : Script) : Prop :=
    ∀ s f, (script.run (Writer.writeField d object) s).1 = .error f → F f
  match entry.kind with
  | .plain => True
  | .structured _ body => Body (body.write v)
  | .packet _ body => (∀ f, body.name v = .error f → F f) ∧ Body (body.write v)
  | .enumeration constants => ∀ f, constants.name v = .error f → F f

namespace Writer

variable {d : Dialect} {object : String → Value → Action Bench Unit} {v : Value} {b : Builtin}
  {entry : TypeEntry} {F : Failure → Prop}

theorem exists_writeTypeId (hd : d.Built) (hentry : d.types.ofClass? v.classOf = some entry) :
    ∃ id, entry.id = some id ∧ writeTypeId d v = Buffer.writeShort id.raw := by
  obtain ⟨id, hid, -⟩ := hd.types.exists_id hentry
  exact ⟨id, hid, writeTypeId_of_entry hentry hid⟩

section Failing

variable (hF : ∀ f : Failure, ¬ f.fault.Foreign → F f)
  (hobject : ∀ name v, Obeys (Conduct.failing Bench F) (object name v))

include hF

theorem failing_refuse {fault : Fault} (h : ¬ fault.Foreign) :
    Obeys (Conduct.failing Bench F) ((Plan.refuse fault : Script).run (writeField d object)) :=
  Obeys.fail (hF _ h)

include hobject

/-- Of single fields only the number of a type can be refused for the value's sake. -/
theorem failing_put {f : Field} (hf : ∀ w, f = .typeId w →
      Obeys (Conduct.failing Buffer F) (writeTypeId d w)) :
    Obeys (Conduct.failing Bench F) ((Script.put f).run (writeField d object)) := by
  have hbytes := Buffer.failing_put hF
  rw [Script.put, Plan.run_request]
  cases f with
  | flags v => exact (Compact.Flags.obeys_write hbytes v).failing_onBuffer
  | char c => exact (obeys_writeChar hbytes (fun _ => hF _ (by rintro ⟨⟩)) c).failing_onBuffer
  | text s => exact (Text.obeys_write hbytes (fun _ => hF _ (by rintro ⟨⟩)) s).failing_onBuffer
  | typeId w => exact (hf w rfl).failing_onBuffer
  | object name w => exact hobject name w
  | nullable name w =>
      cases w with
      | none => exact Obeys.failing_onBuffer (hbytes _ _)
      | some w =>
          exact (Obeys.failing_onBuffer (hbytes _ _)).bind fun _ => hobject name w
  | _ => exact Obeys.failing_onBuffer (hbytes _ _)

theorem failing_entries (entries : Entries) :
    Obeys (Conduct.failing Bench F) ((Packet.writeEntries entries).run (writeField d object)) := by
  induction entries with
  | nil => exact .pure ()
  | cons entry rest ih =>
      rw [Packet.writeEntries, Plan.run_bind]
      refine (failing_put hF hobject (by rintro _ ⟨⟩)).bind fun _ => ?_
      rw [Plan.run_bind]
      exact (failing_put hF hobject (by rintro _ ⟨⟩)).bind fun _ => ih

theorem writesIn_packet (hv : v.classOf = .packet) : Packet.entry.WritesIn F d object v := by
  cases v with
  | packet name entries =>
      refine ⟨nofun, obeys_failing.mp ?_⟩
      show Obeys _ ((Packet.write (.packet name entries)).run (writeField d object))
      simp only [Packet.write, Plan.refuse_bind]
      split
      · exact failing_refuse hF (by rintro ⟨⟩)
      · rw [Plan.run_bind]
        exact (failing_put hF hobject (by rintro _ ⟨⟩)).bind fun _ =>
          failing_entries hF hobject entries
  | _ => cases hv

theorem failing_ofClass (h : b.class? = some v.classOf) :
    Obeys (Conduct.failing Bench F) ((b.write d.types v).run (writeField d object)) := by
  cases v with
  | bytes data =>
      cases b <;> cases h
      simp only [Builtin.write, Builtin.writeBlock, Plan.refuse_bind]
      split
      · exact failing_refuse hF (by rintro ⟨⟩)
      · rw [Plan.run_bind]
        exact (failing_put hF hobject (by rintro _ ⟨⟩)).bind fun _ =>
          failing_put hF hobject (by rintro _ ⟨⟩)
  | message id body =>
      cases b <;> cases h
      rw [Builtin.write, Plan.run_bind]
      exact (failing_put hF hobject (by rintro _ ⟨⟩)).bind fun _ =>
        failing_put hF hobject (by rintro _ ⟨⟩)
  | _ =>
      cases b <;> cases h <;> exact failing_put hF hobject (by rintro _ ⟨⟩)

/-- With the type at hand that a value is registered as, its number is written and then what the
type brings. -/
theorem failing_ofKind (hd : d.Built) (hentry : d.types.ofClass? v.classOf = some entry)
    (hkind : entry.kind.builtin? = some b) (hown : entry.WritesIn F d object v) :
    Obeys (Conduct.failing Bench F) ((b.write d.types v).run (writeField d object)) := by
  have hid :
      Obeys (Conduct.failing Bench F) ((Script.put (.typeId v)).run (writeField d object)) := by
    refine failing_put hF hobject ?_
    rintro _ ⟨⟩
    obtain ⟨id, -, hwrite⟩ := exists_writeTypeId hd hentry
    rw [hwrite]
    exact Buffer.failing_put hF _ _
  have hlookup : Builtin.entryOf d.types v = .ok entry := by
    simp only [Builtin.entryOf, hentry]
  unfold TypeEntry.WritesIn at hown
  cases hkind' : entry.kind with
  | plain =>
      rw [hkind'] at hkind
      cases hkind
  | structured cacheable body =>
      rw [hkind'] at hkind hown
      cases hkind
      simp only [Builtin.write, Builtin.writeStructured, hlookup, Plan.lift_ok, Plan.pure_bind,
        hkind', Plan.run_bind]
      exact hid.bind fun _ => obeys_failing.mpr hown
  | packet construction body =>
      rw [hkind'] at hkind hown
      cases hkind
      obtain ⟨hname, hbody⟩ := hown
      simp only [Builtin.write, Builtin.writePacket, hlookup, Plan.lift_ok, Plan.pure_bind,
        hkind', Plan.run_bind, Plan.run_lift]
      refine hid.bind fun _ => (Obeys.lift hname).bind fun name => ?_
      exact (failing_put hF hobject (by rintro _ ⟨⟩)).bind fun _ => obeys_failing.mpr hbody
  | enumeration constants =>
      rw [hkind'] at hkind hown
      cases hkind
      simp only [Builtin.write, Builtin.writeConstant, hlookup, Plan.lift_ok, Plan.pure_bind,
        hkind', Plan.run_bind, Plan.run_lift]
      exact hid.bind fun _ => (Obeys.lift hown).bind fun name =>
        failing_put hF hobject (by rintro _ ⟨⟩)

end Failing

end Writer

/-- If the way that is decided for a value has the number of a built-in format then it is that
format's, and once the number has been written the format has no complaint about the value. -/
theorem Dialect.dispatch_serves {p : Blueprint} {d : Dialect} (hd : build p = .ok d) {m : Memo}
    (hm : d.Reaches m) {v : Value} {route : Route} {m' : Memo} {b : Builtin}
    (hdispatch : d.dispatch v m = (.ok route, m')) (hb : route.id = b.id) :
    route = builtinRoute b ∧
    (b.class? = some v.classOf ∨
      ∃ entry ∈ d.types.entries, entry.valueClass = v.classOf ∧ entry.kind.builtin? = some b ∧
        d.types.ofClass? v.classOf = some entry ∧
        ∃ id, entry.id = some id ∧ Writer.writeTypeId d v = Buffer.writeShort id.raw) ∧
    ∀ (F : Failure → Prop) (object : String → Value → Action Bench Unit),
      (∀ f : Failure, ¬ f.fault.Foreign → F f) →
      (∀ name w s f, (object name w s).1 = .error f → F f) →
      (∀ entry ∈ p.registry.entries, entry.valueClass = v.classOf →
        entry.WritesIn F d object v) →
      ∀ name s f, s.memo = m → (Writer.writeBody d object name v s).1 = .error f → F f := by
  have hbuilt := Built.of_build hd
  have hkeyed := hm.keyed hd
  have hmem := ((dispatch_decides d v m).keyed hkeyed).2 route (congrArg Prod.fst hdispatch)
  have hroute : route = builtinRoute b := by
    have hfound := hkeyed.route?_eq hmem
    rw [hb, hbuilt.route? b] at hfound
    exact (Option.some.inj hfound).symm
  subst hroute
  have hserves := serves_of_dispatch hd hm hdispatch
  refine ⟨rfl, ?_, fun F object hF hobject hown name s f hs hf => ?_⟩
  · cases hserves with
    | ofClass h => exact .inl h
    | @ofKind entry hentry hkind =>
        exact .inr ⟨entry, TypeTable.mem_of_ofClass? hentry, TypeTable.class_of_ofClass? hentry,
          hkind, hentry, Writer.exists_writeTypeId hbuilt hentry⟩
  · replace hobject : ∀ name w, Obeys (Conduct.failing Bench F) (object name w) :=
      fun name w => obeys_failing.mpr (hobject name w)
    have hbody : Obeys (Conduct.failing Bench F) ((b.write d.types v).run
        (Writer.writeField d object)) := by
      cases hserves with
      | ofClass h => exact Writer.failing_ofClass hF hobject h
      | @ofKind entry hentry hkind =>
          have hclass := TypeTable.class_of_ofClass? hentry
          refine Writer.failing_ofKind hF hobject hbuilt hentry hkind ?_
          rcases (follows_of_build hd).mem_registry (TypeTable.mem_of_ofClass? hentry) with
            rfl | ⟨hregistered, -⟩
          · exact Writer.writesIn_packet hF hobject hclass.symm
          · exact hown entry hregistered hclass
    have hid : Obeys (Conduct.failing Bench F) (Bench.onBuffer (Buffer.writeShort b.id.raw)) :=
      Obeys.failing_onBuffer (Buffer.failing_put hF _ _)
    rw [Writer.writeBody_of_dispatch hdispatch object name hs] at hf
    exact obeys_failing.mp (hid.bind fun _ => hbody) _ f hf

namespace Sample

/-- An application with one enumeration, and with a format of its own that wants all values. -/
def greedy : Dialect.Blueprint where
  registry := registry [(.enumeration, "Level")]
  roster := ⟨["demo::Level"]⟩
  custom := [(anySelector .acceptAll, wordFormat (TypeId.ofInt 7))]

def low : Value := make "Level" [("v", .text "Low")]

end Sample

/-- The format of the application has taken the class of words, but a level goes to the format for
enumerations, which has nothing to complain about. -/
theorem Dialect.dispatch_serves_greedy : ∃ d m m', build Sample.greedy = .ok d ∧
    m.known.lookup .word ≠ none ∧
    d.dispatch Sample.low m = (.ok (builtinRoute .enumeration), m') ∧
    (∃ entry ∈ d.types.entries, entry.valueClass = Sample.low.classOf ∧
      entry.kind.builtin? = some .enumeration) ∧
    ∀ s f, s.memo = m → (Writer.writeBody d (fun _ _ => pure ()) "v" Sample.low s).1 = .error f →
      ¬ f.fault.Foreign := by
  obtain ⟨d, hd⟩ : ∃ d, build Sample.greedy = .ok d := ⟨_, rfl⟩
  have hm : d.Reaches (d.dispatch (.word 5) d.memo).2 := Reaches.start.dispatch (.word 5)
  obtain ⟨m', hdispatch, hknown⟩ : ∃ m',
      d.dispatch Sample.low (d.dispatch (.word 5) d.memo).2 =
        (.ok (builtinRoute .enumeration), m') ∧
      (d.dispatch (.word 5) d.memo).2.known.lookup .word ≠ none := by
    cases hd
    exact ⟨_, rfl, nofun⟩
  obtain ⟨-, hserves, hfails⟩ := dispatch_serves hd hm hdispatch (b := .enumeration) rfl
  refine ⟨d, _, m', hd, hknown, hdispatch, ?_, fun s f hs => ?_⟩
  · rcases hserves with hclass | ⟨entry, hentry, hclass, hkind, -⟩
    · cases hclass
    · exact ⟨entry, hentry, hclass, hkind⟩
  · have hpure : ∀ (name : String) (w : Value) s f,
        ((pure () : Action Bench Unit) s).1 = .error f → ¬ f.fault.Foreign := by
      rintro _ _ s f ⟨⟩
    refine hfails (fun f => ¬ f.fault.Foreign) _ (fun _ h => h) hpure ?_ "v" s f hs
    intro entry hentry _
    cases List.mem_singleton.mp hentry
    rintro f ⟨⟩

end Wireform

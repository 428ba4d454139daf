import Wireform.Proofs.Dialect.Course
import Wireform.Proofs.Endpoint.Conversation
import Wireform.Proofs.Twin.Endpoint

/-!
What an endpoint has been used for does not show in what it does. The workspaces
that it lends are clean, so they differ in nothing but what earlier texts have
left in the scratch area. Its memo has grown, and in the memo is what the rules
would say again.

The last is only true of rules that decide by class. A rule that takes all
values of a class because of one of them decides for the others as well, which
then depends on the order in which they come.
-/

namespace Wireform

/-- Values of the same class are treated alike. -/
def Selector.ByClass (select : Selector) : Prop :=
  ∀ v w : Value, v.classOf = w.classOf → select v = select w

theorem Selector.byClass_ofTable (table : List (Class × Verdict)) : ByClass (ofTable table) := by
  intro v w hclass
  unfold ofTable
  rw [hclass]

namespace Dialect

variable {p : Blueprint} {d : Dialect} {m n : Memo}

def ByClass (d : Dialect) : Prop := ∀ rule ∈ d.rules, Selector.ByClass rule.select

theorem byClass_of_build (hd : build p = .ok d)
    (hcustom : ∀ own ∈ p.custom, Selector.ByClass own.1) : d.ByClass := by
  intro rule hrule
  have hrules : d.rules = kindRules d.types ++ ownRules p.custom :=
    (follows_of_build hd).offers.rules
  rw [hrules, List.mem_append] at hrule
  rcases hrule with hkind | hown
  · obtain ⟨b, -, hrule⟩ := List.mem_filterMap.mp hkind
    simp only [kindRule] at hrule
    split at hrule
    · cases hrule
    · cases hrule
      exact Selector.byClass_ofTable _
  · obtain ⟨own, hmem, hselect, -⟩ := mem_ownRules.mp hown
    rw [← hselect]
    exact hcustom own hmem

theorem consult_congr {rules : List Rule} (hrules : ∀ rule ∈ rules, Selector.ByClass rule.select)
    {v w : Value} (hclass : v.classOf = w.classOf) : consult v rules = consult w rules := by
  induction rules with
  | nil => rfl
  | cons rule rules ih =>
      obtain ⟨hrule, hrest⟩ := List.forall_mem_cons.mp hrules
      rw [consult, consult, hrule v w hclass, ih hrest]

/-- Whatever has been dispatched before, a value goes the way that it would have gone at first. -/
theorem ByClass.dispatch_eq (hclass : d.ByClass) (hm : d.Reaches m) (v : Value) :
    (d.dispatch v m).1 = (d.dispatch v d.memo).1 := by
  have hremembers := hm.remembers
  have hstart : d.memo.known = d.settled := rfl
  cases hknown : m.known.lookup v.classOf with
  | some route =>
      rw [dispatch_of_known hknown]
      cases hsettled : d.settled.lookup v.classOf with
      | some other =>
          have hsame := hremembers.settled _ _ hsettled
          rw [dispatch_of_known (hstart ▸ hsettled)]
          exact congrArg Except.ok (Option.some.inj (hknown.symm.trans hsame))
      | none =>
          rcases hremembers.found _ _ hknown with hfound | ⟨w, k, hw, hfound⟩
          · cases hsettled.symm.trans hfound
          -- another value of the class has been taken as a whole
          · rw [consult_congr hclass hw] at hfound
            simp only [dispatch, hstart, hsettled, hfound]
  | none =>
      have hsettled : d.settled.lookup v.classOf = none := by
        cases h : d.settled.lookup v.classOf with
        | none => rfl
        | some route => cases hknown.symm.trans (hremembers.settled _ _ h)
      simp only [dispatch, hstart, hknown, hsettled]
      rcases consult v d.rules with ⟨_ | ⟨forAll, route⟩, asked⟩
      · rfl
      · rfl

/-- Benches that differ in what has been done at them before. -/
def forgetting (d : Dialect) (hclass : d.ByClass) (tracing : Bool) : Likeness d where
  Fit _ := True
  Works w u := w.tracing = tracing ∧ 0 < w.scratch.length ∧
    ∃ scratch, scratch.length = w.scratch.length ∧ u = { w with scratch }
  Memos m n := d.Reaches m ∧ d.Reaches n
  Alike f g := g = f
  fatal := Failure.fatal_of_eq
  unframed := fun _ => rfl
  acts := fun _ _ => ⟨trivial, fun _ _ => rfl⟩
  depth := by
    rintro w _ ⟨-, -, scratch, -, rfl⟩
    exact ⟨rfl, rfl⟩
  size := by
    rintro w _ ⟨-, hpos, scratch, hsize, rfl⟩
    exact ⟨hpos, hsize⟩
  scratch := by
    rintro w _ ⟨htracing, hpos, scratch, -, rfl⟩ x y hx hy
    exact ⟨htracing, hx ▸ hpos, y, hy.trans hx.symm, rfl⟩
  enter := by
    rintro w _ ⟨htracing, hpos, scratch, hsize, rfl⟩ n
    exact ⟨htracing, hpos, scratch, hsize, rfl⟩
  push := by
    rintro w _ ⟨htracing, hpos, scratch, hsize, rfl⟩ frame
    unfold Workspace.push
    simp only
    split
    · exact ⟨htracing, hpos, scratch, hsize, rfl⟩
    · exact ⟨htracing, hpos, scratch, hsize, rfl⟩
  leave := by
    rintro w _ ⟨htracing, hpos, scratch, hsize, rfl⟩
    exact ⟨htracing, hpos, scratch, hsize, rfl⟩
  annotate := by
    rintro w _ ⟨htracing, hpos, scratch, hsize, rfl⟩ f _ rfl
    rfl
  dispatch := by
    rintro m n ⟨hm, hn⟩ v
    refine ⟨.of_eq ?_, hm.dispatch v, hn.dispatch v⟩
    rw [hclass.dispatch_eq hm, hclass.dispatch_eq hn]
  writes := fun _ _ _ _ _ => Plan.twins_eq _
  reads := fun _ => Plan.twins_eq _
  describes := fun _ => Plan.twins_eq _

/-- Benches that differ in nothing but what is in the scratch area. -/
def rescratching (d : Dialect) : Likeness d where
  Fit _ := True
  Works w u := 0 < w.scratch.length ∧
    ∃ scratch, scratch.length = w.scratch.length ∧ u = { w with scratch }
  Memos m n := n = m
  Alike f g := g = f
  fatal := Failure.fatal_of_eq
  unframed := fun _ => rfl
  acts := fun _ _ => ⟨trivial, fun _ _ => rfl⟩
  depth := by
    rintro w _ ⟨-, scratch, -, rfl⟩
    exact ⟨rfl, rfl⟩
  size := by
    rintro w _ ⟨hpos, scratch, hsize, rfl⟩
    exact ⟨hpos, hsize⟩
  scratch := by
    rintro w _ ⟨hpos, scratch, -, rfl⟩ x y hx hy
    exact ⟨hx ▸ hpos, y, hy.trans hx.symm, rfl⟩
  enter := by
    rintro w _ ⟨hpos, scratch, hsize, rfl⟩ n
    exact ⟨hpos, scratch, hsize, rfl⟩
  push := by
    rintro w _ ⟨hpos, scratch, hsize, rfl⟩ frame
    unfold Workspace.push
    simp only
    split
    · exact ⟨hpos, scratch, hsize, rfl⟩
    · exact ⟨hpos, scratch, hsize, rfl⟩
  leave := by
    rintro w _ ⟨hpos, scratch, hsize, rfl⟩
    exact ⟨hpos, scratch, hsize, rfl⟩
  annotate := by
    rintro w _ ⟨-, scratch, -, rfl⟩ f _ rfl
    rfl
  dispatch := by
    rintro m _ rfl v
    exact ⟨.of_eq rfl, rfl⟩
  writes := fun _ _ _ _ _ => Plan.twins_eq _
  reads := fun _ => Plan.twins_eq _
  describes := fun _ => Plan.twins_eq _

theorem looksAhead_forgetting (hclass : d.ByClass) (tracing : Bool) :
    Reader.LooksAhead d (forgetting d hclass tracing) := by
  refine Reader.looksAhead_of_tracing ?_
  rintro w _ ⟨-, -, scratch, -, rfl⟩
  rfl

theorem meets_forgetting (hclass : d.ByClass) {s : Settings} (hs : s.validate = .ok ()) :
    (forgetting d hclass s.debug).Meets s s where
  lend := by
    intro w u hw hu htracing htracing'
    obtain ⟨hdepth, hframes⟩ := hw.empty
    obtain ⟨hdepth', hframes'⟩ := hu.empty
    refine ⟨htracing, hw.scratch_pos hs, u.scratch, hu.scratch.trans hw.scratch.symm, ?_⟩
    obtain ⟨scratch, tracing, frames, depth, maxDepth⟩ := u
    obtain rfl : tracing = w.tracing := htracing'.trans htracing.symm
    obtain rfl : frames = w.frames := hframes'.trans hframes.symm
    obtain rfl : depth = w.depth := hdepth'.trans hdepth.symm
    obtain rfl : maxDepth = w.maxDepth := hu.maxDepth.trans hw.maxDepth.symm
    rfl
  tracing := by
    rintro w _ ⟨htracing, -, scratch, -, rfl⟩
    exact ⟨htracing, htracing⟩
  create := fun _ _ => trivial
  initial := rfl
  max := rfl
  looksAhead := looksAhead_forgetting hclass s.debug

end Dialect

namespace Endpoint

open Dialect

variable {p : Blueprint} {d : Dialect} {s : Settings} {e : Endpoint}

theorem validate_of_create (he : create d s = .ok e) : s.validate = .ok () :=
  (Sound.of_create he).settings

/-- An endpoint is level with itself, and so it stays, whatever happens to it. -/
theorem level_after (hclass : d.ByClass) (he : create d s = .ok e) (events : List Event) :
    (forgetting d hclass s.debug).Level s s (e.station.after events)
      (e.station.after events) := by
  obtain ⟨hkept, hmemo⟩ := kept_of_create he
  have hreaches : d.Reaches e.memo := hmemo ▸ .start
  refine Likeness.Level.after (meets_forgetting hclass (validate_of_create he))
    ⟨⟨hkept, hkept, hreaches, hreaches⟩, fun _ => .none⟩ fun x _ => ?_
  cases x <;> trivial

end Endpoint

/-! All temperatures go one way, which is found when the first of them is written. -/

namespace Sample

def thermometer : Dialect.Blueprint where
  registry := registry [(.plain, "Celsius")]
  roster := ⟨["demo::Celsius"]⟩
  custom := [(classSelector (classOf "Celsius") .acceptAll, celsiusFormat (some (TypeId.ofInt 1)))]

theorem byClass_thermometer : ∀ own ∈ thermometer.custom, Selector.ByClass own.1 := by
  refine List.forall_mem_singleton.mpr fun v w hclass => ?_
  simp only [classSelector, hclass]

def broken : Buffer := Buffer.ofBytes [0xFF, 0x99, 0xFC, 0x18, 0, 0, 0, 4, 0, 0, 0, 4, 65]

/-- A temperature does not fit into a buffer, and the workspace is not given back. Then a packet
cannot be read. -/
def spoiling : List Event :=
  [.borrow 0, .work 0 (.field (.object "now" hot)) (Buffer.create 2 4), .call .read broken]

end Sample

namespace Endpoint

open Dialect

variable {p : Blueprint} {d : Dialect} {s : Settings} {e : Endpoint}

/-- Two endpoints for the same dialect that started out as one, and to which different things have
happened, are not told apart by a call: it leads to the same outcome and does the same to the
buffer. -/
theorem call_forgets (hd : build p = .ok d) (hclass : ∀ own ∈ p.custom, Selector.ByClass own.1)
    (he : create d s = .ok e) (events events' : List Event) (c : Call) (b : Buffer) :
    (c.run ((e.station.after events).endpoint, b)).1 =
        (c.run ((e.station.after events').endpoint, b)).1 ∧
      (c.run ((e.station.after events).endpoint, b)).2.2 =
        (c.run ((e.station.after events').endpoint, b)).2.2 := by
  have hclass := byClass_of_build hd hclass
  have hpeers := (level_after hclass he events).peers
  have hpeers' := (level_after hclass he events').peers
  have htied : ((forgetting d hclass s.debug).peering s s).Tied
      ((e.station.after events').endpoint, b) ((e.station.after events).endpoint, b) :=
    ⟨⟨hpeers'.left, hpeers.left, hpeers'.memo.1, hpeers.memo.1⟩, rfl, trivial⟩
  obtain ⟨hagree, -, hbuffer, -⟩ := Likeness.couples_call
    (meets_forgetting hclass (validate_of_create he)) c htied
  exact ⟨hagree.eq, hbuffer⟩

/-- Frames are kept, so they could be left over. -/
theorem call_forgets_thermometer : ∃ d e, build Sample.thermometer = .ok d ∧
    create d { debug := true } = .ok e ∧
    ((Call.read).run ((e.station.after Sample.spoiling).endpoint, Sample.broken)).1 =
        ((Call.read).run (e, Sample.broken)).1 ∧
      ((Call.read).run ((e.station.after Sample.spoiling).endpoint, Sample.broken)).2.2 =
        ((Call.read).run (e, Sample.broken)).2.2 :=
  ⟨_, _, rfl, rfl, call_forgets (s := { debug := true }) rfl Sample.byClass_thermometer rfl
    Sample.spoiling [] .read Sample.broken⟩

end Endpoint

end Wireform

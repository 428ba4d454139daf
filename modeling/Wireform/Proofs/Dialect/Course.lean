import Wireform.Proofs.Dialect.Dispatch
import Wireform.Sample.Formats

/-!
The course of a conversation, as far as its memo is concerned. A decision looks
at the memo and at the rules and may leave a new entry behind. What it can do is
said by `Decides`, case by case, so every law of a course is read off these four
cases for one decision and carried along the values by induction.

Nothing that has been remembered is forgotten or remembered differently, and
what is remembered costs nothing: the memo stays as it is, counters included.
-/

namespace Wireform

namespace Dialect

variable {p : Blueprint} {d : Dialect} {m : Memo} {v w : Value}
  {o : Except Failure Route × Memo} {route : Route} {rule : Rule} {c : Class} {i : Nat}
  {before rest : List Rule}

def after (d : Dialect) (m : Memo) (vs : List Value) : Memo :=
  vs.foldl (fun m v => (d.dispatch v m).2) m

@[simp] theorem after_nil (d : Dialect) (m : Memo) : d.after m [] = m := rfl

@[simp] theorem after_cons (d : Dialect) (m : Memo) (v : Value) (vs : List Value) :
    d.after m (v :: vs) = d.after (d.dispatch v m).2 vs := rfl

theorem after_append (d : Dialect) (m : Memo) (vs ws : List Value) :
    d.after m (vs ++ ws) = d.after (d.after m vs) ws := List.foldl_append

theorem reaches_iff : d.Reaches m ↔ ∃ vs, m = d.after d.memo vs := by
  constructor
  · intro h
    induction h with
    | start => exact ⟨[], rfl⟩
    | dispatch _ v ih =>
        obtain ⟨vs, rfl⟩ := ih
        exact ⟨vs ++ [v], by rw [after_append]; rfl⟩
  · rintro ⟨vs, rfl⟩
    suffices h : ∀ m, d.Reaches m → d.Reaches (d.after m vs) from h d.memo .start
    induction vs with
    | nil => exact fun _ h => h
    | cons v vs ih => exact fun m h => ih _ (h.dispatch v)

/-! ### What is remembered -/

theorem after_grows (d : Dialect) (m : Memo) (vs : List Value) : Grows m (d.after m vs) := by
  induction vs generalizing m with
  | nil => exact .of_eq rfl
  | cons v vs ih => exact (dispatch_decides d v m).grows.trans (ih _)

def Once (m : Memo) : Prop := m.known.Pairwise (·.1 ≠ ·.1)

theorem Decides.once (h : d.Decides v m o) (hm : Once m) : Once o.2 := by
  rcases h.known_cases with hsame | ⟨hunknown, route, hmore⟩
  · rwa [Once, hsame]
  · rw [Once, hmore]
    refine List.pairwise_cons.mpr ⟨fun entry hentry => ?_, hm⟩
    simpa using List.lookup_eq_none_iff.mp hunknown entry hentry

theorem after_once (hm : Once m) (vs : List Value) : Once (d.after m vs) := by
  induction vs generalizing m with
  | nil => exact hm
  | cons v vs ih => exact ih ((dispatch_decides d v m).once hm)

/-- Whatever is dispatched in between, a class that is remembered is decided. -/
theorem dispatch_after_of_known (hknown : m.known.lookup c = some route) (ws : List Value)
    (hw : w.classOf = c) : d.dispatch w (d.after m ws) = (.ok route, d.after m ws) := by
  subst hw
  exact dispatch_of_known ((after_grows d m ws).lookup _ _ hknown)

theorem lookup_dispatch (hunknown : m.known.lookup v.classOf = none)
    (hrules : d.rules = before ++ rule :: rest) (hpass : ∀ other ∈ before, other.select v = .pass)
    (hselect : rule.select v = .acceptAll) :
    (d.dispatch v m).2.known.lookup v.classOf = some rule.route := by
  simp [dispatch, hunknown, consult_of_acceptAll hrules hpass hselect]

/-! ### How often rules are asked -/

/-- The rule in the place `i` is asked about the value. -/
def Asks (d : Dialect) (m : Memo) (v : Value) (i : Nat) : Prop :=
  m.known.lookup v.classOf = none ∧ i < d.rules.length ∧
    ∀ rule ∈ d.rules.take i, rule.select v = .pass

instance (d : Dialect) (m : Memo) (v : Value) (i : Nat) : Decidable (d.Asks m v i) :=
  inferInstanceAs (Decidable (_ ∧ _ ∧ _))

/-- How often the rule in the place `i` is asked about values that are dispatched one after the
other. -/
def calls (d : Dialect) (i : Nat) : Memo → List Value → Nat
  | _, [] => 0
  | m, v :: vs => (if d.Asks m v i then 1 else 0) + calls d i (d.dispatch v m).2 vs

theorem mapIdx_same (counts : List Nat) : counts.mapIdx (fun _ count => count) = counts :=
  List.mapIdx_eq_iff.mpr (by simp)

theorem countAsked_zero (counts : List Nat) : countAsked 0 counts = counts := by
  cases counts <;> rfl

theorem countAsked_eq (n : Nat) (counts : List Nat) :
    countAsked n counts = counts.mapIdx fun i count => count + if i < n then 1 else 0 := by
  induction counts generalizing n with
  | nil => cases n <;> rfl
  | cons count counts ih =>
      cases n with
      | zero =>
          have hrest := ih 0
          rw [countAsked_zero] at hrest
          simpa [countAsked, List.mapIdx_cons] using hrest
      | succ n => simp [countAsked, ih, List.mapIdx_cons]

/-- The rules up to the first that does not pass are asked. -/
theorem asks_iff (hunknown : m.known.lookup v.classOf = none)
    (hrules : d.rules = before ++ rule :: rest) (hpass : ∀ other ∈ before, other.select v = .pass)
    (hselect : rule.select v ≠ .pass) : d.Asks m v i ↔ i < before.length + 1 := by
  constructor
  · rintro ⟨-, -, htake⟩
    rw [hrules, List.take_append] at htake
    refine Nat.lt_of_not_le fun hle => hselect (htake rule (List.mem_append_right _ ?_))
    obtain ⟨k, hk⟩ : ∃ k, i - before.length = k + 1 := ⟨i - before.length - 1, by omega⟩
    simp [hk]
  · intro hi
    refine ⟨hunknown, ?_, fun other hother => ?_⟩
    · rw [hrules, List.length_append, List.length_cons]
      omega
    · rw [hrules, List.take_append_of_le_length (by omega)] at hother
      exact hpass other (List.mem_of_mem_take hother)

theorem Decides.asked (h : d.Decides v m o) :
    o.2.asked = m.asked.mapIdx fun i count => count + if d.Asks m v i then 1 else 0 := by
  cases h with
  | known hknown =>
      have hnone : ∀ i, ¬ d.Asks m v i := by
        rintro i ⟨hunknown, -⟩
        cases hknown.symm.trans hunknown
      simp [hnone, mapIdx_same]
  | accepted hunknown hrules hpass hselect =>
      simp [countAsked_eq, asks_iff hunknown hrules hpass, hselect]
  | remembered hunknown hrules hpass hselect =>
      simp [countAsked_eq, asks_iff hunknown hrules hpass, hselect]
  | rejected hunknown hpass =>
      have hall : ∀ i, d.Asks m v i ↔ i < d.rules.length := by
        intro i
        refine ⟨fun h => h.2.1, fun hi => ⟨hunknown, hi, fun rule hrule => ?_⟩⟩
        exact hpass rule (List.mem_of_mem_take hrule)
      simp [countAsked_eq, hall]

theorem asked_after (d : Dialect) (m : Memo) (vs : List Value) :
    (d.after m vs).asked = m.asked.mapIdx fun i count => count + d.calls i m vs := by
  induction vs generalizing m with
  | nil => simp [calls, mapIdx_same]
  | cons v vs ih =>
      rw [after_cons, ih, (dispatch_decides d v m).asked, List.mapIdx_mapIdx]
      simp [calls, Function.comp_def, Nat.add_assoc]

/-! ### Laws of a course -/

theorem once_memo (hd : d.Built) : Once d.memo := by
  have hbuiltin : builtinSettled.Pairwise (·.1 ≠ ·.1) := by decide
  rwa [← hd.settled] at hbuiltin

/-- Types whose format is not to be remembered are decided anew each time. -/
theorem Built.known_of_fleeting (hd : d.Built) {entry : TypeEntry} {body : Body}
    (hentry : d.types.ofClass? v.classOf = some entry)
    (hkind : entry.kind = .structured false body) (m : Memo) :
    (d.dispatch v m).2.known = m.known := by
  have hbuiltin : entry.kind.builtin? = some .structured := by rw [hkind]; rfl
  obtain ⟨custom, hrules⟩ := hd.rules
  obtain ⟨forAll, n, hconsult, hverdict⟩ := consult_kindRules hd.types hentry hbuiltin custom
    (mem_kinds_of_builtin? hbuiltin)
  have hfleeting : forAll = false := by
    cases forAll with
    | false => rfl
    | true => simp [hkind, kindVerdict] at hverdict
  subst hfleeting
  replace hconsult : consult v d.rules = (some (false, builtinRoute .structured), n) := by
    rw [hrules]
    exact hconsult
  unfold dispatch
  cases m.known.lookup v.classOf with
  | some route => rfl
  | none => simp [hconsult]

/-- The laws of a course that has led through the values `vs`. -/
structure Lawful (d : Dialect) (p : Blueprint) (vs : List Value) : Prop where
  /-- Rules are asked in their order: those for kinds, then those of the application. -/
  rules : d.rules = kindRules d.types ++ ownRules p.custom
  settled : d.memo.known = builtinSettled
  decides : ∀ v, d.Decides v (d.after d.memo vs) (d.dispatch v (d.after d.memo vs))
  asked : (d.after d.memo vs).asked = d.rules.mapIdx fun i _ => d.calls i d.memo vs
  once : Once (d.after d.memo vs)
  grows : ∀ ws, Grows (d.after d.memo vs) (d.after d.memo (vs ++ ws))
  /-- A class that is remembered keeps its way, at no cost. -/
  keeps : ∀ c route, (d.after d.memo vs).known.lookup c = some route → ∀ ws w, w.classOf = c →
    d.dispatch w (d.after d.memo (vs ++ ws)) = (.ok route, d.after d.memo (vs ++ ws))
  /-- So does one that a rule takes as a whole, from then on. -/
  takes : ∀ v before rule rest, (d.after d.memo vs).known.lookup v.classOf = none →
    d.rules = before ++ rule :: rest → (∀ other ∈ before, other.select v = .pass) →
    rule.select v = .acceptAll → ∀ ws w, w.classOf = v.classOf →
      d.dispatch w (d.after d.memo (vs ++ v :: ws)) =
        (.ok rule.route, d.after d.memo (vs ++ v :: ws))
  /-- Types whose format is not to be remembered leave the memo alone. -/
  fleeting : ∀ v entry body, d.types.ofClass? v.classOf = some entry →
    entry.kind = .structured false body →
      (d.dispatch v (d.after d.memo vs)).2.known = (d.after d.memo vs).known

/-- Rules are asked in order and counted, and what a memo holds is never lost nor asked again. -/
theorem dispatch_lawful (hd : build p = .ok d) (vs : List Value) : d.Lawful p vs where
  rules := (follows_of_build hd).offers.rules
  settled := (Built.of_build hd).settled
  decides v := dispatch_decides d v _
  asked := by
    rw [asked_after]
    refine List.mapIdx_eq_iff.mpr fun i => ?_
    simp only [List.getElem?_mapIdx, memo, List.getElem?_map, Option.map_map, Function.comp_def,
      Nat.zero_add]
  once := after_once (once_memo (Built.of_build hd)) vs
  grows ws := by
    rw [after_append]
    exact after_grows d _ ws
  keeps c route hknown ws w hw := by
    rw [after_append]
    exact dispatch_after_of_known hknown ws hw
  takes v before rule rest hunknown hrules hpass hselect ws w hw := by
    rw [after_append, after_cons]
    exact dispatch_after_of_known (lookup_dispatch hunknown hrules hpass hselect) ws hw
  fleeting v entry body hentry hkind := (Built.of_build hd).known_of_fleeting hentry hkind _

end Dialect

/-! Temperatures, of which those above thirty degrees are taken as a whole class. -/

namespace Sample

def weather : Dialect.Blueprint where
  registry := registry declarations
  roster := ⟨["demo::Celsius"]⟩
  custom := [(hotSelector .acceptAll, celsiusFormat (some (TypeId.ofInt 1))),
    (anySelector .accept, celsiusFormat (some (TypeId.ofInt 2)))]

def celsius (bits : UInt32) : Value := make "Celsius" [("v", .float bits)]

def cold : Value := celsius 0

def hot : Value := celsius 0x42000000

end Sample

/-- A cold day is taken once, by the last rule. After a hot day the rule for these has the class. -/
theorem Dialect.dispatch_lawful_weather : ∃ d, build Sample.weather = .ok d ∧
    (d.dispatch Sample.cold d.memo).1 =
      .ok ⟨TypeId.ofInt 2, Sample.celsiusFormat (some (TypeId.ofInt 2))⟩ ∧
    d.dispatch Sample.cold (d.after d.memo [Sample.cold, Sample.hot]) =
      (.ok ⟨TypeId.ofInt 1, Sample.celsiusFormat (some (TypeId.ofInt 1))⟩,
        d.after d.memo [Sample.cold, Sample.hot]) := by
  refine ⟨_, rfl, rfl, ?_⟩
  have hlawful := dispatch_lawful (p := Sample.weather) rfl [Sample.cold]
  -- the rule for packets stands in front
  exact hlawful.takes Sample.hot [_] _ _ rfl rfl (List.forall_mem_singleton.mpr rfl) rfl []
    Sample.cold rfl

end Wireform

import Wireform.Proofs.Dialect.Course
import Wireform.Proofs.RoundTrip.Mirror

/-!
Writer and reader go the same way. A writer finds the way of a value in the memo
or by the rules, a reader finds it by the number that it reads. The reader has
only the list of ways to look at, so two things have to hold of it: no number
stands there twice, and every way that a writer may find is on it. The first is
seen to when the dialect is built. The second is true of the rules for the same
reason, and of the memo because nothing gets into it but what a rule has found.
-/

namespace Wireform

namespace Dialect

variable {p : Blueprint} {d : Dialect} {m : Memo} {v : Value} {route : Route}
  {o : Except Failure Route × Memo}

/-- All ways of a dialect, with a memo for those that have been found. -/
def ways (d : Dialect) (m : Memo) : List Route :=
  d.routes ++ d.rules.map (·.route) ++ m.known.map (·.2)

/-- A number stands for one way, and there are no ways besides those that a reader knows. -/
structure Keyed (d : Dialect) (m : Memo) : Prop where
  distinct : d.routes.Pairwise (·.id ≠ ·.id)
  rules : ∀ rule ∈ d.rules, rule.route ∈ d.routes
  known : ∀ entry ∈ m.known, entry.2 ∈ d.routes

theorem Keyed.route?_eq (h : Keyed d m) (hroute : route ∈ d.routes) :
    d.route? route.id = some route :=
  find?_key h.distinct hroute

theorem Keyed.mem_of_ways (h : Keyed d m) (hroute : route ∈ d.ways m) : route ∈ d.routes := by
  simp only [ways, List.mem_append, List.mem_map] at hroute
  rcases hroute with (hroute | ⟨rule, hrule, rfl⟩) | ⟨entry, hentry, rfl⟩
  · exact hroute
  · exact h.rules rule hrule
  · exact h.known entry hentry

theorem keyed_memo (hd : build p = .ok d) : Keyed d d.memo := by
  obtain ⟨hroutes, hrules, hdistinct⟩ := (follows_of_build hd).offers
  simp only at hroutes hrules
  have hbuiltin : ∀ b, builtinRoute b ∈ d.routes := by
    intro b
    rw [hroutes]
    exact List.mem_append_left _ (List.mem_map_of_mem b.mem_all)
  refine ⟨hdistinct, fun rule hrule => ?_, fun entry hentry => ?_⟩
  · rw [hrules, List.mem_append] at hrule
    rcases hrule with hkind | hown
    · obtain ⟨b, -, hrule⟩ := List.mem_filterMap.mp hkind
      rw [route_of_kindRule hrule]
      exact hbuiltin b
    · rw [hroutes]
      exact List.mem_append_right _ (List.mem_map_of_mem hown)
  · have hsettled : entry ∈ builtinSettled := (Built.of_build hd).settled ▸ hentry
    obtain ⟨b, -, hclass⟩ := List.mem_filterMap.mp hsettled
    obtain ⟨c, -, rfl⟩ := Option.map_eq_some_iff.mp hclass
    exact hbuiltin b

theorem Decides.keyed (h : d.Decides v m o) (hm : Keyed d m) :
    Keyed d o.2 ∧ ∀ route, o.1 = .ok route → route ∈ d.routes := by
  cases h with
  | @known route hknown =>
      obtain ⟨front, back, hm', -⟩ := List.lookup_eq_some_iff.mp hknown
      have hroute := hm.known (v.classOf, route) (by simp [hm'])
      refine ⟨hm, fun other hfound => ?_⟩
      cases hfound
      exact hroute
  | accepted _ hrules =>
      refine ⟨⟨hm.distinct, hm.rules, hm.known⟩, fun route hroute => ?_⟩
      cases hroute
      exact hm.rules _ (by simp [hrules])
  | remembered _ hrules =>
      have hroute := hm.rules _ (by rw [hrules]; exact List.mem_append_right _ List.mem_cons_self)
      refine ⟨⟨hm.distinct, hm.rules, List.forall_mem_cons.mpr ⟨hroute, hm.known⟩⟩, ?_⟩
      intro route hfound
      cases hfound
      exact hroute
  | rejected =>
      exact ⟨⟨hm.distinct, hm.rules, hm.known⟩, fun route hroute => nomatch hroute⟩

theorem Reaches.keyed (h : d.Reaches m) (hd : build p = .ok d) : Keyed d m := by
  induction h with
  | start => exact keyed_memo hd
  | dispatch _ v ih => exact ((dispatch_decides d v _).keyed ih).1

end Dialect

/-! ### Both ends -/

namespace Writer

variable {d : Dialect} {m m' : Memo} {v : Value} {route : Route}

theorem writeBody_of_dispatch (hdispatch : d.dispatch v m = (.ok route, m'))
    (object : String → Value → Action Bench Unit) (name : String) {s : Bench} (hs : s.memo = m) :
    writeBody d object name v s =
      (Bench.onBuffer (Buffer.writeShort route.id.raw) >>= fun _ =>
        (route.format.write d.types name v).run (writeField d object)) { s with memo := m' } := by
  have hroute : Bench.onMemo (d.dispatch v) s = (.ok route, { s with memo := m' }) := by
    simp only [Bench.onMemo, hs, hdispatch]
  rw [writeBody, Action.bind_of_ok hroute]

end Writer

namespace Reader

variable {d : Dialect} {route : Route} {levels : Nat}

theorem readBody_of_route? (hroute : d.route? route.id = some route)
    (object : String → Action Bench Value) {s : Bench} {rest : List UInt8}
    (hs : Bench.Ready levels s) (hin : s.buffer.ahead = route.id.word ++ rest) :
    ∃ t, Bench.Moved s 2 t ∧
      readBody d object s = (route.format.read d.types).run (answer d object) t := by
  obtain ⟨t, hread, hmoved⟩ := yields_id route.id hs hin
  rw [TypeId.length_word] at hmoved
  refine ⟨t, hmoved, ?_⟩
  rw [readBody, Action.bind_of_ok hread, show d.route? ⟨route.id.raw⟩ = _ from hroute]

end Reader

/-- Whatever has been dispatched before, a value goes by the format that a reader finds under the
number in front, and no two ways have the same number. -/
theorem Dialect.dispatch_agrees {p : Blueprint} {d : Dialect} (hd : build p = .ok d)
    (vs : List Value) :
    (∀ v route m, d.dispatch v (d.after d.memo vs) = (.ok route, m) →
      d.route? route.id = some route ∧
      (∀ object name s, s.memo = d.after d.memo vs → Writer.writeBody d object name v s =
        (Bench.onBuffer (Buffer.writeShort route.id.raw) >>= fun _ =>
          (route.format.write d.types name v).run (Writer.writeField d object))
            { s with memo := m }) ∧
      ∀ object levels s rest, Bench.Ready levels s → s.buffer.ahead = route.id.word ++ rest →
        ∃ t, Bench.Moved s 2 t ∧ Reader.readBody d object s =
          (route.format.read d.types).run (Reader.answer d object) t) ∧
    ∀ route ∈ d.ways (d.after d.memo vs), ∀ other ∈ d.ways (d.after d.memo vs),
      route.id = other.id → route = other := by
  have hkeyed := (reaches_iff.mpr ⟨vs, rfl⟩).keyed hd
  refine ⟨fun v route m hdispatch => ?_, fun route hroute other hother hsame => ?_⟩
  · have hmem := ((dispatch_decides d v _).keyed hkeyed).2 route (congrArg Prod.fst hdispatch)
    have hfound := hkeyed.route?_eq hmem
    refine ⟨hfound, fun object name s hs => ?_, fun object levels s rest hs hin => ?_⟩
    · exact Writer.writeBody_of_dispatch hdispatch object name hs
    · exact Reader.readBody_of_route? hfound object hs hin
  · have hfound := hkeyed.route?_eq (hkeyed.mem_of_ways hroute)
    have hfound' := hkeyed.route?_eq (hkeyed.mem_of_ways hother)
    rw [hsame, hfound'] at hfound
    exact (Option.some.inj hfound).symm

/-- After a hot day the way of a cold one comes from the memo, and a reader finds it as well. -/
theorem Dialect.dispatch_agrees_weather : ∃ d route m, build Sample.weather = .ok d ∧
    d.dispatch Sample.cold (d.after d.memo [Sample.hot]) = (.ok route, m) ∧
    route.id = TypeId.ofInt 1 ∧ d.route? route.id = some route := by
  refine ⟨_, _, _, rfl, rfl, rfl, ?_⟩
  obtain ⟨hagrees, -⟩ := dispatch_agrees (p := Sample.weather) rfl [Sample.hot]
  exact (hagrees Sample.cold _ _ rfl).1

end Wireform

import Wireform.Proofs.Dialect.Agreement
import Wireform.Proofs.Endpoint.Forgetting
import Wireform.Proofs.Twin.Frames

/-!
Whether frames are kept makes no difference but for the frames. An endpoint that
keeps them does more: it looks ahead before every object that it reads, and it
marks failures on their way out. What it looks at it would have read anyway or
not at all, and the look ahead changes nothing that anybody goes by. What it
marks are the failures that come up without the marks as well.

An application might look at the frames of a failure, or break off fatally when
it is only asked what comes next. One that is sober does neither.
-/

namespace Wireform

/-- The first workspace keeps frames and the second does not, and there is no other difference than
that and what is in their scratch areas. -/
structure Workspace.Untraced (w u : Workspace) : Prop where
  traced : w.tracing = true
  silent : u.tracing = false
  frames : u.frames = []
  depth : u.depth = w.depth
  maxDepth : u.maxDepth = w.maxDepth
  scratch : u.scratch.length = w.scratch.length
  scratch_pos : 0 < w.scratch.length

namespace Workspace

variable {w u : Workspace}

theorem Untraced.push (h : w.Untraced u) (frame : String) : (w.push frame).Untraced u := by
  have hpush : w.push frame = { w with frames := frame :: w.frames } := if_pos h.traced
  rw [hpush]
  exact ⟨h.traced, h.silent, h.frames, h.depth, h.maxDepth, h.scratch, h.scratch_pos⟩

theorem Untraced.push_eq (h : w.Untraced u) (frame : String) : u.push frame = u :=
  if_neg (Bool.eq_false_iff.mp h.silent)

theorem Untraced.withScratch (h : w.Untraced u) {x y : List UInt8}
    (hx : x.length = w.scratch.length) (hy : y.length = w.scratch.length) :
    Untraced { w with scratch := x } { u with scratch := y } :=
  ⟨h.traced, h.silent, h.frames, h.depth, h.maxDepth, hy.trans hx.symm, hx ▸ h.scratch_pos⟩

theorem Untraced.leave (h : w.Untraced u) : w.leave.Untraced u.leave := by
  refine ⟨h.traced, h.silent, ?_, congrArg (· - 1) h.depth, h.maxDepth, h.scratch, h.scratch_pos⟩
  rw [Workspace.leave, h.silent]
  exact h.frames

theorem Untraced.annotate (h : w.Untraced u) {f g : Failure} (hfg : f.Bare g) :
    (w.annotate f).Bare (u.annotate g) := by
  have hmarked : w.annotate f = f.withFrames w.frames := if_pos h.traced
  have hsame : u.annotate g = g := if_neg (Bool.eq_false_iff.mp h.silent)
  rw [hmarked, hsame]
  exact hfg.withFrames w.frames

end Workspace

namespace Dialect

variable {p : Blueprint} {d : Dialect} {m : Memo}

theorem agree_dispatch (v : Value) (m : Memo) :
    Agree Failure.Bare (d.dispatch v m).1 (d.dispatch v m).1 := by
  have hdecides := dispatch_decides d v m
  generalize d.dispatch v m = o at hdecides ⊢
  cases hdecides with
  | known | accepted | remembered => exact .ok _
  | rejected => exact .error rfl

/-- Benches of which the first keeps frames and the second does not. -/
def untracing (d : Dialect) (hd : d.Sober) : Likeness d where
  Fit := Buffer.Valid
  Works := Workspace.Untraced
  Memos m n := n = m ∧ Keyed d m
  Alike := Failure.Bare
  fatal := fun h => by rw [h]; rfl
  unframed := Failure.bare_self
  acts := by
    intro α act b hact hb
    obtain ⟨hfollows, hfails⟩ := hact hb
    exact ⟨hfollows.valid, fun f hf => Failure.bare_self (hfails f hf).frames⟩
  depth := fun h => ⟨h.depth, h.maxDepth⟩
  size := fun h => ⟨h.scratch_pos, h.scratch⟩
  scratch := fun h _ _ hx hy => h.withScratch hx hy
  enter := fun h _ =>
    ⟨h.traced, h.silent, h.frames, rfl, h.maxDepth, h.scratch, h.scratch_pos⟩
  push := by
    intro w u h frame
    rw [h.push_eq]
    exact h.push frame
  leave := fun h => h.leave
  annotate := fun h _ _ hfg => h.annotate hfg
  dispatch := by
    rintro m _ ⟨rfl, hm⟩ v
    exact ⟨agree_dispatch v _, rfl, ((dispatch_decides d v _).keyed hm).1⟩
  writes := by
    rintro m _ ⟨-, hm⟩ v route hroute name
    exact (hd route (((dispatch_decides d v m).keyed hm).2 route hroute)).write name v
  reads := fun hroute => (hd _ (mem_of_route? hroute)).read.blind
  describes := fun hroute => (hd _ (mem_of_route? hroute)).describe.blind

/-- The look ahead, which takes place on one side only, is not noticed. -/
theorem looksAhead_untracing (hd : d.Sober) : Reader.LooksAhead d (d.untracing hd) := by
  intro levels name _ s t hst
  have hwork : s.work.Untraced t.work := hst.work
  have hfit : Conduct.perusal.Fit s := ⟨hst.fit, hwork.scratch_pos⟩
  obtain ⟨frame, scratch, hlen, hpush⟩ := Reader.pushFrame_of_tracing name hwork.traced
    (Reader.comesBack_readObject hd.calm hfit levels)
  rw [hpush, Reader.pushFrame_of_not_tracing name hwork.silent]
  refine ⟨.ok (), hst.buffer, hst.fit, ?_, hst.memo⟩
  exact (hwork.withScratch hlen hwork.scratch).push frame

theorem meets_untracing (hd : d.Sober) {s : Settings} (hs : s.validate = .ok ()) :
    (d.untracing hd).Meets { s with debug := true } { s with debug := false } where
  lend := by
    intro w u hw hu htracing htracing'
    obtain ⟨hdepth, -⟩ := hw.empty
    obtain ⟨hdepth', hframes⟩ := hu.empty
    exact ⟨htracing, htracing', hframes, hdepth'.trans hdepth.symm,
      hu.maxDepth.trans hw.maxDepth.symm, hu.scratch.trans hw.scratch.symm, hw.scratch_pos hs⟩
  tracing := fun h => ⟨h.traced, h.silent⟩
  create := Buffer.valid_create
  initial := rfl
  max := rfl
  looksAhead := looksAhead_untracing hd

end Dialect

namespace Endpoint

open Dialect

variable {p : Blueprint} {d : Dialect} {s : Settings} {on off : Endpoint}

theorem level_untraced (hd : build p = .ok d) (hp : p.Sober)
    (hon : create d { s with debug := true } = .ok on)
    (hoff : create d { s with debug := false } = .ok off) {events : List Event}
    (hevents : ∀ x ∈ events, x.On Buffer.Valid) :
    (d.untracing (sober_of_build hd hp)).Level { s with debug := true } { s with debug := false }
      (on.station.after events) (off.station.after events) := by
  obtain ⟨hkept, hmemo⟩ := kept_of_create hon
  obtain ⟨hkept', hmemo'⟩ := kept_of_create hoff
  refine Likeness.Level.after (meets_untracing _ (validate_of_create hon)) ⟨⟨hkept, hkept', ?_⟩,
    fun _ => .none⟩ hevents
  exact ⟨hmemo'.trans hmemo.symm, hmemo ▸ keyed_memo hd⟩

end Endpoint

namespace Sample

theorem sober_thermometer : thermometer.Sober where
  types := by
    refine List.forall_mem_singleton.mpr ?_
    trivial
  formats := by
    refine List.forall_mem_singleton.mpr fun types _ => ⟨fun name v => ?_, ?_, Plan.sober_pure _⟩
    · refine (Plan.blind_request _).bind fun _ => (Plan.blind_lift fun f hf => ?_).bind fun v => ?_
      · exact (Value.plain_of_expect hf).frames
      · split
        · exact Plan.blind_request _
        · exact Plan.blind_refuse rfl
    · exact (Plan.sober_request _).bind fun _ => (Plan.sober_request _).bind fun _ =>
        Plan.sober_pure _

theorem valid_spoiling : ∀ x ∈ spoiling, x.On Buffer.Valid := by
  refine List.forall_mem_cons.mpr ⟨trivial, List.forall_mem_cons.mpr ⟨?_,
    List.forall_mem_singleton.mpr ?_⟩⟩
  · exact Buffer.valid_create 2 4
  · exact Buffer.valid_ofBytes _

end Sample

namespace Endpoint

open Dialect

variable {p : Blueprint} {d : Dialect} {s : Settings} {on off : Endpoint}

/-- Two endpoints that differ in nothing but whether they keep frames, and to which the same has
happened, come to the same in all that they do, but for the frames of failures. -/
theorem frames_transparent (hd : build p = .ok d) (hp : p.Sober)
    (hon : create d { s with debug := true } = .ok on)
    (hoff : create d { s with debug := false } = .ok off) (events : List Event)
    (hevents : ∀ x ∈ events, x.On Buffer.Valid) :
    (∀ (c : Call) (b : Buffer), b.Valid →
      Agree Failure.Bare (c.run ((on.station.after events).endpoint, b)).1
        (c.run ((off.station.after events).endpoint, b)).1 ∧
      (c.run ((off.station.after events).endpoint, b)).2.2 =
        (c.run ((on.station.after events).endpoint, b)).2.2) ∧
    (∀ i, Option.Rel Workspace.Untraced ((on.station.after events).lent i)
      ((off.station.after events).lent i)) ∧
    (∀ w u : Workspace, w.Untraced u → ∀ (t : Task) (b : Buffer), b.Valid →
      Agree Failure.Bare (use t.run ((on.station.after events).endpoint, w, b)).1
        (use t.run ((off.station.after events).endpoint, u, b)).1 ∧
      (use t.run ((on.station.after events).endpoint, w, b)).2.2.1.Untraced
        (use t.run ((off.station.after events).endpoint, u, b)).2.2.1 ∧
      (use t.run ((off.station.after events).endpoint, u, b)).2.2.2 =
        (use t.run ((on.station.after events).endpoint, w, b)).2.2.2) ∧
    ∀ levels (x : Bench), x.buffer.Valid → 0 < x.work.scratch.length →
      ∃ name scratch, scratch.length = x.work.scratch.length ∧
        Reader.peekName d (Reader.readObject d levels) x =
          (.ok name, ⟨x.buffer, { x.work with scratch }, x.memo⟩) := by
  have hsober := sober_of_build hd hp
  have hs : s.validate = .ok () := validate_of_create (s := { s with debug := true }) hon
  have hmeets := meets_untracing hsober hs
  have hlevel := level_untraced hd hp hon hoff hevents
  refine ⟨fun c b hb => ?_, hlevel.lent, fun w u hwork t b hb => ?_, fun levels x hx hpos => ?_⟩
  · have htied : ((d.untracing hsober).peering _ _).Tied
        ((on.station.after events).endpoint, b) ((off.station.after events).endpoint, b) :=
      ⟨hlevel.peers, rfl, hb⟩
    obtain ⟨hagree, -, hbuffer, -⟩ := Likeness.couples_call hmeets c htied
    exact ⟨hagree, hbuffer⟩
  · have htied : ((d.untracing hsober).lending _ _).Tied
        ((on.station.after events).endpoint, w, b) ((off.station.after events).endpoint, u, b) :=
      ⟨hlevel.peers, hwork, rfl, hb⟩
    obtain ⟨hagree, -, hwork', hbuffer, -⟩ :=
      Likeness.couples_use (Likeness.couples_task hmeets.looksAhead t) htied
    exact ⟨hagree, hwork', hbuffer⟩
  · exact Reader.comesBack_readObject hsober.calm ⟨hx, hpos⟩ levels

theorem frames_transparent_thermometer : ∃ d on off, build Sample.thermometer = .ok d ∧
    create d { debug := true } = .ok on ∧ create d { debug := false } = .ok off ∧
    Agree Failure.Bare
      ((Call.read).run ((on.station.after Sample.spoiling).endpoint, Sample.broken)).1
      ((Call.read).run ((off.station.after Sample.spoiling).endpoint, Sample.broken)).1 ∧
    ((Call.read).run ((off.station.after Sample.spoiling).endpoint, Sample.broken)).2.2 =
      ((Call.read).run ((on.station.after Sample.spoiling).endpoint, Sample.broken)).2.2 := by
  obtain ⟨d, hd⟩ : ∃ d, build Sample.thermometer = .ok d := ⟨_, rfl⟩
  obtain ⟨on, hon⟩ : ∃ on, create d { debug := true } = .ok on := ⟨_, rfl⟩
  obtain ⟨off, hoff⟩ : ∃ off, create d { debug := false } = .ok off := ⟨_, rfl⟩
  obtain ⟨hcalls, -⟩ := frames_transparent (s := {}) hd Sample.sober_thermometer hon hoff
    Sample.spoiling Sample.valid_spoiling
  exact ⟨d, on, off, hd, hon, hoff, hcalls .read Sample.broken (Buffer.valid_ofBytes _)⟩

end Endpoint

end Wireform

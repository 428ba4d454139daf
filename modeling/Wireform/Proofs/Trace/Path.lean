import Wireform.Proofs.Dialect.Agreement
import Wireform.Proofs.Levels.Objects
import Wireform.Proofs.Trace.Relay

/-!
Frames are the path to a failure.

`Tells d base n x act` compares work with the same work under watch, which begins
when all open objects have their frames and `n` levels are left. The watch goes
along with the work, and in the end the same objects are open again. If the work
fails then the watch has seen where (`Raised`): at that moment some objects were
open besides those that were open in the beginning, and they have been closed
since. The failure has no frames as long as there are no such objects, and has
the frames of all open objects otherwise. So the first object that is left with a
failure gives it its frames, and no other changes anything about them.

Work without objects tells by itself. Plans tell if they relay, and an object
tells if its body does, from one level to the next.
-/

namespace Wireform

variable {α β : Type} {d : Dialect} {base : Workspace} {n : Nat}

/-! ### Work without objects -/

/-- Work at a bench in which no object is opened or closed. -/
def Conduct.tending (d : Dialect) : Conduct Bench where
  Fit s := s.buffer.Valid ∧ 0 < s.work.scratch.length ∧ d.Keyed s.memo
  Moves s t := t.buffer.Valid ∧ d.Keyed t.memo ∧
    ∃ scratch, scratch.length = s.work.scratch.length ∧ t.work = { s.work with scratch }
  Fails := Failure.Plain
  refl := fun h => ⟨h.1, h.2.2, _, rfl, rfl⟩
  trans := by
    rintro s t u ⟨-, -, x, hx, ht⟩ ⟨hu, hmemo, y, hy, hwork⟩
    rw [ht] at hy hwork
    exact ⟨hu, hmemo, y, hy.trans hx, hwork⟩
  fit := by
    rintro s t ⟨-, hpos, -⟩ ⟨ht, hmemo, x, hx, hwork⟩
    refine ⟨ht, ?_, hmemo⟩
    rw [hwork, hx]
    exact hpos

namespace Bench

theorem tending_onBuffer {act : Action Buffer α} (h : Obeys Conduct.handling act) :
    Obeys (Conduct.tending d) (onBuffer act) := by
  rintro ⟨b, work, memo⟩ ⟨hb, -, hmemo⟩
  obtain ⟨hmoves, hfails⟩ := h hb
  exact ⟨⟨hmoves.valid, hmemo, work.scratch, rfl, rfl⟩, hfails⟩

theorem tending_read_text : Obeys (Conduct.tending d) (onScratch Text.read) := by
  rintro ⟨b, work, memo⟩ ⟨hb, hpos, hmemo⟩
  obtain ⟨⟨⟨reader, hreader, hmoved⟩, hlen⟩, hfails⟩ :=
    Text.desk_read hpos (s := (b, work.scratch)) ⟨hb, rfl⟩
  have hvalid : (Text.read (b, work.scratch)).2.1.Valid := by
    rw [hmoved]
    exact hb.moveReader hreader
  exact ⟨⟨hvalid, hmemo, _, hlen, rfl⟩, hfails⟩

theorem tending_dispatch (v : Value) : Obeys (Conduct.tending d) (onMemo (d.dispatch v)) := by
  rintro ⟨b, work, memo⟩ ⟨hb, -, hmemo⟩
  have hdecides := Dialect.dispatch_decides d v memo
  refine ⟨⟨hb, (hdecides.keyed hmemo).1, work.scratch, rfl, rfl⟩, fun f hf => ?_⟩
  replace hf : (d.dispatch v memo).1 = .error f := hf
  generalize d.dispatch v memo = o at hdecides hf
  cases hdecides with
  | known | accepted | remembered => cases hf
  | rejected =>
      cases hf
      exact Fault.plain rfl

end Bench

theorem Writer.tending_writeField {f : Field} (hf : f.nested = false)
    (object : String → Value → Action Bench Unit) :
    Obeys (Conduct.tending d) (writeField d object f) := by
  obtain ⟨act, hact, heq⟩ := writeField_of_not_nested (d := d) hf
  rw [heq]
  exact Bench.tending_onBuffer hact

theorem Reader.tending_answer {r : Request} (hr : r.nested = false)
    (object : String → Action Bench Value) :
    Obeys (Conduct.tending d) (answer d object r) := by
  rcases answer_of_not_nested (d := d) hr with rfl | ⟨act, hact, heq⟩
  · exact Bench.tending_read_text
  · rw [heq]
    exact Bench.tending_onBuffer hact.handling

/-! ### Where a failure comes up -/

/-- The failure has come up at this moment. Of a failure for want of levels it is known how many
objects are open. -/
def Moment.Shows (limit : Nat) (fault : Fault) (m : Moment) : Prop :=
  m.mark = .raised ∧ (∀ n, fault ≠ .nestingLimit n) ∨
    m.mark = .refused ∧ fault = .nestingLimit limit ∧ m.stages.length = limit

/-- At the moment `m` a failure has come up, and since then the objects that were open have been
closed. The failure has the frames of these objects and no others. -/
structure Moment.Explains (m : Moment) (limit : Nat) (outermost : String) (seen : List Moment)
    (f : Failure) : Prop where
  shows : m.Shows limit f.fault
  opened : m.stages = f.frames.map .inside
  outermost : f.frames.getLast? = some outermost
  closings : ∃ closings before, seen = closings ++ m :: before ∧
    closings.map Moment.mark = List.replicate f.frames.length .closed

/-- At the moment `m` the failure has come up with the objects `inner` open inside those in
`stages`, and these have been closed since. -/
structure RaisedAt (limit : Nat) (stages : List Stage) (f : Failure) (seen : List Moment)
    (m : Moment) (inner : List String) : Prop where
  shows : m.Shows limit f.fault
  opened : m.stages = inner.map .inside ++ stages
  frames : inner = [] ∧ f.frames = [] ∨ inner ≠ [] ∧ f.frames = inner ++ openFrames stages
  closings : ∃ closings before, seen = closings ++ m :: before ∧
    closings.map Moment.mark = List.replicate inner.length .closed

def Raised (limit : Nat) (stages : List Stage) (f : Failure) (seen : List Moment) : Prop :=
  ∃ m inner, RaisedAt limit stages f seen m inner

/-- Where no object has been opened since, a failure begins without frames. -/
theorem raised_here {limit : Nat} {w : Watch} {mark : Mark} {bench : Bench} {f : Failure}
    (hshows : Moment.Shows limit f.fault ⟨mark, w.stages, bench.work⟩) (hframes : f.frames = []) :
    Raised limit w.stages f (w.note mark bench w.stages).seen :=
  ⟨_, [], hshows, rfl, .inl ⟨rfl, hframes⟩, [], w.seen, rfl, rfl⟩

theorem raised_of_plain {limit : Nat} {f : Failure} (h : f.Plain) (w : Watch) (bench : Bench) :
    Raised limit w.stages f (w.note .raised bench w.stages).seen :=
  raised_here (.inl ⟨rfl, h.levels⟩) h.frames

/-- When an object is closed after a failure, the failure has the frames of all objects that were
open where it came up, of which this is one. -/
theorem Raised.close {limit : Nat} {frame : String} {stages : List Stage} {f : Failure} {w : Watch}
    (h : Raised limit (.inside frame :: stages) f w.seen) (bench : Bench) :
    Raised limit stages (f.withFrames (frame :: openFrames stages))
        (w.note .closed bench stages).seen ∧
      ∃ inner, (f.withFrames (frame :: openFrames stages)).frames =
        inner ++ frame :: openFrames stages := by
  obtain ⟨m, inner, hshows, hopen, hframes, closings, before, hseen, hclosed⟩ := h
  have hmarked : (f.withFrames (frame :: openFrames stages)).frames =
      inner ++ frame :: openFrames stages := by
    unfold Failure.withFrames
    rcases hframes with ⟨rfl, hnone⟩ | ⟨hne, hall⟩
    · rw [hnone]
      rfl
    · have hsome : f.frames.isEmpty = false := by
        rw [hall, List.isEmpty_eq_false_iff]
        exact List.append_ne_nil_of_left_ne_nil hne _
      rw [hsome]
      exact hall
  have hne : inner ++ [frame] ≠ [] :=
    List.append_ne_nil_of_right_ne_nil _ (List.cons_ne_nil _ _)
  refine ⟨⟨m, inner ++ [frame], ?_, ?_, .inr ⟨hne, ?_⟩,
    ⟨.closed, stages, bench.work⟩ :: closings, before, ?_, ?_⟩, inner, hmarked⟩
  · rw [Failure.fault_withFrames]
    exact hshows
  · rw [hopen, List.map_append, List.append_assoc]
    rfl
  · rw [hmarked, List.append_assoc]
    rfl
  · rw [Watch.note, hseen]
    rfl
  · rw [List.map_cons, hclosed, List.length_append, List.length_singleton, List.replicate_succ]

/-! ### Work that tells where it fails -/

structure Workspace.Idle (w : Workspace) : Prop where
  tracing : w.tracing = true
  frames : w.frames = []
  depth : w.depth = 0

/-- All open objects have their frames, and besides them `n` more can be opened. -/
structure Watch.Ready (d : Dialect) (base : Workspace) (n : Nat) (w : Watch) : Prop where
  idle : base.Idle
  sound : w.Sound base
  fit : (Conduct.tending d).Fit w.bench
  named : Stage.naming ∉ w.stages
  levels : w.stages.length + n = base.maxDepth

namespace Watch.Ready

variable {w : Watch}

theorem frames (h : w.Ready d base n) : w.bench.work.frames = openFrames w.stages := by
  rw [h.sound.now.frames, if_pos h.idle.tracing, h.idle.frames, List.append_nil]

theorem depth (h : w.Ready d base n) : w.bench.work.depth = w.stages.length := by
  rw [h.sound.now.depth, h.idle.depth, Nat.zero_add]

theorem left (h : w.Ready d base n) : w.bench.work.levels = n := by
  have hlevels := h.levels
  rw [Workspace.levels, h.sound.now.maxDepth, h.depth]
  omega

theorem note (h : w.Ready d base n) {t : Bench} (ht : (Conduct.tending d).Moves w.bench t)
    (mark : Mark) : (w.note mark t w.stages).Ready d base n := by
  have hfit := (Conduct.tending d).fit h.fit ht
  obtain ⟨-, -, scratch, hlength, hwork⟩ := ht
  refine ⟨h.idle, .note h.sound.seen ?_, hfit, h.named, h.levels⟩
  rw [hwork]
  exact h.sound.now.rescratch hlength

theorem close (h : w.Ready d base n) {frame : String} {stages : List Stage}
    (hstages : w.stages = .inside frame :: stages) :
    (w.note .closed { w.bench with work := w.bench.work.leave } stages).Ready d base (n + 1) := by
  obtain ⟨hidle, ⟨hnow, hseen⟩, hfit, hnamed, hlevels⟩ := h
  rw [hstages] at hnow hnamed hlevels
  refine ⟨hidle, .note hseen hnow.leave, hfit, List.not_mem_of_not_mem_cons hnamed, ?_⟩
  rw [← hlevels, List.length_cons]
  exact (Nat.succ_add_eq_add_succ stages.length n).symm

end Watch.Ready

/-- What has come of work under watch, which has begun at `w`, and of the same work by itself. -/
inductive Told (d : Dialect) (base : Workspace) (n : Nat) (w : Watch) :
    Except Failure α × Watch → Except Failure α × Bench → Prop where
  | ok {a : α} {u : Watch} (hready : u.Ready d base n) (hstages : u.stages = w.stages) :
      Told d base n w (.ok a, u) (.ok a, u.bench)
  | error {f : Failure} {u : Watch} (hready : u.Ready d base n) (hstages : u.stages = w.stages)
      (hfatal : f.fatal = false) (hraised : Raised base.maxDepth w.stages f u.seen) :
      Told d base n w (.error f, u) (.error f, u.bench)

theorem Told.trans {w u : Watch} {out : Except Failure α × Watch} {real : Except Failure α × Bench}
    (h : Told d base n u out real) (hstages : u.stages = w.stages) : Told d base n w out real := by
  cases h with
  | ok hready h => exact .ok hready (h.trans hstages)
  | error hready h hfatal hraised => exact .error hready (h.trans hstages) hfatal (hstages ▸ hraised)

def Tells (d : Dialect) (base : Workspace) (n : Nat) (x : Watched α) (act : Action Bench α) : Prop :=
  ∀ ⦃w⦄, w.Ready d base n → Told d base n w (x w) (act w.bench)

namespace Tells

variable {x : Watched α} {act : Action Bench α}

theorem pure (a : α) : Tells d base n (Pure.pure a) (Pure.pure a) :=
  fun _ h => .ok h rfl

theorem step (hact : Obeys (Conduct.tending d) act) :
    Tells d base n (Watched.step .raised act) act := by
  intro w h
  obtain ⟨hmoves, hfails⟩ := hact h.fit
  unfold Watched.step
  generalize act w.bench = real at hmoves hfails ⊢
  rcases real with ⟨f | a, t⟩
  · have hplain := hfails f rfl
    exact .error (h.note hmoves .raised) rfl hplain.fatal (raised_of_plain hplain w t)
  · exact .ok (h.note hmoves .passed) rfl

theorem bind_of {P : α → Prop} {y : α → Watched β} {next : α → Action Bench β}
    (hx : Tells d base n x act)
    (hP : ∀ s, (Conduct.tending d).Fit s → ∀ a, (act s).1 = .ok a → P a)
    (hy : ∀ a, P a → Tells d base n (y a) (next a)) :
    Tells d base n (x >>= y) (act >>= next) := by
  intro w h
  have hfirst := hx h
  have hvalue := hP w.bench h.fit
  rw [Action.bind_apply, Action.bind_apply]
  generalize x w = out at hfirst ⊢
  generalize act w.bench = real at hfirst hvalue ⊢
  cases hfirst with
  | @ok a u hready hstages => exact (hy a (hvalue a rfl) hready).trans hstages
  | error hready hstages hfatal hraised => exact .error hready hstages hfatal hraised

theorem bind {y : α → Watched β} {next : α → Action Bench β} (hx : Tells d base n x act)
    (hy : ∀ a, Tells d base n (y a) (next a)) : Tells d base n (x >>= y) (act >>= next) :=
  hx.bind_of (P := fun _ => True) (fun _ _ _ _ => trivial) fun a _ => hy a

section Plans

variable {R : Type} {A : R → Type} {nested : R → Bool} {watched : (r : R) → Watched (A r)}
  {answer : (r : R) → Action Bench (A r)} {r : R} {next : Except Failure (A r) → Plan A α}

/-- The failure of an object is passed on, so it has come up where it came up in the object. -/
theorem ask_nested (hr : Tells d base n (watched r) (answer r))
    (hok : ∀ a, Tells d base n ((next (.ok a)).runWatched watched) ((next (.ok a)).run answer))
    (hrelay : ∀ f, next (.error f) = .refuse f) :
    Tells d base n ((Plan.ask r next).runWatched watched) ((Plan.ask r next).run answer) := by
  intro w h
  have hanswer := hr h
  unfold Plan.runWatched
  simp only [Plan.run_ask, Action.bind_apply, Action.attempt]
  generalize watched r w = out at hanswer ⊢
  generalize answer r w.bench = real at hanswer ⊢
  cases hanswer with
  | @ok a u hready hstages => exact (hok a hready).trans hstages
  | error hready hstages hfatal hraised =>
      simp only [hfatal, Bool.false_eq_true, if_false, hrelay]
      exact .error hready hstages hfatal hraised

/-- The failure of a step has come up there if it is the end of the plan, too. -/
theorem ask_step (hwatched : watched r = Watched.step .raised (answer r))
    (hr : Obeys (Conduct.tending d) (answer r))
    (hok : ∀ a, Tells d base n ((next (.ok a)).runWatched watched) ((next (.ok a)).run answer))
    (hrefusal : ∀ f g, f.Plain → next (.error f) = .refuse g → g.Plain)
    (herror : ∀ f, f.Plain →
      Tells d base n ((next (.error f)).runWatched watched) ((next (.error f)).run answer)) :
    Tells d base n ((Plan.ask r next).runWatched watched) ((Plan.ask r next).run answer) := by
  intro w h
  obtain ⟨hmoves, hfails⟩ := hr h.fit
  unfold Plan.runWatched
  simp only [Plan.run_ask, Action.bind_apply, Action.attempt, hwatched, Watched.step]
  generalize answer r w.bench = real at hmoves hfails ⊢
  rcases real with ⟨f | a, t⟩
  · have hplain := hfails f rfl
    simp only [hplain.fatal, Bool.false_eq_true, if_false]
    cases hend : (next (.error f)).refusal? with
    | none => exact (herror f hplain (h.note hmoves .raised)).trans rfl
    | some g =>
        have hnext := Plan.refusal?_eq_some.mp hend
        have hg := hrefusal f g hplain hnext
        simp only [hnext]
        exact .error (h.note hmoves .raised) rfl hg.fatal (raised_of_plain hg w t)
  · exact (hok a (h.note hmoves .passed)).trans rfl

theorem run (hnested : ∀ r, nested r = true → Tells d base n (watched r) (answer r))
    (hother : ∀ r, nested r = false →
      watched r = Watched.step .raised (answer r) ∧ Obeys (Conduct.tending d) (answer r))
    {p : Plan A α} (hp : p.Relays nested) :
    Tells d base n (p.runWatched watched) (p.run answer) := by
  induction p with
  | done a => exact pure a
  | refuse f => exact step (.fail hp)
  | ask r next ih =>
      obtain ⟨hok, hrelay, hgoes⟩ := hp
      cases hr : nested r with
      | true => exact ask_nested (hnested r hr) (fun a => ih _ (hok a)) (hrelay hr)
      | false =>
          obtain ⟨hwatched, hobeys⟩ := hother r hr
          refine ask_step hwatched hobeys (fun a => ih _ (hok a)) (fun f g hf hg => ?_)
            fun f hf => ih _ (hgoes hr f hf)
          have hrest := hgoes hr f hf
          rw [hg] at hrest
          exact hrest

end Plans

theorem refused (hact : ∀ s, act s = (.error (Fault.nestingLimit s.work.maxDepth), s)) :
    Tells d base 0 (Watched.step .refused act) act := by
  intro w h
  have hready := h.note ((Conduct.tending d).refl h.fit) .refused
  simp only [Watched.step, hact]
  exact .error hready rfl rfl
    (raised_here (.inr ⟨rfl, congrArg Fault.nestingLimit h.sound.now.maxDepth, h.levels⟩) rfl)

end Tells

/-! ### Objects -/

/-- Work that takes place in an object with a frame from `F`. Among the frames of its failure is that
of the object. -/
def Opens (d : Dialect) (base : Workspace) (n : Nat) (F : String → Prop) (x : Watched α)
    (act : Action Bench α) : Prop :=
  ∀ ⦃w⦄, w.Ready d base n → Told d base n w (x w) (act w.bench) ∧
    ∀ f, (act w.bench).1 = .error f →
      ∃ inner frame, F frame ∧ f.frames = inner ++ frame :: openFrames w.stages

namespace Opens

variable {F : String → Prop} {x : Watched α} {act : Action Bench α}

theorem tells (h : Opens d base n F x act) : Tells d base n x act := fun _ hw => (h hw).1

/-- From a bench on which no object is open, the frames are those of all objects that were open
where the failure came up. -/
theorem explains (h : Opens d base n F x act) {w : Watch} (hw : w.Ready d base n)
    (hopen : w.stages = []) {f : Failure} {t : Bench} (hact : act w.bench = (.error f, t)) :
    ∃ (u : Watch) (frame : String) (m : Moment), x w = (.error f, u) ∧ u.bench = t ∧ F frame ∧
      m.Explains base.maxDepth frame u.seen f := by
  obtain ⟨htold, hframes⟩ := h hw
  rw [hact] at htold hframes
  obtain ⟨front, frame, hframe, hlast⟩ := hframes f rfl
  generalize x w = out at htold ⊢
  cases htold with
  | @error _ u hready hstages hfatal hraised =>
      obtain ⟨m, inner, hshows, hinner, hmarked, hclosings⟩ := hraised
      rw [hopen, List.append_nil] at hinner
      have hall : f.frames = inner := by
        rcases hmarked with ⟨-, hnone⟩ | ⟨-, hall⟩
        · rw [hnone] at hlast
          exact absurd hlast.symm (List.append_ne_nil_of_right_ne_nil _ (List.cons_ne_nil _ _))
        · rw [hall, hopen]
          exact List.append_nil inner
      subst hall
      refine ⟨u, frame, m, rfl, rfl, hframe, hshows, hinner, ?_, hclosings⟩
      rw [hlast, hopen, List.getLast?_append]
      rfl

end Opens

theorem told_inside {body : Watched α} {bodyAct : Action Bench α}
    (hbody : Tells d base n body bodyAct) {w u : Watch} {frame : String} (hu : u.Ready d base n)
    (hstages : u.stages = .inside frame :: w.stages) :
    Told d base (n + 1) w (Watched.inside body u) (Bench.inside bodyAct u.bench) ∧
      ∀ f, (Bench.inside bodyAct u.bench).1 = .error f →
        ∃ inner, f.frames = inner ++ frame :: openFrames w.stages := by
  have hinside := hbody hu
  rw [Watched.inside, Bench.inside]
  generalize body u = out at hinside ⊢
  generalize bodyAct u.bench = real at hinside ⊢
  cases hinside with
  | @ok a v hready hopen =>
      replace hopen := hopen.trans hstages
      simp only [Bench.inside, Action.lift_apply, hopen, List.tail_cons]
      exact ⟨.ok (hready.close hopen) rfl, fun _ h => by cases h⟩
  | @error f v hready hopen hfatal hraised =>
      rw [hstages] at hraised
      replace hopen := hopen.trans hstages
      have hmarked : v.bench.work.annotate f = f.withFrames (frame :: openFrames w.stages) := by
        rw [Workspace.annotate, hready.sound.now.tracing, hready.idle.tracing, if_pos rfl,
          hready.frames, hopen]
        rfl
      obtain ⟨hclosed, hframes⟩ :=
        hraised.close { v.bench with work := v.bench.work.leave }
      simp only [Bench.inside, Action.lift_apply, hopen, List.tail_cons, hmarked]
      refine ⟨.error (hready.close hopen) rfl ?_ hclosed, fun g hg => ?_⟩
      · rw [Failure.fatal_withFrames]
        exact hfatal
      · cases hg
        exact hframes

/-- An object is opened, gets its frame, and is closed whatever happens inside. -/
theorem opens_object {F : String → Prop} {push : Watched Unit} {pushAct : Action Bench Unit}
    {body : Watched α} {bodyAct : Action Bench α} (hbegins : Begins base F push pushAct)
    (hpush : ∀ s, (Conduct.tending d).Fit s →
      ∃ t, pushAct s = (.ok (), t) ∧ (Conduct.tending d).Fit t)
    (hbody : Tells d base n body bodyAct) :
    Opens d base (n + 1) F (Watched.enter >>= fun _ => push >>= fun _ => Watched.inside body)
      (Bench.enter >>= fun _ => pushAct >>= fun _ => Bench.inside bodyAct) := by
  intro w h
  have hlevels : n + 1 ≤ w.bench.work.levels := Nat.le_of_eq h.left.symm
  obtain ⟨hwatched, hentered⟩ := h.sound.enter hlevels
  obtain ⟨t, ht, hfit⟩ := hpush w.bench.entered h.fit
  obtain ⟨⟨frame, hframe, hpushed⟩, -⟩ := hbegins hentered rfl
  obtain ⟨r, u, hout, hreal, -, hsound⟩ := hpushed.cases
  cases ht.symm.trans hreal
  obtain ⟨hu, hstages⟩ := hsound (reported_ok ())
  rw [Action.bind_of_ok hwatched, Action.bind_of_ok (Bench.enter_of_levels hlevels),
    Action.bind_of_ok hout, Action.bind_of_ok ht]
  have hready : u.Ready d base n := by
    refine ⟨h.idle, hu, hfit, ?_, ?_⟩
    · rw [hstages, List.mem_cons, not_or]
      exact ⟨Stage.noConfusion, h.named⟩
    · rw [hstages, List.length_cons, ← h.levels]
      exact Nat.succ_add_eq_add_succ w.stages.length n
  obtain ⟨htold, hframes⟩ := told_inside hbody hready hstages
  refine ⟨htold, fun f hf => ?_⟩
  obtain ⟨inner, hinner⟩ := hframes f hf
  exact ⟨inner, frame, hframe, hinner⟩

end Wireform

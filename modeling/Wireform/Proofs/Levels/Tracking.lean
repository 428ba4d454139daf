import Wireform.Proofs.Levels.Watch

/-!
The watch follows the work and sees nothing that is out of order.

`Tracks base x act` compares work with the same work under watch. From a watch
that has seen lawful moments only, `x` comes to what `act` comes to and does the
same to the bench. Unless the work breaks off fatally, all moments have been
lawful again, and the objects that are open are those that were open before,
whether the work has succeeded or failed.

Work that comes near nothing but the scratch area of the workspace tracks in one
step. An object tracks if its body does and if its frame gets known (`Begins`).
No plan can make a difference to that, since a plan is told of failures and may
go on from them, but it never sees the workspace.
-/

namespace Wireform

variable {α β : Type}

/-- The work has come to an end that its caller gets to see. -/
def Reported (r : Except Failure α) : Prop := ∀ f, r = .error f → f.fatal = false

@[simp] theorem reported_ok (a : α) : Reported (.ok a : Except Failure α) :=
  fun _ h => by cases h

@[simp] theorem reported_error {f : Failure} :
    Reported (.error f : Except Failure α) ↔ f.fatal = false := by
  refine ⟨fun h => h f rfl, ?_⟩
  rintro h _ ⟨⟩
  exact h

/-- All moments of the watch have been lawful, and the present one is. -/
structure Watch.Sound (base : Workspace) (w : Watch) : Prop where
  now : base.Lawful w.stages w.bench.work
  seen : ∀ m ∈ w.seen, base.Lawful m.stages m.work

theorem Watch.Sound.note {base : Workspace} {w : Watch}
    (hseen : ∀ m ∈ w.seen, base.Lawful m.stages m.work) {mark : Mark} {bench : Bench}
    {stages : List Stage} (h : base.Lawful stages bench.work) :
    (w.note mark bench stages).Sound base :=
  ⟨h, List.forall_mem_cons.mpr ⟨h, hseen⟩⟩

theorem Watch.sound_start (s : Bench) : ({ bench := s } : Watch).Sound s.work :=
  ⟨Workspace.lawful_start s.work, List.forall_mem_nil _⟩

/-- What has come of work under watch is what has come of the work. If that is something that its
caller gets to see, the watch is sound, and the open objects are in the given stages. -/
structure Tracked (base : Workspace) (stages : List Stage) (out : Except Failure α × Watch)
    (real : Except Failure α × Bench) : Prop where
  outcome : out.1 = real.1
  bench : out.2.bench = real.2
  sized : base.Sized real.2.work
  sound : Reported real.1 → out.2.Sound base ∧ out.2.stages = stages

def Tracks (base : Workspace) (x : Watched α) (act : Action Bench α) : Prop :=
  ∀ ⦃w⦄, w.Sound base → Tracked base w.stages (x w) (act w.bench)

/-- The step spares the workspace all but its scratch area, through which text may go. -/
def Spares (act : Action Bench α) : Prop :=
  ∀ s, ∃ scratch, scratch.length = s.work.scratch.length ∧
    (act s).2.work = { s.work with scratch }

variable {base : Workspace}

namespace Spares

theorem onBuffer (act : Action Buffer α) : Spares (Bench.onBuffer act) :=
  fun s => ⟨s.work.scratch, rfl, rfl⟩

theorem onMemo (act : Action Memo α) : Spares (Bench.onMemo act) :=
  fun s => ⟨s.work.scratch, rfl, rfl⟩

theorem lift (r : Except Failure α) : Spares (Action.lift r) :=
  fun s => ⟨s.work.scratch, rfl, rfl⟩

theorem read_text : Spares (Bench.onScratch Text.read) := by
  intro s
  obtain ⟨-, -, hlength, -⟩ := Text.couples_read s.work.scratch.length
    (s := (s.buffer, s.work.scratch)) (t := (s.buffer, s.work.scratch)) ⟨rfl, rfl, rfl⟩
  exact ⟨_, hlength, rfl⟩

end Spares

theorem Tracked.cases {stages : List Stage} {out : Except Failure α × Watch}
    {real : Except Failure α × Bench} (h : Tracked base stages out real) :
    ∃ r u, out = (r, u) ∧ real = (r, u.bench) ∧ base.Sized u.bench.work ∧
      (Reported r → u.Sound base ∧ u.stages = stages) := by
  obtain ⟨r, u⟩ := out
  obtain ⟨r', t⟩ := real
  obtain ⟨rfl : r = r', rfl : u.bench = t, hsized, hsound⟩ := h
  exact ⟨r, u, rfl, rfl, hsized, hsound⟩

/-- Work that goes on. A failure that comes up before is the failure of the whole, so it has to leave
the objects in the same stages. -/
theorem Tracked.bind {x : Watched α} {act : Action Bench α} {y : α → Watched β}
    {next : α → Action Bench β} {w : Watch} {middle stages : List Stage}
    (hx : Tracked base middle (x w) (act w.bench))
    (hy : ∀ a u, (act w.bench).1 = .ok a → u.Sound base → u.stages = middle →
      Tracked base stages (y a u) (next a u.bench))
    (herror : ∀ f, (act w.bench).1 = .error f → f.fatal = false → middle = stages) :
    Tracked base stages ((x >>= y) w) ((act >>= next) w.bench) := by
  obtain ⟨r, u, hout, hreal, hsized, hsound⟩ := hx.cases
  rw [hreal] at hy herror
  rw [Action.bind_apply, Action.bind_apply, hout, hreal]
  cases r with
  | error f =>
      refine ⟨rfl, rfl, hsized, fun hf => ?_⟩
      have hfatal := reported_error.mp hf
      obtain ⟨hu, hstages⟩ := hsound (reported_error.mpr hfatal)
      exact ⟨hu, hstages.trans (herror f rfl hfatal)⟩
  | ok a =>
      obtain ⟨hu, hstages⟩ := hsound (reported_ok a)
      exact hy a u rfl hu hstages

namespace Tracks

variable {x : Watched α} {act : Action Bench α}

theorem pure (a : α) : Tracks base (Pure.pure a) (Pure.pure a) :=
  fun _ h => ⟨rfl, rfl, h.now.toSized, fun _ => ⟨h, rfl⟩⟩

theorem fail (f : Failure) : Tracks base (Action.fail f : Watched α) (Action.fail f) :=
  fun _ h => ⟨rfl, rfl, h.now.toSized, fun _ => ⟨h, rfl⟩⟩

theorem step (hact : Spares act) (failing : Mark) :
    Tracks base (Watched.step failing act) act := by
  intro w h
  obtain ⟨scratch, hlength, hwork⟩ := hact w.bench
  have hnow : base.Lawful w.stages (act w.bench).2.work := by
    rw [hwork]
    exact h.now.rescratch hlength
  unfold Watched.step
  generalize act w.bench = real at hnow
  rcases real with ⟨f | a, t⟩
  · exact ⟨rfl, rfl, hnow.toSized, fun _ => ⟨.note h.seen hnow, rfl⟩⟩
  · exact ⟨rfl, rfl, hnow.toSized, fun _ => ⟨.note h.seen hnow, rfl⟩⟩

theorem bind {y : α → Watched β} {next : α → Action Bench β} (hx : Tracks base x act)
    (hy : ∀ a, Tracks base (y a) (next a)) : Tracks base (x >>= y) (act >>= next) :=
  fun _ h => (hx h).bind (fun a _ _ hu hstages => hstages ▸ hy a hu) fun _ _ _ => rfl

theorem get_bind {y : Watch → Watched β} {next : Bench → Action Bench β}
    (h : ∀ w, Tracks base (y w) (next w.bench)) :
    Tracks base (Action.get >>= y) (Action.get >>= next) :=
  fun w hw => h w hw

theorem attempt (hx : Tracks base x act) :
    Tracks base (Action.attempt x) (Action.attempt act) := by
  intro w h
  obtain ⟨r, u, hout, hreal, hsized, hsound⟩ := (hx h).cases
  unfold Action.attempt
  rw [hout, hreal]
  cases r with
  | ok a => exact ⟨rfl, rfl, hsized, fun _ => hsound (reported_ok a)⟩
  | error f =>
      by_cases hfatal : f.fatal
      · simp only [if_pos hfatal]
        refine ⟨rfl, rfl, hsized, fun hr => ?_⟩
        cases hfatal.symm.trans (reported_error.mp hr)
      · simp only [if_neg hfatal]
        exact ⟨rfl, rfl, hsized, fun _ => hsound (reported_error.mpr (Bool.eq_false_iff.mpr hfatal))⟩

theorem run {R : Type} {A : R → Type} {watched : (r : R) → Watched (A r)}
    {answer : (r : R) → Action Bench (A r)} (h : ∀ r, Tracks base (watched r) (answer r))
    (p : Plan A α) : Tracks base (p.runWatched watched) (p.run answer) := by
  induction p with
  | done a => exact pure a
  | refuse f => exact step (.lift (.error f)) .raised
  | ask r next ih =>
      unfold Plan.runWatched
      rw [Plan.run_ask]
      refine (h r).attempt.bind fun out => ?_
      cases out with
      | ok a => exact ih _
      | error f =>
          cases hrefusal : (next (.error f)).refusal? with
          | none =>
              simp only [hrefusal]
              exact ih _
          | some g =>
              simp only [Plan.refusal?_eq_some.mp hrefusal]
              exact fail g

end Tracks

/-! ### Objects -/

/-- From an object that has just been opened the work leads to one with a frame from `F`, or it fails
fatally. -/
def Begins (base : Workspace) (F : String → Prop) (x : Watched Unit) (act : Action Bench Unit) :
    Prop :=
  ∀ ⦃w stages⦄, w.Sound base → w.stages = .naming :: stages →
    (∃ frame, F frame ∧ Tracked base (.inside frame :: stages) (x w) (act w.bench)) ∧
    ∀ f, (act w.bench).1 = .error f → f.fatal = true

theorem Watch.Sound.enter {w : Watch} (h : w.Sound base) {n : Nat}
    (hlevels : n + 1 ≤ w.bench.work.levels) :
    Watched.enter w = (.ok (), w.note .passed w.bench.entered (.naming :: w.stages)) ∧
      (w.note .passed w.bench.entered (.naming :: w.stages)).Sound base := by
  have henter := Bench.enter_of_levels hlevels
  refine ⟨by simp only [Watched.enter, henter], .note h.seen (h.now.enter ?_)⟩
  unfold Workspace.levels at hlevels
  omega

theorem tracked_begin {w : Watch} {stages : List Stage} (h : w.Sound base)
    (hstages : w.stages = .naming :: stages) (frame : String) :
    Tracked base (.inside frame :: stages) (Watched.begin frame w) (Bench.push frame w.bench) := by
  have hnow := h.now
  rw [hstages] at hnow
  have hnamed : Stage.inside frame :: w.stages.tail = .inside frame :: stages := by
    rw [hstages, List.tail_cons]
  refine ⟨rfl, rfl, (hnow.push frame).toSized, fun _ => ⟨.note h.seen ?_, hnamed⟩⟩
  rw [hnamed]
  exact hnow.push frame

theorem begins_push (frame : String) :
    Begins base (· = frame) (Watched.begin frame) (Bench.push frame) :=
  fun _ _ h hstages => ⟨⟨frame, rfl, tracked_begin h hstages frame⟩, fun _ hf => by cases hf⟩

namespace Tracks

variable {body : Watched α} {bodyAct : Action Bench α}

theorem inside (hbody : Tracks base body bodyAct) {w : Watch} {frame : String}
    {stages : List Stage} (h : w.Sound base) (hstages : w.stages = .inside frame :: stages) :
    Tracked base stages (Watched.inside body w) (Bench.inside bodyAct w.bench) := by
  have hinside := hbody h
  rw [hstages] at hinside
  obtain ⟨r, u, hout, hreal, hsized, hsound⟩ := hinside.cases
  simp only [Watched.inside, Bench.inside, Action.lift_apply, hout, hreal]
  have hclosed (hr : Reported r) :
      (u.note .closed { u.bench with work := u.bench.work.leave } u.stages.tail).Sound base ∧
        u.stages.tail = stages := by
    obtain ⟨hu, hopen⟩ := hsound hr
    have hnow := hu.now
    rw [hopen] at hnow ⊢
    exact ⟨.note hu.seen hnow.leave, rfl⟩
  have hleave : base.Sized u.bench.work.leave := ⟨hsized.scratch, hsized.tracing, hsized.maxDepth⟩
  cases r with
  | ok a => exact ⟨rfl, rfl, hleave, fun _ => hclosed (reported_ok a)⟩
  | error f =>
      refine ⟨rfl, rfl, hleave, fun hr => hclosed (reported_error.mpr ?_)⟩
      rw [← Workspace.fatal_annotate u.bench.work f]
      exact reported_error.mp hr

/-- An object is opened, gets its frame, and is closed whatever happens inside. -/
theorem object {F : String → Prop} {push : Watched Unit} {pushAct : Action Bench Unit}
    (hpush : Begins base F push pushAct) (hbody : Tracks base body bodyAct) :
    Tracks base (Watched.enter >>= fun _ => push >>= fun _ => Watched.inside body)
      (Bench.enter >>= fun _ => pushAct >>= fun _ => Bench.inside bodyAct) := by
  intro w h
  rcases Nat.eq_zero_or_pos w.bench.work.levels with hfull | hroom
  -- no level is left, so nothing is opened
  · have henter := Bench.enter_of_full hfull
    have hwatched : Watched.enter w = (.error (Fault.nestingLimit w.bench.work.maxDepth),
        w.note .refused w.bench w.stages) := by
      simp only [Watched.enter, henter]
    rw [Action.bind_of_error hwatched, Action.bind_of_error henter]
    exact ⟨rfl, rfl, h.now.toSized, fun _ => ⟨.note h.seen h.now, rfl⟩⟩
  · have hlevels : 0 + 1 ≤ w.bench.work.levels := hroom
    obtain ⟨hwatched, hentered⟩ := h.enter hlevels
    obtain ⟨⟨frame, -, hpushed⟩, hfatal⟩ := hpush hentered rfl
    rw [Action.bind_of_ok hwatched, Action.bind_of_ok (Bench.enter_of_levels hlevels)]
    refine hpushed.bind (fun _ u _ hu hstages => hbody.inside hu hstages) fun f hf hreported => ?_
    cases (hfatal f hf).symm.trans hreported

end Tracks

end Wireform

import Wireform.Proofs.Endpoint.Forgetting
import Wireform.Proofs.Levels.Composure
import Wireform.Proofs.Trace.Objects

/-!
Depth and frames are in balance. Whatever a piece of work comes to, and wherever
in it a failure comes up, the workspace has the depth and the frames that it had
before, and on the way there no moment has been unlawful.

What is left behind is in the scratch area. It makes no difference to any work
that is done later with the same workspace, since nothing is ever read from there
that has not been put there for the purpose.
-/

namespace Wireform

variable {d : Dialect}

/-! ### Later work -/

/-- A piece of work on a buffer, with what is remembered by then of the ways of values. -/
structure Job where
  task : Task
  buffer : Buffer
  memo : Memo

/-- What comes of jobs that are done one after the other with one workspace. -/
def Workspace.serve (d : Dialect) :
    Workspace → List Job → List (Σ t : Task, Except Failure t.Answer × Buffer × Memo)
  | _, [] => []
  | w, e :: rest =>
    let (r, ⟨buffer, work, memo⟩) := e.task.run d ⟨e.buffer, w, e.memo⟩
    ⟨e.task, r, buffer, memo⟩ :: work.serve d rest

theorem Workspace.serve_eq {w u : Workspace} (h : d.rescratching.Works w u)
    (jobs : List Job) : u.serve d jobs = w.serve d jobs := by
  have hlook : Reader.LooksAhead d d.rescratching := by
    refine Reader.looksAhead_of_tracing ?_
    rintro w _ ⟨-, scratch, -, rfl⟩
    rfl
  induction jobs generalizing w u with
  | nil => rfl
  | cons e rest ih =>
      have htied : d.rescratching.Tied ⟨e.buffer, w, e.memo⟩ ⟨e.buffer, u, e.memo⟩ :=
        ⟨rfl, trivial, h, rfl⟩
      obtain ⟨hagree, hafter⟩ := Likeness.couples_task hlook e.task htied
      have hrest := ih hafter.work
      have houtcome := hagree.eq
      have hbuffer := hafter.buffer
      have hmemo : (e.task.run d ⟨e.buffer, u, e.memo⟩).2.memo =
        (e.task.run d ⟨e.buffer, w, e.memo⟩).2.memo := hafter.memo
      simp only [serve, houtcome, hbuffer, hmemo, hrest]

/-! ### Balance -/

/-- In the end depth and frames are what they were at the bench `s`, and on the way there they have
gone along with the objects that were open. -/
structure Watch.Balanced (d : Dialect) (s : Bench) (w : Watch) : Prop where
  closed : w.stages = []
  depth : w.bench.work.depth = s.work.depth
  frames : w.bench.work.frames = s.work.frames
  lawful : ∀ m ∈ w.seen, s.work.Lawful m.stages m.work
  bounded : ∀ m ∈ w.seen, m.work.depth ≤ m.work.maxDepth
  framed : ∀ m ∈ w.seen, m.work.tracing = true → s.work.frames.length = s.work.depth →
    Stage.naming ∉ m.stages → m.work.frames.length = m.work.depth
  later : ∀ jobs, w.bench.work.serve d jobs = s.work.serve d jobs

theorem Watch.Sound.balanced {s : Bench} {w : Watch} (h : w.Sound s.work) (hclosed : w.stages = [])
    (hdepth : s.work.depth ≤ s.work.maxDepth) (hscratch : 0 < s.work.scratch.length) :
    w.Balanced d s := by
  have hnow := h.now
  rw [hclosed] at hnow
  obtain ⟨scratch, hlength, hwork⟩ := hnow.back
  refine ⟨hclosed, ?_, ?_, h.seen, fun m hm => ?_, fun m hm htracing hbase hnamed =>
    (h.seen m hm).frames_eq_depth hbase hnamed htracing,
    Workspace.serve_eq ⟨hscratch, scratch, hlength, hwork⟩⟩
  · rw [hwork]
  · rw [hwork]
  · have hlawful := h.seen m hm
    rw [hlawful.maxDepth]
    exact Nat.le_trans hlawful.bounded (Nat.max_le.mpr ⟨hdepth, Nat.le_refl _⟩)

/-- Work with a workspace at any depth, with any outcome but that the program breaks off, leaves
depth and frames balanced. In a dialect that has been built it breaks off only where the application
makes it. -/
theorem Task.levels_balanced (t : Task) (d : Dialect) (levels : Nat) {s : Bench}
    (hdepth : s.work.depth ≤ s.work.maxDepth) (hscratch : 0 < s.work.scratch.length) :
    t.run d s = t.within d s.work.levels s ∧
    (∃ w, t.watch d levels { bench := s } = ((t.within d levels s).1, w) ∧
      w.bench = (t.within d levels s).2 ∧
      (Reported (t.within d levels s).1 → w.Balanced d s)) ∧
    ∀ p, Dialect.build p = .ok d → Manner.composure.OfBlueprint p → s.buffer.Valid →
      d.Reaches s.memo → Reported (t.within d levels s).1 := by
  refine ⟨t.run_eq_within d s, ?_, fun p hd hp hbuffer hmemo =>
    t.reported (Manner.of_build hd hp) levels ⟨hbuffer, hscratch, hmemo.keyed hd⟩⟩
  obtain ⟨houtcome, hbench, -, hsound⟩ := t.tracks_watch d levels (Watch.sound_start s)
  refine ⟨(t.watch d levels { bench := s }).2, Prod.ext houtcome rfl, hbench, fun hreported => ?_⟩
  obtain ⟨hafter, hclosed⟩ := hsound hreported
  exact hafter.balanced hclosed hdepth hscratch

namespace Sample

theorem composed_treeBody_write (v : Value) : (treeBody.write v).Calm := by
  unfold treeBody
  simp only
  split
  · exact (Plan.failsIn_request _).bind fun _ => (Plan.failsIn_request _).bind fun _ =>
      Plan.failsIn_request _
  · exact Plan.failsIn_refuse rfl

theorem composed_grove : Manner.composure.OfBlueprint grove where
  types := by
    refine List.forall_mem_singleton.mpr ⟨composed_treeBody_write, ?_⟩
    refine Manner.composure.reads_bind (Manner.composure.reads_request _) fun value => ?_
    refine Manner.composure.reads_bind (Manner.composure.reads_request _) fun left => ?_
    refine Manner.composure.reads_bind (Manner.composure.reads_request _) fun right => ?_
    exact Manner.composure.reads_pure _
  formats := fun own hown => nomatch hown

end Sample

/-- A tree breaks off in its second branch, at which time two objects are open. The frames of the
failure are theirs. -/
theorem Task.levels_balanced_grove : ∃ d w, Dialect.build Sample.grove = .ok d ∧
    (Task.request (.object "value")).watch d 2
      { bench := ⟨Sample.cutTree, Sample.shallow, d.memo⟩ } = (.error Sample.tooShort, w) ∧
    (∃ m ∈ w.seen, m.work.depth = 2 ∧ m.work.frames = Sample.tooShort.frames) ∧
    w.bench.work.depth = 0 ∧ w.bench.work.frames = [] ∧
    ∀ jobs, w.bench.work.serve d jobs = Sample.shallow.serve d jobs := by
  obtain ⟨d, hd⟩ : ∃ d, Dialect.build Sample.grove = .ok d := ⟨_, rfl⟩
  have hlevels : Sample.shallow.depth ≤ Sample.shallow.maxDepth := by decide
  have hscratch : 0 < Sample.shallow.scratch.length := by decide
  obtain ⟨-, ⟨w, hwatch, -, hbalanced⟩, hreported⟩ :=
    (Task.request (.object "value")).levels_balanced d 2
      (s := ⟨Sample.cutTree, Sample.shallow, d.memo⟩) hlevels hscratch
  have houtcome : Shelf.failure? ((Task.request (.object "value")).within d 2
        ⟨Sample.cutTree, Sample.shallow, d.memo⟩).1 = some Sample.tooShort ∧
      ((Task.request (.object "value")).watch d 2
        { bench := ⟨Sample.cutTree, Sample.shallow, d.memo⟩ }).2.seen.any
          (·.stages = Sample.tooShort.frames.map .inside) = true := by
    cases hd
    decide +kernel
  obtain ⟨hfails, hdeep⟩ := houtcome
  rw [hwatch, List.any_eq_true] at hdeep
  obtain ⟨m, hm, hstages⟩ := hdeep
  replace hstages := of_decide_eq_true hstages
  have hafter := hbalanced
    (hreported _ hd Sample.composed_grove (Buffer.valid_ofBytes _) .start)
  have hlawful := hafter.lawful m hm
  refine ⟨d, w, hd, ?_, ⟨m, hm, ?_, ?_⟩, hafter.depth, hafter.frames, hafter.later⟩
  · rw [hwatch, Shelf.failure?_eq_some hfails]
  · rw [hlawful.depth, hstages]
    rfl
  · rw [hlawful.frames, hstages]
    rfl

end Wireform

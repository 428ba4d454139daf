import Wireform.Codec.Workspace

/-!
What it does to a bench that an object is opened on it, for a writer or for a
reader. A level is used up and, if frames are kept, a frame is added. Both are
taken away again when the object is closed, and so a bench is in the end as it
was before, but for what was done inside.

A failure inside an object is marked on its way out. The marks say where it
arose, and change neither its code nor whether it is fatal.
-/

namespace Wireform

theorem Failure.fatal_withFrames (f : Failure) (frames : List String) :
    (f.withFrames frames).fatal = f.fatal := by
  unfold withFrames
  split
  · rfl
  · rfl

namespace Workspace

theorem code_annotate (w : Workspace) (f : Failure) : (w.annotate f).code = f.code := by
  unfold annotate
  split
  · exact f.code_withFrames w.frames
  · rfl

theorem fatal_annotate (w : Workspace) (f : Failure) : (w.annotate f).fatal = f.fatal := by
  unfold annotate
  split
  · exact f.fatal_withFrames w.frames
  · rfl

@[simp] theorem scratch_push (w : Workspace) (frame : String) :
    (w.push frame).scratch = w.scratch := by
  unfold push
  split <;> rfl

end Workspace

namespace Bench

variable {levels : Nat}

/-- The bench with one more object open, of which nothing has been noted yet. -/
def entered (s : Bench) : Bench := { s with work := { s.work with depth := s.work.depth + 1 } }

theorem enter_of_levels {s : Bench} (hlevels : levels + 1 ≤ s.work.levels) :
    enter s = (.ok (), s.entered) := by
  have hdepth : ¬ s.work.maxDepth ≤ s.work.depth := by
    unfold Workspace.levels at hlevels
    omega
  unfold enter Workspace.enter
  rw [if_neg hdepth]
  rfl

theorem enter_of_full {s : Bench} (hlevels : s.work.levels = 0) :
    enter s = (.error (Fault.nestingLimit s.work.maxDepth), s) := by
  have hdepth : s.work.maxDepth ≤ s.work.depth := by
    unfold Workspace.levels at hlevels
    omega
  unfold enter Workspace.enter
  rw [if_pos hdepth]

theorem levels_entered {s : Bench} (hlevels : levels + 1 ≤ s.work.levels) :
    levels ≤ s.entered.work.levels := by
  unfold Workspace.levels at hlevels
  show levels ≤ s.work.maxDepth - (s.work.depth + 1)
  omega

/-- The bench `t` is `s` with one more object open. -/
structure Opened (s t : Bench) : Prop where
  buffer : t.buffer = s.buffer
  memo : t.memo = s.memo
  levels : t.work.levels + 1 = s.work.levels
  scratch : t.work.scratch.length = s.work.scratch.length
  work : t.work.leave = { s.work with scratch := t.work.scratch }

/-- A frame is added exactly if the closing of the object will take one away. -/
theorem opened_push {s : Bench} (hlevels : levels + 1 ≤ s.work.levels) {scratch : List UInt8}
    (hlen : scratch.length = s.work.scratch.length) (frame : String) :
    Opened s ⟨s.buffer, Workspace.push { s.entered.work with scratch } frame, s.memo⟩ := by
  unfold Workspace.levels at hlevels
  have hused : s.work.maxDepth - (s.work.depth + 1) + 1 = s.work.maxDepth - s.work.depth := by
    omega
  by_cases htracing : s.work.tracing
  · have hpush : Workspace.push { s.entered.work with scratch } frame =
        { s.entered.work with scratch, frames := frame :: s.work.frames } := if_pos htracing
    rw [hpush]
    refine ⟨rfl, rfl, hused, hlen, ?_⟩
    simp only [Workspace.leave, entered, htracing, if_true, List.tail_cons, Nat.add_sub_cancel]
  · have hpush : Workspace.push { s.entered.work with scratch } frame =
        { s.entered.work with scratch } := if_neg htracing
    rw [hpush]
    refine ⟨rfl, rfl, hused, hlen, ?_⟩
    simp only [Workspace.leave, entered, htracing, Bool.false_eq_true, if_false,
      Nat.add_sub_cancel]

theorem buffer_enter (s : Bench) : (enter s).2.buffer = s.buffer := by
  unfold enter
  split <;> rfl

theorem exists_of_inside_ok {α : Type} {act : Action Bench α} {s u : Bench} {a : α}
    (h : inside act s = (.ok a, u)) : ∃ t, act s = (.ok a, t) ∧ u.buffer = t.buffer := by
  unfold inside at h
  rcases hact : act s with ⟨f | a', t⟩
  · rw [hact] at h
    cases h
  · rw [hact] at h
    cases h
    exact ⟨t, rfl, rfl⟩

end Bench

end Wireform

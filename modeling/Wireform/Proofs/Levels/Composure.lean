import Wireform.Proofs.Reading.Foretelling
import Wireform.Proofs.Trace.Path
import Wireform.Proofs.Levels.Objects

/-!
Work comes to an end that its caller gets to see. The library's own work never
breaks off fatally on a buffer that can come about, whatever the bytes in it
are. So no work does, as long as the formats and types of an application go about
theirs with composure: they may give up where they like, but not by breaking off
the program.

For reading this is known along with what a reading leaves alone. Writing is
followed here, down to the single fields, with the only regard that the bench
stays one at which work can go on.
-/

namespace Wireform

/-- To break off with no fatal failures is a manner of writings and readings. -/
def Manner.composure : Manner :=
  { Manner.calmness with
    Writes := Plan.Calm
    Refuses := fun f => f.fatal = false
    refuses := fun h => h.fatal
    writes_pure := Plan.failsIn_pure
    writes_refuse := fun h => Plan.failsIn_refuse h
    writes_request := Plan.failsIn_request
    writes_bind := Plan.FailsIn.bind }

def Dialect.Composed (d : Dialect) : Prop :=
  ∀ route ∈ d.routes, Manner.composure.OfFormat route.format d.types

theorem Dialect.Composed.calm {d : Dialect} (h : d.Composed) : d.Calm where
  read route hroute := (h route hroute).read
  describe route hroute := (h route hroute).describe

/-- Work at a bench that callers get to see the end of. -/
def Conduct.composed (d : Dialect) : Conduct Bench where
  Fit := (Conduct.tending d).Fit
  Moves _ t := (Conduct.tending d).Fit t
  Fails f := f.fatal = false
  refl h := h
  trans _ h := h
  fit _ h := h

variable {d : Dialect} {α : Type}

theorem Obeys.composed {act : Action Bench α} (h : Obeys (Conduct.tending d) act) :
    Obeys (Conduct.composed d) act :=
  h.mono (fun _ hs => hs) (fun _ _ hs hmoves => (Conduct.tending d).fit hs hmoves)
    fun _ hf => hf.fatal

namespace Writer

variable {object : String → Value → Action Bench Unit}

theorem composed_inside {act : Action Bench α} (h : Obeys (Conduct.composed d) act) :
    Obeys (Conduct.composed d) (Bench.inside act) := by
  intro s hs
  obtain ⟨hmoves, hfails⟩ := h hs
  unfold Bench.inside
  generalize act s = out at hmoves hfails ⊢
  rcases out with ⟨f | a, t⟩
  · refine ⟨hmoves, fun g hg => ?_⟩
    cases hg
    exact (Workspace.fatal_annotate _ f).trans (hfails f rfl)
  · exact ⟨hmoves, fun _ hg => by cases hg⟩

theorem composed_enter : Obeys (Conduct.composed d) Bench.enter := by
  intro s hs
  rcases Nat.eq_zero_or_pos s.work.levels with hfull | hroom
  · rw [Bench.enter_of_full hfull]
    refine ⟨hs, fun f hf => ?_⟩
    cases hf
    rfl
  · have hlevels : 0 + 1 ≤ s.work.levels := hroom
    rw [Bench.enter_of_levels hlevels]
    exact ⟨hs, fun _ hf => by cases hf⟩

theorem composed_push (frame : String) : Obeys (Conduct.composed d) (Bench.push frame) := by
  rintro s ⟨hb, hpos, hmemo⟩
  refine ⟨⟨hb, ?_, hmemo⟩, fun _ hf => by cases hf⟩
  show 0 < (s.work.push frame).scratch.length
  rw [Workspace.scratch_push]
  exact hpos

section Nested

variable (hobject : ∀ name v, Obeys (Conduct.composed d) (object name v))

include hobject

theorem composed_writeField (f : Field) : Obeys (Conduct.composed d) (writeField d object f) := by
  have hflag (present : Bool) :
      Obeys (Conduct.composed d) (Bench.onBuffer (Buffer.writeBool present)) :=
    (Bench.tending_onBuffer (Buffer.handling_put _ _)).composed
  cases hf : f.nested with
  | false => exact (tending_writeField hf object).composed
  | true =>
      cases f with
      | object name v => exact hobject name v
      | nullable name v =>
          cases v with
          | none => exact hflag false
          | some v => exact (hflag true).bind fun _ => hobject name v
      | _ => cases hf

variable (hd : d.Composed)

include hd

theorem composed_writeBody (name : String) (v : Value) :
    Obeys (Conduct.composed d) (writeBody d object name v) := by
  have hroute : ∀ s : Bench, (Conduct.composed d).Fit s → ∀ route,
      (Bench.onMemo (d.dispatch v) s).1 = .ok route → route ∈ d.routes := fun s hs =>
    ((Dialect.dispatch_decides d v s.memo).keyed hs.2.2).2
  refine (Bench.tending_dispatch v).composed.bind_of hroute fun route hmem => ?_
  refine (Bench.tending_onBuffer (Buffer.handling_put _ _)).composed.bind fun _ => ?_
  exact .run (composed_writeField hobject) ((hd route hmem).write name v)

end Nested

theorem composed_writeObject (hd : d.Composed) (levels : Nat) (name : String) (v : Value) :
    Obeys (Conduct.composed d) (writeObject d levels name v) := by
  induction levels generalizing name v with
  | zero =>
      refine fun s hs => ⟨hs, fun f hf => ?_⟩
      cases hf
      rfl
  | succ levels ih =>
      exact composed_enter.bind fun _ => (composed_push _).bind fun _ =>
        composed_inside (composed_writeBody ih hd name v)

end Writer

/-- A piece of work returns, unless a format or a type of the application breaks off the program. -/
theorem Task.reported (hd : d.Composed) (t : Task) (levels : Nat) {s : Bench}
    (hs : (Conduct.tending d).Fit s) : Reported (t.within d levels s).1 := by
  have hwrite := Writer.composed_writeObject hd levels
  have hread := Reader.peruses_readObject hd.calm levels
  have hperusal : Conduct.perusal.Fit s := ⟨hs.1, hs.2.1⟩
  cases t with
  | field f => exact (Writer.composed_writeField hwrite f hs).2
  | content name v => exact (Writer.composed_writeBody hwrite hd name v hs).2
  | request r => exact (Reader.peruses_answer hread r hperusal).2
  | nextContent => exact (Reader.peruses_readBody hread hd.calm hperusal).2
  | nextName =>
      obtain ⟨scratch, -, hpeek⟩ := Reader.peekName_of_perusal hread hd.calm hperusal
      show Reported (Reader.peekName d (Reader.readObject d levels) s).1
      rw [hpeek]
      exact reported_ok _

end Wireform

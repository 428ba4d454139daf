import Wireform.Codec.Reader
import Wireform.Codec.Writer
import Wireform.Proofs.Dialect.Dispatch

/-!
What stays true of a state whatever an action comes to, success or failure.
`Action.Keeps I act` says that `act` leads from states with the property `I` to
states with it, and the rules go along the ways in which actions are put
together. A plan keeps what its answers keep.

The property in mind is one of the memo alone. A reader never touches the memo,
and a writer touches it only to find the way of a value. So whatever is done at
a bench, for any values and any bytes and however it ends, a memo that the
dialect can get to is followed by another.
-/

namespace Wireform

namespace Action

variable {σ α β : Type}

/-- Whatever comes of the action, it leads from states with the property `I` to such states. -/
def Keeps (I : σ → Prop) (act : Action σ α) : Prop := ∀ ⦃s⦄, I s → I (act s).2

variable {I : σ → Prop} {x : Action σ α} {f : α → Action σ β}

theorem Keeps.pure (a : α) : Keeps I (Pure.pure a) := fun _ h => h

theorem Keeps.lift (r : Except Failure α) : Keeps I (lift r) := fun _ h => h

theorem Keeps.fail (g : Failure) : Keeps I (fail g : Action σ α) := fun _ h => h

theorem Keeps.get : Keeps I (get : Action σ σ) := fun _ h => h

theorem Keeps.bind (hx : Keeps I x) (hf : ∀ a, Keeps I (f a)) : Keeps I (x >>= f) := by
  intro s h
  have ht := hx h
  rw [bind_apply]
  generalize x s = out at ht ⊢
  rcases out with ⟨e | a, t⟩
  · exact ht
  · exact hf a ht

theorem Keeps.attempt (hx : Keeps I x) : Keeps I (attempt x) := by
  intro s h
  have ht := hx h
  unfold Action.attempt
  generalize x s = out at ht ⊢
  rcases out with ⟨e | a, t⟩
  · simp only
    split
    · exact ht
    · exact ht
  · exact ht

theorem Keeps.run {R : Type} {A : R → Type} {answer : (r : R) → Action σ (A r)}
    (h : ∀ r, Keeps I (answer r)) (plan : Plan A α) : Keeps I (plan.run answer) := by
  induction plan with
  | done a => exact Keeps.pure a
  | refuse g => exact Keeps.fail g
  | ask r next ih =>
      rw [Plan.run_ask]
      exact (h r).attempt.bind ih

end Action

open Wireform.Action

namespace Bench

variable {α : Type} {J : Memo → Prop}

theorem keeps_onBuffer (act : Action Buffer α) : Keeps (fun s => J s.memo) (onBuffer act) :=
  fun _ h => h

theorem keeps_onScratch (act : Action (Buffer × List UInt8) α) :
    Keeps (fun s => J s.memo) (onScratch act) :=
  fun _ h => h

theorem keeps_enter : Keeps (fun s => J s.memo) enter := by
  intro s h
  unfold enter
  split
  · exact h
  · exact h

theorem keeps_inside {act : Action Bench α} (hact : Keeps (fun s => J s.memo) act) :
    Keeps (fun s => J s.memo) (inside act) := by
  intro s h
  have ht := hact h
  unfold inside
  generalize act s = out at ht ⊢
  rcases out with ⟨e | a, t⟩
  · exact ht
  · exact ht

end Bench

namespace Reader

variable {d : Dialect} {object : String → Action Bench Value} {J : Memo → Prop}

section Nested

variable (hobject : ∀ name, Keeps (fun s => J s.memo) (object name))

include hobject

theorem keeps_answer (r : Request) : Keeps (fun s => J s.memo) (answer d object r) := by
  cases r with
  | text => exact Bench.keeps_onScratch _
  | object name => exact hobject name
  | objectAs c name => exact (hobject name).bind fun v => Keeps.lift _
  | nullable name =>
      refine (Bench.keeps_onBuffer _).bind fun flag => ?_
      cases flag with
      | true => exact (hobject name).bind fun v => Keeps.pure _
      | false => exact Keeps.pure _
  | _ => exact Bench.keeps_onBuffer _

theorem keeps_describeNext : Keeps (fun s => J s.memo) (describeNext d object) := by
  refine (Bench.keeps_onBuffer _).bind fun raw => ?_
  simp only
  split
  · exact Keeps.run (keeps_answer hobject) _
  · exact Keeps.pure _

theorem keeps_pushFrame (name : String) :
    Keeps (fun s => J s.memo) (pushFrame d object name) := by
  have hpeek : Keeps (fun s => J s.memo) (peekName d object) := by
    refine Keeps.get.bind fun s => (keeps_describeNext hobject).attempt.bind fun r => ?_
    refine (Bench.keeps_onBuffer _).attempt.bind fun r => ?_
    split
    · exact Keeps.pure _
    · exact Keeps.pure _
  refine Keeps.get.bind fun s => ?_
  split
  · exact hpeek.bind fun type _ h => h
  · exact Keeps.pure _

theorem keeps_readBody : Keeps (fun s => J s.memo) (readBody d object) := by
  refine (Bench.keeps_onBuffer _).bind fun raw => ?_
  simp only
  split
  · exact Keeps.run (keeps_answer hobject) _
  · exact Keeps.fail _

end Nested

theorem keeps_readObject (levels : Nat) (name : String) :
    Keeps (fun s => J s.memo) (readObject d levels name) := by
  induction levels generalizing name with
  | zero => exact fun _ h => h
  | succ levels ih =>
      exact Bench.keeps_enter.bind fun _ => (keeps_pushFrame ih name).bind fun _ =>
        Bench.keeps_inside (keeps_readBody ih)

theorem memo_request (r : Request) (s : Bench) : (request d r s).2.memo = s.memo := by
  have hobject := keeps_readObject (d := d) (J := (· = s.memo)) s.work.levels
  exact keeps_answer (J := (· = s.memo)) hobject r (s := s) rfl

end Reader

namespace Writer

variable {d : Dialect} {object : String → Value → Action Bench Unit}

section Nested

variable (hobject : ∀ name v, Keeps (fun s => d.Reaches s.memo) (object name v))

include hobject

theorem keeps_writeField (f : Field) :
    Keeps (fun s => d.Reaches s.memo) (writeField d object f) := by
  cases f with
  | object name v => exact hobject name v
  | nullable name v =>
      cases v with
      | none => exact Bench.keeps_onBuffer _
      | some v => exact (Bench.keeps_onBuffer _).bind fun _ => hobject name v
  | _ => exact Bench.keeps_onBuffer _

theorem keeps_writeBody (name : String) (v : Value) :
    Keeps (fun s => d.Reaches s.memo) (writeBody d object name v) := by
  have hdispatch : Keeps (fun s => d.Reaches s.memo) (Bench.onMemo (d.dispatch v)) :=
    fun _ h => h.dispatch v
  exact hdispatch.bind fun route => (Bench.keeps_onBuffer _).bind fun _ =>
    Keeps.run (keeps_writeField hobject) _

end Nested

theorem keeps_writeObject (levels : Nat) (name : String) (v : Value) :
    Keeps (fun s => d.Reaches s.memo) (writeObject d levels name v) := by
  induction levels generalizing name v with
  | zero => exact fun _ h => h
  | succ levels ih =>
      exact Bench.keeps_enter.bind fun _ => Keeps.bind (fun _ h => h) fun _ =>
        Bench.keeps_inside (keeps_writeBody ih name v)

theorem reaches_field (f : Field) {s : Bench} (h : d.Reaches s.memo) :
    d.Reaches (field d f s).2.memo :=
  keeps_writeField (keeps_writeObject _) f h

end Writer

end Wireform

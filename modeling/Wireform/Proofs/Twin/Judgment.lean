import Wireform.Plan

/-!
Two runs side by side. A `Coupling` says when two states count as the same, and
when two failures do. `Couples C x y` says that from states that count as the
same `x` and `y` lead to such states again, with the same value or with
failures that count as the same.

What is coupled stays coupled along the ways in which actions are put together.
A plan is shown the failures of its requests, so it may go different ways after
failures that are not quite the same. `Plan.Twins F p q` says that it does not:
that `p` and `q` ask the same, and go on alike after failures related by `F`.
-/

namespace Wireform

variable {σ α β : Type} {F : Failure → Failure → Prop}

/-- The same value, or failures related by `F`. -/
inductive Agree (F : Failure → Failure → Prop) : Except Failure α → Except Failure α → Prop where
  | ok (a : α) : Agree F (.ok a) (.ok a)
  | error {f g : Failure} (h : F f g) : Agree F (.error f) (.error g)

theorem Agree.toOption {r r' : Except Failure α} (h : Agree F r r') :
    r'.toOption = r.toOption := by
  cases h with
  | ok a => rfl
  | error h => rfl

theorem Agree.of_eq {r r' : Except Failure α} (h : r' = r) : Agree (fun f g => g = f) r r' := by
  subst h
  cases r' with
  | ok a => exact .ok a
  | error f => exact .error rfl

theorem Agree.eq {r r' : Except Failure α} (h : Agree (fun f g => g = f) r r') : r' = r := by
  cases h with
  | ok a => rfl
  | error h => rw [h]

theorem Failure.fatal_of_eq {f g : Failure} (h : g = f) : g.fatal = f.fatal := by rw [h]

/-- When two states and two failures count as the same. -/
structure Coupling (σ : Type) where
  Tied : σ → σ → Prop
  Alike : Failure → Failure → Prop
  fatal : ∀ {f g}, Alike f g → g.fatal = f.fatal

/-- States that count as the same are led to such states, with outcomes that count as the same. -/
def Couples (C : Coupling σ) (x y : Action σ α) : Prop :=
  ∀ ⦃s t⦄, C.Tied s t → Agree C.Alike (x s).1 (y t).1 ∧ C.Tied (x s).2 (y t).2

/-- The plans ask the same and end alike, as long as what they are told counts as the same. -/
inductive Plan.Twins {R : Type} {A : R → Type} (F : Failure → Failure → Prop) :
    Plan A α → Plan A α → Prop where
  | done (a : α) : Twins F (.done a) (.done a)
  | refuse {f g : Failure} (h : F f g) : Twins F (.refuse f) (.refuse g)
  | ask (r : R) {next next' : Except Failure (A r) → Plan A α}
      (hok : ∀ a, Twins F (next (.ok a)) (next' (.ok a)))
      (herror : ∀ f g, F f g → Twins F (next (.error f)) (next' (.error g))) :
      Twins F (.ask r next) (.ask r next')

namespace Plan

variable {R : Type} {A : R → Type}

theorem twins_request (r : R) : (request r : Plan A (A r)).Twins F (request r) :=
  .ask r (fun a => .done a) fun _ _ h => .refuse h

theorem Twins.bind {p q : Plan A α} {f g : α → Plan A β} (h : p.Twins F q)
    (hf : ∀ a, (f a).Twins F (g a)) : (p >>= f).Twins F (q >>= g) := by
  show (p.bind f).Twins F (q.bind g)
  induction h with
  | done a => exact hf a
  | refuse h => exact .refuse h
  | ask r hok herror ihok iherror => exact .ask r ihok iherror

theorem twins_eq (p : Plan A α) : p.Twins (fun f g => g = f) p := by
  induction p with
  | done a => exact .done a
  | refuse f => exact .refuse rfl
  | ask r next ih =>
      refine .ask r (fun a => ih _) fun f g h => ?_
      rw [h]
      exact ih _

end Plan

namespace Couples

variable {C : Coupling σ} {x y : Action σ α} {f g : α → Action σ β}

theorem pure (a : α) : Couples C (Pure.pure a) (Pure.pure a) := fun _ _ h => ⟨.ok a, h⟩

theorem lift {r r' : Except Failure α} (hr : Agree C.Alike r r') :
    Couples C (Action.lift r) (Action.lift r') :=
  fun _ _ h => ⟨hr, h⟩

theorem fail {e e' : Failure} (h : C.Alike e e') :
    Couples C (Action.fail e : Action σ α) (Action.fail e') :=
  lift (.error h)

theorem bind (hx : Couples C x y) (hf : ∀ a, Couples C (f a) (g a)) :
    Couples C (x >>= f) (y >>= g) := by
  intro s t hst
  obtain ⟨hagree, htied⟩ := hx hst
  rw [Action.bind_apply, Action.bind_apply]
  generalize x s = out at hagree htied ⊢
  generalize y t = out' at hagree htied ⊢
  obtain ⟨r, s'⟩ := out
  obtain ⟨r', t'⟩ := out'
  cases hagree with
  | ok a => exact hf a htied
  | error h => exact ⟨.error h, htied⟩

/-- What looks at its state may be told apart by it, as long as it is coupled from tied states. -/
theorem get_bind {f g : σ → Action σ α} (hf : ∀ s t, C.Tied s t → Couples C (f s) (g t)) :
    Couples C (Action.get >>= f) (Action.get >>= g) :=
  fun s t hst => hf s t hst hst

/-- A failure that is handed over as a value may be a different one on either side. -/
theorem attempt_bind {f g : Except Failure α → Action σ β} (hx : Couples C x y)
    (hf : ∀ r r', Agree C.Alike r r' → Couples C (f r) (g r')) :
    Couples C (Action.attempt x >>= f) (Action.attempt y >>= g) := by
  intro s t hst
  obtain ⟨hagree, htied⟩ := hx hst
  rw [Action.bind_apply, Action.bind_apply]
  unfold Action.attempt
  generalize x s = out at hagree htied ⊢
  generalize y t = out' at hagree htied ⊢
  obtain ⟨r, s'⟩ := out
  obtain ⟨r', t'⟩ := out'
  cases hagree with
  | ok a => exact hf _ _ (.ok a) htied
  | @error e e' h =>
      simp only [C.fatal h]
      by_cases he : e.fatal
      · simp only [if_pos he]
        exact ⟨.error h, htied⟩
      · simp only [if_neg he]
        exact hf _ _ (.error h) htied

theorem run {R : Type} {A : R → Type} {answer answer' : (r : R) → Action σ (A r)}
    (hanswer : ∀ r, Couples C (answer r) (answer' r)) {p q : Plan A α} (h : p.Twins C.Alike q) :
    Couples C (p.run answer) (q.run answer') := by
  induction h with
  | done a => exact pure a
  | refuse h => exact fail h
  | ask r hok herror ihok iherror =>
      rw [Plan.run_ask, Plan.run_ask]
      refine attempt_bind (hanswer r) fun out out' hout => ?_
      cases hout with
      | ok a => exact ihok a
      | error h => exact iherror _ _ h

end Couples

end Wireform

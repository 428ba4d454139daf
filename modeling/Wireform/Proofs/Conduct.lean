import Wireform.Plan

/-!
What an action is allowed to do, whether it succeeds or fails. A `Conduct`
names the states in which an action may be started, what may have become of
such a state in the end, and the failures that may come of it. `Obeys C act`
says that `act` keeps to the conduct `C`.

Changes that are allowed add up to changes that are allowed, so the judgment
goes along the ways in which actions are put together. A plan obeys if its
answers do and if it breaks off with no other failures than they.
-/

namespace Wireform

structure Conduct (σ : Type) where
  /-- The states in which an action may be started. -/
  Fit : σ → Prop
  Moves : σ → σ → Prop
  Fails : Failure → Prop
  refl : ∀ {s}, Fit s → Moves s s
  trans : ∀ {s t u}, Moves s t → Moves t u → Moves s u
  fit : ∀ {s t}, Fit s → Moves s t → Fit t

/-- Started in a fit state, `act` leads where it may and fails only as it may. -/
def Obeys {σ α : Type} (C : Conduct σ) (act : Action σ α) : Prop :=
  ∀ ⦃s⦄, C.Fit s → C.Moves s (act s).2 ∧ ∀ f, (act s).1 = .error f → C.Fails f

namespace Plan

variable {R : Type} {A : R → Type} {α β : Type} {F : Failure → Prop}

/-- If no other failures than those in `F` are shown to the plan, it ends with no others. -/
def FailsIn (F : Failure → Prop) : Plan A α → Prop
  | .done _ => True
  | .refuse f => F f
  | .ask _ next =>
    (∀ a, (next (.ok a)).FailsIn F) ∧ ∀ f, F f → (next (.error f)).FailsIn F

theorem failsIn_pure (a : α) : (pure a : Plan A α).FailsIn F := trivial

theorem failsIn_refuse {f : Failure} (h : F f) : (refuse f : Plan A α).FailsIn F := h

theorem failsIn_request (r : R) : (request r : Plan A (A r)).FailsIn F :=
  ⟨fun _ => trivial, fun _ h => h⟩

theorem FailsIn.bind {p : Plan A α} {f : α → Plan A β} (hp : p.FailsIn F)
    (hf : ∀ a, (f a).FailsIn F) : (p >>= f).FailsIn F := by
  show (p.bind f).FailsIn F
  induction p with
  | done a => exact hf a
  | refuse g => exact hp
  | ask r next ih =>
      obtain ⟨hok, herror⟩ := hp
      exact ⟨fun a => ih _ (hok a), fun g hg => ih _ (herror g hg)⟩

end Plan

namespace Obeys

variable {σ α β : Type} {C C' : Conduct σ} {x : Action σ α} {f : α → Action σ β}

theorem pure (a : α) : Obeys C (Pure.pure a) :=
  fun _ hs => ⟨C.refl hs, fun _ h => by cases h⟩

theorem lift {r : Except Failure α} (h : ∀ g, r = .error g → C.Fails g) :
    Obeys C (Action.lift r) :=
  fun _ hs => ⟨C.refl hs, h⟩

theorem fail {g : Failure} (h : C.Fails g) : Obeys C (Action.fail g : Action σ α) := by
  refine lift (r := .error g) fun g' hg => ?_
  cases hg
  exact h

theorem get : Obeys C (Action.get : Action σ σ) :=
  fun _ hs => ⟨C.refl hs, fun _ h => by cases h⟩

theorem bind_of {P : α → Prop} (hx : Obeys C x) (hP : ∀ s, C.Fit s → ∀ a, (x s).1 = .ok a → P a)
    (hf : ∀ a, P a → Obeys C (f a)) : Obeys C (x >>= f) := by
  intro s hs
  obtain ⟨ht, hfails⟩ := hx hs
  have hvalue := hP s hs
  rw [Action.bind_apply]
  generalize x s = out at ht hfails hvalue ⊢
  rcases out with ⟨g | a, t⟩
  · refine ⟨ht, fun g' hg => ?_⟩
    cases hg
    exact hfails g rfl
  · obtain ⟨hu, hfails'⟩ := hf a (hvalue a rfl) (C.fit hs ht)
    exact ⟨C.trans ht hu, hfails'⟩

theorem bind (hx : Obeys C x) (hf : ∀ a, Obeys C (f a)) : Obeys C (x >>= f) :=
  hx.bind_of (P := fun _ => True) (fun _ _ _ _ => trivial) fun a _ => hf a

theorem map (hx : Obeys C x) (g : α → β) : Obeys C (g <$> x) :=
  hx.bind (f := fun a => Pure.pure (g a)) fun a => pure (g a)

theorem attempt_bind {f : Except Failure α → Action σ β} (hx : Obeys C x)
    (hf : ∀ r, (∀ g, r = .error g → C.Fails g) → Obeys C (f r)) :
    Obeys C (Action.attempt x >>= f) := by
  intro s hs
  obtain ⟨ht, hfails⟩ := hx hs
  rw [Action.bind_apply]
  unfold Action.attempt
  generalize x s = out at ht hfails ⊢
  obtain ⟨r, t⟩ := out
  have hrest : C.Moves s (f r t).2 ∧ ∀ g, (f r t).1 = .error g → C.Fails g := by
    obtain ⟨hu, hfails'⟩ := hf r hfails (C.fit hs ht)
    exact ⟨C.trans ht hu, hfails'⟩
  cases r with
  | ok a => exact hrest
  | error g =>
      by_cases hg : g.fatal
      · simp only [if_pos hg]
        refine ⟨ht, fun g' hg' => ?_⟩
        cases hg'
        exact hfails g rfl
      · simp only [if_neg hg]
        exact hrest

theorem run {R : Type} {A : R → Type} {answer : (r : R) → Action σ (A r)}
    (hanswer : ∀ r, Obeys C (answer r)) {plan : Plan A α} (hplan : plan.FailsIn C.Fails) :
    Obeys C (plan.run answer) := by
  induction plan with
  | done a => exact pure a
  | refuse g => exact fail hplan
  | ask r next ih =>
      obtain ⟨hok, herror⟩ := hplan
      rw [Plan.run_ask]
      refine (hanswer r).attempt_bind fun out hout => ?_
      cases out with
      | ok a => exact ih _ (hok a)
      | error g => exact ih _ (herror g (hout g rfl))

theorem mono (hx : Obeys C x) (hfit : ∀ s, C'.Fit s → C.Fit s)
    (hmoves : ∀ s t, C'.Fit s → C.Moves s t → C'.Moves s t)
    (hfails : ∀ g, C.Fails g → C'.Fails g) : Obeys C' x := by
  intro s hs
  obtain ⟨ht, hg⟩ := hx (hfit s hs)
  exact ⟨hmoves s _ hs ht, fun g h => hfails g (hg g h)⟩

end Obeys

end Wireform

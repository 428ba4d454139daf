import Wireform.Failure

/-!
Actions on a state that may fail and leave their state behind either way. A failed write may have
filled part of a buffer, and the caller sees that part, so the state stands outside the outcome.
-/

namespace Wireform

/-- A step from a state to an outcome and the state after it, whether it succeeded or not. -/
def Action (σ α : Type) : Type := σ → Except Failure α × σ

namespace Action

variable {σ τ α β : Type}

def pure (a : α) : Action σ α := fun s => (.ok a, s)

/-- A failure ends the action; the state it left stays. -/
def bind (x : Action σ α) (f : α → Action σ β) : Action σ β := fun s =>
  match x s with
  | (.ok a, t) => f a t
  | (.error e, t) => (.error e, t)

instance : Monad (Action σ) where
  pure := Action.pure
  bind := Action.bind

def fail (f : Failure) : Action σ α := fun s => (.error f, s)

def get : Action σ σ := fun s => (.ok s, s)

def modify (f : σ → σ) : Action σ Unit := fun s => (.ok (), f s)

def lift (r : Except Failure α) : Action σ α := fun s => (r, s)

/-- Runs an action and hands its failure over as a value, unless it is fatal. -/
def attempt (x : Action σ α) : Action σ (Except Failure α) := fun s =>
  match x s with
  | (.ok a, t) => (.ok (.ok a), t)
  | (.error e, t) => if e.fatal then (.error e, t) else (.ok (.error e), t)

@[simp] theorem pure_apply (a : α) (s : σ) : (Pure.pure a : Action σ α) s = (.ok a, s) := rfl

@[simp] theorem fail_apply (f : Failure) (s : σ) : (fail f : Action σ α) s = (.error f, s) := rfl

@[simp] theorem lift_apply (r : Except Failure α) (s : σ) : lift r s = (r, s) := rfl

@[simp] theorem get_apply (s : σ) : (get : Action σ σ) s = (.ok s, s) := rfl

@[simp] theorem modify_apply (f : σ → σ) (s : σ) : modify f s = (.ok (), f s) := rfl

theorem bind_apply (x : Action σ α) (f : α → Action σ β) (s : σ) :
    (x >>= f) s = match x s with
      | (.ok a, t) => f a t
      | (.error e, t) => (.error e, t) := rfl

theorem bind_of_ok {x : Action σ α} {f : α → Action σ β} {s t : σ} {a : α}
    (h : x s = (.ok a, t)) : (x >>= f) s = f a t := by
  rw [bind_apply, h]

theorem bind_of_error {x : Action σ α} {f : α → Action σ β} {s t : σ} {e : Failure}
    (h : x s = (.error e, t)) : (x >>= f) s = (.error e, t) := by
  rw [bind_apply, h]

theorem exists_of_isOk {x : Action σ α} {s : σ} (h : (x s).1.isOk = true) :
    ∃ a t, x s = (.ok a, t) := by
  rcases hx : x s with ⟨e | a, t⟩
  · rw [hx] at h
    cases h
  · exact ⟨a, t, rfl⟩

theorem exists_of_bind_ok {x : Action σ α} {f : α → Action σ β} {s u : σ} {b : β}
    (h : (x >>= f) s = (.ok b, u)) : ∃ a t, x s = (.ok a, t) ∧ f a t = (.ok b, u) := by
  rw [bind_apply] at h
  rcases hx : x s with ⟨e | a, t⟩
  · rw [hx] at h
    cases h
  · rw [hx] at h
    exact ⟨a, t, rfl, h⟩

theorem map_of_ok {x : Action σ α} {s t : σ} {a : α} (g : α → β) (h : x s = (.ok a, t)) :
    (g <$> x) s = (.ok (g a), t) :=
  bind_of_ok h

theorem map_of_error {x : Action σ α} {s t : σ} {e : Failure} (g : α → β)
    (h : x s = (.error e, t)) : (g <$> x) s = (.error e, t) :=
  bind_of_error h

@[simp] theorem fail_bind (e : Failure) (f : α → Action σ β) : fail e >>= f = fail e := rfl

theorem map_id (x : Action σ α) : id <$> x = x := by
  funext s
  show (match x s with | (.ok a, t) => _ | (.error e, t) => _) = x s
  rcases x s with ⟨_ | _, _⟩ <;> rfl

theorem bind_bind {γ : Type} (x : Action σ α) (f : α → Action σ β) (g : β → Action σ γ) :
    x >>= f >>= g = x >>= fun a => f a >>= g := by
  funext s
  show Action.bind (Action.bind x f) g s = Action.bind x (fun a => Action.bind (f a) g) s
  unfold Action.bind
  rcases x s with ⟨_ | _, _⟩ <;> rfl

instance : LawfulMonad (Action σ) :=
  LawfulMonad.mk' _ map_id (fun _ _ => rfl) bind_bind

end Action

end Wireform

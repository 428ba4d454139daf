import Wireform.Proofs.Reading.Fields

/-!
What a reader answers to bytes that it does not take.

`Parses` says what a reader accepts and leaves open how it fails. `Rejects S
act D` says the rest: with the code `c` the reader fails on exactly those inputs
that `D` has for `c`. As this is an equivalence, readers with the same `D`
cannot be told apart by their codes, however different the ways are in which
they get to their failures.

The judgment goes along `bind` beside `Parses`: either the first step fails on
the input, or it takes some front of it and the second step fails on what is
left.
-/

namespace Wireform

section Judgment

variable {σ α β : Type}

/-- Failures with the code `c` come of exactly those inputs that `D` has for it. -/
def Rejects (S : Source σ) (act : Action σ α) (D : Code → List UInt8 → Prop) : Prop :=
  ∀ ⦃s⦄, S.Ready s → ∀ c, (∃ f t, act s = (.error f, t) ∧ f.code = c) ↔ D c (S.input s)

variable {S : Source σ} {act x : Action σ α} {f : α → Action σ β} {W : α → List UInt8 → Prop}
  {D D' : Code → List UInt8 → Prop} {E : α → Code → List UInt8 → Prop}

namespace Rejects

theorem congr (h : Rejects S act D) (hD : ∀ c i, D c i ↔ D' c i) : Rejects S act D' :=
  fun _ hs c => (h hs c).trans (hD c _)

theorem of_ok (h : ∀ s, S.Ready s → ∃ a t, act s = (.ok a, t)) :
    Rejects S act fun _ _ => False := by
  refine fun s hs c => iff_of_false ?_ not_false
  rintro ⟨g, t, hg, -⟩
  obtain ⟨a, u, ha⟩ := h s hs
  rw [ha] at hg
  cases hg

theorem pure (S : Source σ) (a : α) : Rejects S (Pure.pure a) fun _ _ => False :=
  of_ok fun s _ => ⟨a, s, rfl⟩

theorem fail (S : Source σ) (g : Failure) :
    Rejects S (Action.fail g : Action σ α) fun c _ => c = g.code := by
  intro s _ c
  constructor
  · rintro ⟨_, _, ⟨⟩, rfl⟩
    rfl
  · rintro rfl
    exact ⟨g, s, rfl, rfl⟩

/-- The second step fails on what the first has left, if the first has not failed. -/
theorem bind (hx : Rejects S x D) (hW : Parses S x W)
    (hf : ∀ a e, W a e → Rejects S (f a) (E a)) :
    Rejects S (x >>= f) fun c i =>
      D c i ∨ ∃ a e rest, i = e ++ rest ∧ W a e ∧ E a c rest := by
  intro s hs c
  constructor
  · rintro ⟨g, u, hg, hc⟩
    obtain ⟨e, rest, t, hin, ht, ⟨a, ha, hw⟩ | ⟨g', hg', -⟩⟩ := hW.reads hs
    · rw [Action.bind_of_ok ha] at hg
      have hrest := (hf a e hw (S.ready_of_moved hs ht) c).mp ⟨g, u, hg, hc⟩
      rw [S.input_of_append ht hin] at hrest
      exact .inr ⟨a, e, rest, hin, hw, hrest⟩
    · rw [Action.bind_of_error hg'] at hg
      cases hg
      exact .inl ((hx hs c).mp ⟨_, _, hg', hc⟩)
  · rintro (hD | ⟨a, e, rest, hin, hw, hE⟩)
    · obtain ⟨g, t, hg, hc⟩ := (hx hs c).mpr hD
      exact ⟨g, t, Action.bind_of_error hg, hc⟩
    · obtain ⟨t, ha, ht⟩ := (hW.spells a e hw).yields hs hin
      rw [← S.input_of_append ht hin] at hE
      obtain ⟨g, u, hg, hc⟩ := (hf a e hw (S.ready_of_moved hs ht) c).mpr hE
      exact ⟨g, u, by rw [Action.bind_of_ok ha, hg], hc⟩

theorem map (hx : Rejects S x D) (hW : Parses S x W) (g : α → β) :
    Rejects S (g <$> x) D :=
  (hx.bind hW (f := fun a => Pure.pure (g a)) fun a _ _ => pure S (g a)).congr fun c i => by simp

theorem ite {p : Prop} [Decidable p] {y : Action σ α} (hx : p → Rejects S x D)
    (hy : ¬ p → Rejects S y D') :
    Rejects S (if p then x else y) fun c i => p ∧ D c i ∨ ¬ p ∧ D' c i := by
  split
  · next hp => exact (hx hp).congr fun c i => by simp [hp]
  · next hp => exact (hy hp).congr fun c i => by simp [hp]

theorem of_eq {y : Action σ α} (hy : Rejects S y D) (h : ∀ s, S.Ready s → x s = y s) :
    Rejects S x D := by
  intro s hs c
  rw [h s hs]
  exact hy hs c

/-- Of a look at the input in front of all else it matters what it depends on. -/
theorem guard {p : σ → Prop} [DecidablePred p] {P : List UInt8 → Prop} {g : σ → Failure}
    {code : Code} (hact : Rejects S act D) (hp : ∀ s, S.Ready s → (p s ↔ P (S.input s)))
    (hg : ∀ s, (g s).code = code) :
    Rejects S (fun s => if p s then (.error (g s), s) else act s) fun c i =>
      P i ∧ c = code ∨ ¬ P i ∧ D c i := by
  intro s hs c
  by_cases h : p s
  · have hP := (hp s hs).mp h
    simp only [if_pos h, hP, true_and, not_true, false_and, or_false]
    constructor
    · rintro ⟨_, _, ⟨⟩, rfl⟩
      exact hg s
    · rintro rfl
      exact ⟨_, _, rfl, hg s⟩
  · have hP : ¬ P (S.input s) := fun hP => h ((hp s hs).mpr hP)
    simp only [if_neg h, hP, false_and, not_false_eq_true, true_and, false_or]
    exact hact hs c

end Rejects

end Judgment

/-! ### Fields of fixed width -/

namespace Buffer

theorem rejects_take (operation : String) (n : Nat) :
    Rejects Source.buffer (take operation n) fun c i => c = .outOfBounds ∧ i.length < n := by
  intro b hb c
  change _ ↔ c = .outOfBounds ∧ b.ahead.length < n
  constructor
  · rintro ⟨f, t, hf, rfl⟩
    by_cases hle : n ≤ b.ahead.length
    · rw [take_of_le operation hb hle] at hf
      cases hf
    · have hlt := Nat.not_le.mp hle
      rw [take_of_lt operation hb hlt] at hf
      cases hf
      exact ⟨rfl, hlt⟩
  · rintro ⟨rfl, hlt⟩
    exact ⟨_, _, take_of_lt operation hb hlt, rfl⟩

theorem rejects_takeNumber (operation : String) (width : Nat) :
    Rejects Source.buffer (takeNumber operation width)
      fun c i => c = .outOfBounds ∧ i.length < width :=
  (rejects_take operation width).map (parses_take operation width) _

theorem rejects_readShort :
    Rejects Source.buffer readShort fun c i => c = .outOfBounds ∧ i.length < 2 :=
  (rejects_takeNumber "read_short" 2).map (parses_takeNumber "read_short" 2) _

theorem rejects_readInt :
    Rejects Source.buffer readInt fun c i => c = .outOfBounds ∧ i.length < 4 :=
  (rejects_takeNumber "read_int" 4).map (parses_takeNumber "read_int" 4) _

end Buffer

end Wireform

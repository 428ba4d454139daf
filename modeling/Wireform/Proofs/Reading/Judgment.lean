import Wireform.Proofs.Buffer.Live

/-!
The judgments in which statements about readers are made.

A reader is an action on some state that has bytes ahead: a buffer, a buffer
with a scratch area beside it, or a whole bench. What these have in common is a
`Source`: which bytes are ahead, when a state is fit to be read from, and what
it means that some bytes of it have been consumed and nothing else has changed.

Two judgments carry the theory. `Reads S act Q` says that `act` only ever
consumes: it ends at the end of some bytes, breaks off with no fatal failure,
and if it succeeds then value and consumed bytes are related by `Q`.
`Spells S act e a` says that the bytes `e` spell the value `a`: whatever stands
behind them they are read as `a` and not a byte more is consumed, while of a
proper front of them nothing can be read. `Yields` is the first half of this
alone.

Both compose along `bind`, with consumed bytes appended, so a statement about a
format is put together from statements about its fields. Where they meet a
reader is known completely: `Parses S act W` says that `act` accepts as `a`
exactly the bytes that the grammar `W` has for `a`, and that it decides by the
bytes it consumes and by no others.
-/

namespace Wireform

/-- A kind of state that has bytes ahead of it. -/
structure Source (σ : Type) where
  /-- The states that a reader may be started in. -/
  Ready : σ → Prop
  input : σ → List UInt8
  /-- The second state is the first after so many bytes have been consumed. -/
  Moved : σ → Nat → σ → Prop
  ready_of_moved : ∀ {s n t}, Ready s → Moved s n t → Ready t
  moved_zero : ∀ {s}, Ready s → Moved s 0 s
  moved_add : ∀ {s m t n u}, Moved s m t → Moved t n u → Moved s (m + n) u
  input_of_moved : ∀ {s n t}, Moved s n t → input t = (input s).drop n

/-- A failure by which a reader may answer to bytes that end too early. -/
def Failure.Short (f : Failure) : Prop := f.code = .outOfBounds ∨ f.code = .malformedText

section Judgments

variable {σ α β : Type}

/-- The bytes `e` in front of any others are read as `a`, and only they are consumed. -/
def Yields (S : Source σ) (act : Action σ α) (e : List UInt8) (a : α) : Prop :=
  ∀ ⦃s rest⦄, S.Ready s → S.input s = e ++ rest →
    ∃ t, act s = (.ok a, t) ∧ S.Moved s e.length t

/-- From the bytes `e` alone nothing can be read. -/
def Starves (S : Source σ) (act : Action σ α) (e : List UInt8) : Prop :=
  ∀ ⦃s⦄, S.Ready s → S.input s = e → ∃ f t, act s = (.error f, t) ∧ f.Short

/-- The bytes `e` are read as `a`, and none of them can be spared. -/
structure Spells (S : Source σ) (act : Action σ α) (e : List UInt8) (a : α) : Prop where
  yields : Yields S act e a
  starves : ∀ ⦃front missing⦄, e = front ++ missing → missing ≠ [] → Starves S act front

/-- Whatever the input, `act` consumes some front of it, fails only in ways that its caller gets
to see, and a value it gives is related by `Q` to what it consumed. -/
def Reads (S : Source σ) (act : Action σ α) (Q : α → List UInt8 → Prop) : Prop :=
  ∀ ⦃s⦄, S.Ready s → ∃ e rest t, S.input s = e ++ rest ∧ S.Moved s e.length t ∧
    ((∃ a, act s = (.ok a, t) ∧ Q a e) ∨ ∃ f, act s = (.error f, t) ∧ f.fatal = false)

/-- What `act` reads is what the grammar `W` allows, value by value. -/
structure Parses (S : Source σ) (act : Action σ α) (W : α → List UInt8 → Prop) : Prop where
  reads : Reads S act W
  spells : ∀ a e, W a e → Spells S act e a

variable {S : Source σ} {act x : Action σ α} {f : α → Action σ β} {a : α} {b : β}
  {e e' : List UInt8} {Q : α → List UInt8 → Prop} {Q' : β → List UInt8 → Prop}

theorem Source.input_of_append {s t : σ} {rest : List UInt8} (h : S.Moved s e.length t)
    (hs : S.input s = e ++ rest) : S.input t = rest := by
  rw [S.input_of_moved h, hs, List.drop_left]

/-! ### Bytes that are read as a value -/

theorem Yields.pure (S : Source σ) (a : α) : Yields S (Pure.pure a) [] a := by
  intro s rest hs _
  exact ⟨s, rfl, S.moved_zero hs⟩

theorem Yields.bind (hx : Yields S x e a) (hf : Yields S (f a) e' b) :
    Yields S (x >>= f) (e ++ e') b := by
  intro s rest hs hin
  rw [List.append_assoc] at hin
  obtain ⟨t, hxs, ht⟩ := hx hs hin
  obtain ⟨u, hfu, hu⟩ := hf (S.ready_of_moved hs ht) (S.input_of_append ht hin)
  refine ⟨u, by rw [Action.bind_of_ok hxs, hfu], ?_⟩
  rw [List.length_append]
  exact S.moved_add ht hu

theorem Yields.map (g : α → β) (hx : Yields S x e a) : Yields S (g <$> x) e (g a) := by
  have h := hx.bind (f := fun a => Pure.pure (g a)) (Yields.pure S (g a))
  rw [List.append_nil] at h
  exact h

theorem Spells.pure (S : Source σ) (a : α) : Spells S (Pure.pure a) [] a where
  yields := Yields.pure S a
  starves := by
    intro front missing h hm
    exact absurd (List.append_eq_nil_iff.mp h.symm).2 hm

/-- Cut short, two fields in a row lack bytes of the first or, with the first complete, of the
second. -/
theorem Spells.bind (hx : Spells S x e a) (hf : Spells S (f a) e' b) :
    Spells S (x >>= f) (e ++ e') b where
  yields := hx.yields.bind hf.yields
  starves := by
    intro front missing h hm s hs hin
    rcases List.append_eq_append_iff.mp h with ⟨c, hfront, he'⟩ | ⟨c, he, hmissing⟩
    -- cut inside the second field
    · obtain ⟨t, hxs, ht⟩ := hx.yields hs (hin.trans hfront)
      obtain ⟨g, u, hfu, hg⟩ := hf.starves he' hm (S.ready_of_moved hs ht)
        (S.input_of_append ht (hin.trans hfront))
      exact ⟨g, u, by rw [Action.bind_of_ok hxs, hfu], hg⟩
    · by_cases hc : c = []
      -- cut between the fields, with nothing left for the second
      · subst hc
        rw [List.append_nil] at he
        have hall : S.input s = e ++ [] := by rw [hin, he, List.append_nil]
        have hnone : e' = [] ++ missing := hmissing.symm
        obtain ⟨t, hxs, ht⟩ := hx.yields hs hall
        obtain ⟨g, u, hfu, hg⟩ := hf.starves hnone hm (S.ready_of_moved hs ht)
          (S.input_of_append ht hall)
        exact ⟨g, u, by rw [Action.bind_of_ok hxs, hfu], hg⟩
      -- cut inside the first field
      · obtain ⟨g, t, hxs, hg⟩ := hx.starves he hc hs hin
        exact ⟨g, t, Action.bind_of_error hxs, hg⟩

/-- What follows a field may look at its value and consume nothing more. -/
theorem Spells.bind_nil (hx : Spells S x e a) (hf : Spells S (f a) [] b) :
    Spells S (x >>= f) e b := by
  have h := hx.bind hf
  rwa [List.append_nil] at h

theorem Spells.map (g : α → β) (hx : Spells S x e a) : Spells S (g <$> x) e (g a) :=
  hx.bind_nil (f := fun a => Pure.pure (g a)) (Spells.pure S (g a))

/-! ### Readers that only consume -/

theorem Reads.mono {Q₁ : α → List UInt8 → Prop} (h : Reads S act Q)
    (hQ : ∀ a e, Q a e → Q₁ a e) : Reads S act Q₁ := by
  intro s hs
  obtain ⟨e, rest, t, hin, ht, ⟨a, ha, hq⟩ | hf⟩ := h hs
  · exact ⟨e, rest, t, hin, ht, .inl ⟨a, ha, hQ a e hq⟩⟩
  · exact ⟨e, rest, t, hin, ht, .inr hf⟩

theorem Reads.pure (h : Q a []) : Reads S (Pure.pure a) Q := by
  intro s hs
  exact ⟨[], S.input s, s, rfl, S.moved_zero hs, .inl ⟨a, rfl, h⟩⟩

theorem Reads.fail {g : Failure} (h : g.fatal = false) : Reads S (Action.fail g) Q := by
  intro s hs
  exact ⟨[], S.input s, s, rfl, S.moved_zero hs, .inr ⟨g, rfl, h⟩⟩

theorem Reads.bind (hx : Reads S x Q)
    (hf : ∀ a e, Q a e → Reads S (f a) fun b e' => Q' b (e ++ e')) : Reads S (x >>= f) Q' := by
  intro s hs
  obtain ⟨e, rest, t, hin, ht, ⟨a, ha, hq⟩ | ⟨g, hg, hfatal⟩⟩ := hx hs
  · have htin := S.input_of_append ht hin
    obtain ⟨e', rest', u, hin', hu, hout⟩ := hf a e hq (S.ready_of_moved hs ht)
    refine ⟨e ++ e', rest', u, by rw [hin, List.append_assoc, ← hin', htin], ?_, ?_⟩
    · rw [List.length_append]
      exact S.moved_add ht hu
    · rw [Action.bind_of_ok ha]
      exact hout
  · exact ⟨e, rest, t, hin, ht, .inr ⟨g, Action.bind_of_error hg, hfatal⟩⟩

theorem Reads.map {g : α → β} (hx : Reads S x Q) (hQ : ∀ a e, Q a e → Q' (g a) e) :
    Reads S (g <$> x) Q' := by
  refine Reads.bind hx fun a e hq => Reads.pure ?_
  rw [List.append_nil]
  exact hQ a e hq

/-! ### Readers that parse a grammar -/

theorem Parses.pure (S : Source σ) (a : α) :
    Parses S (Pure.pure a) fun b e => b = a ∧ e = [] where
  reads := Reads.pure ⟨rfl, rfl⟩
  spells := by
    rintro _ _ ⟨rfl, rfl⟩
    exact Spells.pure S _

theorem Parses.fail {g : Failure} (h : g.fatal = false) :
    Parses S (Action.fail g : Action σ α) fun _ _ => False where
  reads := Reads.fail h
  spells := fun _ _ => False.elim

theorem Parses.congr {W W' : α → List UInt8 → Prop} (hx : Parses S x W)
    (h : ∀ a e, W a e ↔ W' a e) : Parses S x W' where
  reads := hx.reads.mono fun a e => (h a e).mp
  spells a e ha := hx.spells a e ((h a e).mpr ha)

theorem Parses.map {W : α → List UInt8 → Prop} {g : α → β} (hx : Parses S x W) :
    Parses S (g <$> x) fun b e => ∃ a, b = g a ∧ W a e where
  reads := hx.reads.map fun a _ h => ⟨a, rfl, h⟩
  spells := by
    rintro _ e ⟨a, rfl, h⟩
    exact (hx.spells a e h).map g

theorem Parses.bind {W : α → List UInt8 → Prop} {V : α → β → List UInt8 → Prop}
    (hx : Parses S x W) (hf : ∀ a e, W a e → Parses S (f a) (V a)) :
    Parses S (x >>= f) fun b e => ∃ a e₁ e₂, W a e₁ ∧ V a b e₂ ∧ e = e₁ ++ e₂ where
  reads := hx.reads.bind fun a e h =>
    (hf a e h).reads.mono fun b e' h' => ⟨a, e, e', h, h', rfl⟩
  spells := by
    rintro b _ ⟨a, e₁, e₂, h, h', rfl⟩
    exact (hx.spells a e₁ h).bind ((hf a e₁ h).spells b e₂ h')

theorem Parses.option {γ : Type} {o : Option γ} {V : γ → α → List UInt8 → Prop}
    (hsome : ∀ c, o = some c → Parses S act (V c))
    (hnone : o = none → Parses S act fun _ _ => False) :
    Parses S act fun a e => ∃ c, o = some c ∧ V c a e := by
  cases o with
  | none => exact (hnone rfl).congr fun a e => by simp only [reduceCtorEq, false_and, exists_false]
  | some c =>
      exact (hsome c rfl).congr fun a e => by simp only [Option.some.injEq, exists_eq_left']

theorem Parses.unless {c : Prop} [Decidable c] {W : α → List UInt8 → Prop} {g : Failure}
    (hg : g.fatal = false) (h : ¬ c → Parses S act W) :
    Parses S (if c then Action.fail g else act) fun a e => ¬ c ∧ W a e := by
  split
  · next hc => exact (Parses.fail hg).congr fun a e => by simp only [hc, not_true, false_and]
  · next hc => exact (h hc).congr fun a e => by simp only [hc, not_false_eq_true, true_and]

theorem Parses.still (h : ∀ s, S.Ready s → ∃ t, act s = (.ok a, t) ∧ S.Moved s 0 t) :
    Parses S act fun b e => b = a ∧ e = [] where
  reads := by
    intro s hs
    obtain ⟨t, hact, ht⟩ := h s hs
    exact ⟨[], S.input s, t, rfl, ht, .inl ⟨a, hact, rfl, rfl⟩⟩
  spells := by
    rintro _ _ ⟨rfl, rfl⟩
    constructor
    · intro s rest hs _
      exact h s hs
    · intro front missing he hm
      exact absurd (List.append_eq_nil_iff.mp he.symm).2 hm

theorem Parses.bind_still {W : α → List UInt8 → Prop} {g : α → β} (hx : Parses S x W)
    (hf : ∀ a e, W a e → Parses S (f a) fun b e' => b = g a ∧ e' = []) :
    Parses S (x >>= f) fun b e => ∃ a, b = g a ∧ W a e where
  reads := by
    refine hx.reads.bind fun a e h => (hf a e h).reads.mono ?_
    rintro b _ ⟨rfl, rfl⟩
    exact ⟨a, rfl, by rwa [List.append_nil]⟩
  spells := by
    rintro _ e ⟨a, rfl, h⟩
    exact (hx.spells a e h).bind_nil ((hf a e h).spells (g a) [] ⟨rfl, rfl⟩)

/-- Of an action only its runs on states fit to be read from matter. -/
theorem Spells.of_eq {y : Action σ α} (hy : Spells S y e a) (h : ∀ s, S.Ready s → x s = y s) :
    Spells S x e a where
  yields := by
    intro s rest hs hin
    rw [h s hs]
    exact hy.yields hs hin
  starves := by
    intro front missing he hm s hs hin
    rw [h s hs]
    exact hy.starves he hm hs hin

theorem Reads.of_eq {y : Action σ α} (hy : Reads S y Q) (h : ∀ s, S.Ready s → x s = y s) :
    Reads S x Q := by
  intro s hs
  rw [h s hs]
  exact hy hs

theorem Parses.of_eq {W : α → List UInt8 → Prop} {y : Action σ α} (hy : Parses S y W)
    (h : ∀ s, S.Ready s → x s = y s) : Parses S x W where
  reads := hy.reads.of_eq h
  spells a e ha := (hy.spells a e ha).of_eq h

/-! ### A look at how much is there

Before it reads a run of bytes a reader may look whether there are enough of
them. What comes behind the run has a part in that look, but not in its
outcome, since the run itself is long enough. -/

variable {c : σ → Prop} [DecidablePred c] {g : σ → Failure}

theorem Spells.guard (hact : Spells S act e a)
    (hfew : ∀ s, S.Ready s → c s → (S.input s).length < e.length) (hg : ∀ s, (g s).Short) :
    Spells S (fun s => if c s then (.error (g s), s) else act s) e a where
  yields := by
    intro s rest hs hin
    -- the run alone is long enough, whatever stands behind it
    have henough : ¬ c s := fun h => by
      have hlt := hfew s hs h
      rw [hin, List.length_append] at hlt
      omega
    simpa only [if_neg henough] using hact.yields hs hin
  starves := by
    intro front missing h hm s hs hin
    by_cases hc : c s
    · exact ⟨g s, s, if_pos hc, hg s⟩
    · simpa only [if_neg hc] using hact.starves h hm hs hin

theorem Reads.guard (hact : Reads S act Q) (hg : ∀ s, (g s).fatal = false) :
    Reads S (fun s => if c s then (.error (g s), s) else act s) Q := by
  intro s hs
  by_cases hc : c s
  · exact ⟨[], S.input s, s, rfl, S.moved_zero hs, .inr ⟨g s, if_pos hc, hg s⟩⟩
  · simpa only [if_neg hc] using hact hs

theorem Parses.guard {W : α → List UInt8 → Prop} (hact : Parses S act W)
    (hfew : ∀ s a e, S.Ready s → W a e → c s → (S.input s).length < e.length)
    (hg : ∀ s, (g s).Short ∧ (g s).fatal = false) :
    Parses S (fun s => if c s then (.error (g s), s) else act s) W where
  reads := hact.reads.guard fun s => (hg s).2
  spells a e ha := (hact.spells a e ha).guard (fun s hs => hfew s a e hs ha) fun s => (hg s).1

end Judgments

/-! ### Buffers -/

def Source.buffer : Source Buffer where
  Ready := Buffer.Live
  input := Buffer.ahead
  Moved b n b' := n ≤ b.ahead.length ∧ b' = b.advance n
  ready_of_moved := by
    rintro b n _ hb ⟨hn, rfl⟩
    exact hb.advance hn
  moved_zero := fun _ => ⟨Nat.zero_le _, rfl⟩
  moved_add := by
    rintro b m _ n _ ⟨hm, rfl⟩ ⟨hn, rfl⟩
    rw [Buffer.ahead_advance, List.length_drop] at hn
    exact ⟨by omega, Buffer.advance_advance b m n⟩
  input_of_moved := by
    rintro b n _ ⟨-, rfl⟩
    exact Buffer.ahead_advance b n

namespace Buffer

variable {α : Type} {operation : String}

theorem spells_take {e : List UInt8} {n : Nat} (hn : e.length = n) :
    Spells Source.buffer (take operation n) e e where
  yields := by
    intro b rest hb hin
    have hle : n ≤ b.ahead.length := by
      rw [show b.ahead = e ++ rest from hin, List.length_append]
      omega
    refine ⟨b.advance n, ?_, hn ▸ hle, by rw [hn]⟩
    rw [take_of_le operation hb hle, show b.ahead = e ++ rest from hin, List.take_left' hn]
  starves := by
    intro front missing h hm b hb hin
    have hlt : b.ahead.length < n := by
      rw [show b.ahead = front from hin, ← hn, h, List.length_append]
      have hpos := List.length_pos_iff.mpr hm
      omega
    exact ⟨_, _, take_of_lt operation hb hlt, .inl rfl⟩

theorem reads_take (n : Nat) :
    Reads Source.buffer (take operation n) fun a e => a = e ∧ e.length = n := by
  intro b hb
  by_cases hle : n ≤ b.ahead.length
  · have hlen : (b.ahead.take n).length = n := List.length_take_of_le hle
    refine ⟨b.ahead.take n, b.ahead.drop n, b.advance n, (List.take_append_drop n _).symm,
      ⟨?_, by rw [hlen]⟩, .inl ⟨_, take_of_le operation hb hle, rfl, hlen⟩⟩
    rwa [hlen]
  · refine ⟨[], b.ahead, b, rfl, Source.buffer.moved_zero hb,
      .inr ⟨_, take_of_lt operation hb (Nat.not_le.mp hle), rfl⟩⟩

theorem parses_take (operation : String) (n : Nat) :
    Parses Source.buffer (take operation n) fun data e => data = e ∧ e.length = n where
  reads := reads_take n
  spells := by
    rintro data _ ⟨rfl, hn⟩
    exact spells_take hn

theorem parses_takeNumber (operation : String) (width : Nat) :
    Parses Source.buffer (takeNumber operation width)
      fun n e => n < BigEndian.span width ∧ e = BigEndian.encode width n := by
  refine (parses_take operation width).map.congr fun n e => ?_
  constructor
  · rintro ⟨data, rfl, rfl, rfl⟩
    exact ⟨BigEndian.decode_lt data, (BigEndian.encode_decode data).symm⟩
  · rintro ⟨hn, rfl⟩
    refine ⟨_, ?_, rfl, BigEndian.length_encode width n⟩
    rw [BigEndian.decode_encode, Nat.mod_eq_of_lt hn]

/-- A field of `width` bytes is a number below `span width` under some reading `f`, for which `g`
gives the number back. -/
theorem parses_number {f : Nat → α} {g : α → Nat} {width : Nat}
    (hg : ∀ n < BigEndian.span width, g (f n) = n)
    (hf : ∀ v, g v < BigEndian.span width ∧ f (g v) = v) :
    Parses Source.buffer (f <$> takeNumber operation width)
      fun v e => e = BigEndian.encode width (g v) := by
  refine (parses_takeNumber operation width).map.congr fun v e => ?_
  constructor
  · rintro ⟨n, rfl, hn, rfl⟩
    rw [hg n hn]
  · rintro rfl
    exact ⟨g v, (hf v).2.symm, (hf v).1, rfl⟩

end Buffer

end Wireform

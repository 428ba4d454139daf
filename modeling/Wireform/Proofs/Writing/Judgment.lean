import Wireform.Proofs.Buffer.Live

/-!
The judgment in which statements about writers are made, which mirrors that
about readers. A writer is an action on some state to which bytes can be
appended, a `Sink`: there is a measure of the room that is left, and a relation
for what it means that bytes have been appended and nothing else has changed.

`Emits S act e` says that `act` appends the bytes `e` wherever there is room
for them. The bytes are the same for all states, so a writer for which this
holds looks neither at what stands in front of them nor at how much room there
is. `Appends S act e` says in addition that `act` fails where the bytes do not
fit, with no more than a first part of them appended. Then success alone tells
what has been appended.
-/

namespace Wireform

/-- A kind of state to which bytes can be appended. -/
structure Sink (σ : Type) where
  /-- The states that a writer may be started in. -/
  Ready : σ → Prop
  room : σ → Nat
  /-- The second state is the first after bytes have been appended. -/
  Grown : σ → List UInt8 → σ → Prop
  ready_of_grown : ∀ {s e t}, Ready s → Grown s e t → Ready t
  grown_nil : ∀ {s}, Ready s → Grown s [] s
  grown_append : ∀ {s x t y u}, Grown s x t → Grown t y u → Grown s (x ++ y) u
  room_of_grown : ∀ {s e t}, Grown s e t → room t = room s - e.length

section Emits

variable {σ : Type}

/-- Wherever there is room for the bytes `e`, they are what `act` appends. -/
def Emits (S : Sink σ) (act : Action σ Unit) (e : List UInt8) : Prop :=
  ∀ ⦃s⦄, S.Ready s → e.length ≤ S.room s → ∃ t, act s = (.ok (), t) ∧ S.Grown s e t

variable {S : Sink σ} {x : Action σ Unit} {f : Unit → Action σ Unit} {e e' : List UInt8}

theorem Emits.pure (S : Sink σ) : Emits S (Pure.pure ()) [] := by
  intro s hs _
  exact ⟨s, rfl, S.grown_nil hs⟩

theorem Emits.bind (hx : Emits S x e) (hf : Emits S (f ()) e') : Emits S (x >>= f) (e ++ e') := by
  intro s hs hroom
  rw [List.length_append] at hroom
  obtain ⟨t, hxs, ht⟩ := hx hs (by omega)
  obtain ⟨u, hfu, hu⟩ := hf (S.ready_of_grown hs ht) (by rw [S.room_of_grown ht]; omega)
  exact ⟨u, by rw [Action.bind_of_ok hxs, hfu], S.grown_append ht hu⟩

/-- Where there is no room for the bytes `e`, `act` fails for want of it. Of the bytes it has then
appended a first part, which is not all of them. -/
def Overflows (S : Sink σ) (act : Action σ Unit) (e : List UInt8) : Prop :=
  ∀ ⦃s⦄, S.Ready s → S.room s < e.length →
    ∃ f t part rest, act s = (.error f, t) ∧ f.code = .outOfBounds ∧ S.Grown s part t ∧
      part ++ rest = e ∧ rest ≠ []

/-- Whether `act` appends the bytes `e` is decided by the room for them alone. -/
structure Appends (S : Sink σ) (act : Action σ Unit) (e : List UInt8) : Prop where
  emits : Emits S act e
  overflows : Overflows S act e

theorem Appends.pure (S : Sink σ) : Appends S (Pure.pure ()) [] where
  emits := Emits.pure S
  overflows := fun _ _ h => absurd h (Nat.not_lt_zero _)

/-- Of two writes in a row the first fails if there is no room for its own bytes, and the second if
there is none for what comes after them. -/
theorem Appends.bind (hx : Appends S x e) (hf : Appends S (f ()) e') :
    Appends S (x >>= f) (e ++ e') where
  emits := hx.emits.bind hf.emits
  overflows := by
    intro s hs hfull
    rw [List.length_append] at hfull
    by_cases hroom : e.length ≤ S.room s
    · obtain ⟨t, hxs, ht⟩ := hx.emits hs hroom
      have hrest : S.room t < e'.length := by
        rw [S.room_of_grown ht]
        omega
      obtain ⟨g, u, part, rest, hfu, hg, hu, rfl, hne⟩ :=
        hf.overflows (S.ready_of_grown hs ht) hrest
      exact ⟨g, u, e ++ part, rest, by rw [Action.bind_of_ok hxs, hfu], hg, S.grown_append ht hu,
        List.append_assoc .., hne⟩
    · obtain ⟨g, t, part, rest, hxs, hg, ht, rfl, hne⟩ := hx.overflows hs (Nat.not_le.mp hroom)
      exact ⟨g, t, part, rest ++ e', Action.bind_of_error hxs, hg, ht,
        (List.append_assoc ..).symm, List.append_ne_nil_of_left_ne_nil hne e'⟩

/-- After a success the bytes have been appended. -/
theorem Appends.grown {s t : σ} (h : Appends S x e) (hs : S.Ready s) (hx : x s = (.ok (), t)) :
    S.Grown s e t := by
  by_cases hroom : e.length ≤ S.room s
  · obtain ⟨u, hxs, hu⟩ := h.emits hs hroom
    cases hx.symm.trans hxs
    exact hu
  · obtain ⟨g, u, -, -, hxs, -⟩ := h.overflows hs (Nat.not_le.mp hroom)
    cases hx.symm.trans hxs

end Emits

/-! ### Buffers -/

def Sink.buffer : Sink Buffer where
  Ready := Buffer.Live
  room := Buffer.writableBytes
  Grown := Buffer.Appended
  ready_of_grown := fun _ h => h.live
  grown_nil := Buffer.Appended.refl
  grown_append := Buffer.Appended.trans
  room_of_grown := fun h => by
    rw [Buffer.writableBytes, h.limit, h.writer, Buffer.writableBytes, Nat.sub_sub]

namespace Buffer

theorem appends_put (operation : String) (data : List UInt8) :
    Appends Sink.buffer (put operation data) data where
  emits := by
    intro b hb hroom
    have hw := hb.writer_le_capacity
    have hl := hb.capacity_le_limit
    replace hroom : data.length ≤ b.limit - b.writer := hroom
    exact put_of_room operation hb (by omega)
  overflows := by
    intro b hb hfull
    replace hfull : b.limit - b.writer < data.length := hfull
    have hne : data ≠ [] := List.ne_nil_of_length_pos (Nat.lt_of_le_of_lt (Nat.zero_le _) hfull)
    exact ⟨_, b, [], data, put_of_full operation hb (by omega), rfl, .refl hb, rfl, hne⟩

theorem appends_putNumber (operation : String) (width n : Nat) :
    Appends Sink.buffer (putNumber operation width n) (BigEndian.encode width n) :=
  appends_put operation _

end Buffer

end Wireform

import Wireform.Proofs.Compact.Flags
import Wireform.Proofs.Compact.Numbers
import Wireform.Proofs.Endpoint.Conversation
import Wireform.Proofs.RoundTrip.Object
import Wireform.Proofs.Writing.Passing

/-!
The limit of a buffer is met exactly.

A field is a few puts, each of which looks at the limit for itself, so there are
as many places at which an object can run out of room as it has puts. Still it
comes to the same as a single look in front of all of them. For each put appends
its bytes or, if there is no room for them, nothing, and `Appends` goes along
puts in a row: what fits is the whole, and what does not fit is cut off in front
of one of the puts.

What has to be known in advance is what the bytes are. A writer is steady if
whatever it appends where it succeeds it appends everywhere else. All fields are
steady. Scripts that pass failures on are so too, since a script that has been
carried out to its end was then shown no failure. And by the number of levels it
goes from the bodies of objects to objects.
-/

namespace Wireform

section Steady

variable {σ : Type} {S : Sink σ} {x : Action σ Unit} {f : Unit → Action σ Unit} {e : List UInt8}

/-- If `x` succeeds anywhere, there are bytes that it appends wherever there is room for them. -/
def Steady (S : Sink σ) (x : Action σ Unit) : Prop :=
  ∀ ⦃s t⦄, S.Ready s → x s = (.ok (), t) → ∃ e, Appends S x e

theorem Appends.steady (h : Appends S x e) : Steady S x := fun _ _ _ _ => ⟨e, h⟩

theorem Steady.pure (S : Sink σ) : Steady S (Pure.pure ()) := (Appends.pure S).steady

theorem Steady.fail (g : Failure) : Steady S (Action.fail g) := by
  intro s t _ hs
  cases hs

theorem Steady.bind (hx : Steady S x) (hf : Steady S (f ())) : Steady S (x >>= f) := by
  intro s u hs hu
  obtain ⟨⟨⟩, t, hxs, hft⟩ := Action.exists_of_bind_ok hu
  obtain ⟨e, he⟩ := hx hs hxs
  obtain ⟨e', he'⟩ := hf (S.ready_of_grown hs (he.grown hs hxs)) hft
  exact ⟨e ++ e', he.bind he'⟩

/-- A script that passes failures on is one field after the other. -/
theorem Steady.run {answer : Field → Action σ Unit} {Q : Field → Prop} {script : Script}
    (hanswer : ∀ f, Q f → Steady S (answer f)) (hscript : script.PassesOn Q) :
    Steady S (script.run answer) := by
  induction script with
  | done a => exact Steady.pure S
  | refuse g => exact Steady.fail g
  | ask f next ih =>
      obtain ⟨hf, hok, herror⟩ := hscript
      rw [Plan.run_ask_of_passesOn herror]
      exact (hanswer f hf).bind (ih _ (hok ()))

end Steady

namespace Bench

variable {d : Dialect} {levels : Nat}

theorem steady_onBuffer {act : Action Buffer Unit} (h : Steady Sink.buffer act) :
    Steady (Sink.bench d levels) (onBuffer act) := by
  intro s t hs hact
  have hbuffer : act s.buffer = (.ok (), t.buffer) := by
    have hr : (act s.buffer).1 = .ok () := congrArg Prod.fst hact
    have hb : (act s.buffer).2 = t.buffer := congrArg (fun out => out.2.buffer) hact
    rw [← hr, ← hb]
  obtain ⟨e, he⟩ := h hs.live hbuffer
  exact ⟨e, appends_onBuffer he⟩

end Bench

namespace Writer

variable {d : Dialect} {levels : Nat} {V : Value → Prop}

theorem steady_writeChar (c : Char) : Steady Sink.buffer (writeChar c) := by
  by_cases hc : c.toNat < 0x10000
  · exact (appends_writeChar hc).steady
  · rw [writeChar, if_neg hc]
    exact .fail _

theorem steady_writeTypeId (d : Dialect) (v : Value) : Steady Sink.buffer (writeTypeId d v) := by
  unfold writeTypeId
  split
  · exact (Buffer.appends_writeShort _).steady
  · exact .fail _

theorem steady_write_text (s : String) : Steady Sink.buffer (Text.write s) := by
  rcases Nat.lt_or_ge Text.maxLength (Text.bytes s).length with hlong | hfits
  · rw [Text.write_of_long hlong]
    exact .fail _
  · exact (Text.appends_write hfits).steady

section Nested

variable {object : String → Value → Action Bench Unit}
  (hobject : ∀ name v, V v → Steady (Sink.bench d levels) (object name v))

include hobject

theorem steady_writeField (f : Field) (hf : f.Within V) :
    Steady (Sink.bench d levels) (writeField d object f) := by
  cases f with
  | bool v => exact Bench.steady_onBuffer (Buffer.appends_writeBool v).steady
  | flags v => exact Bench.steady_onBuffer (Compact.Flags.appends_write v).steady
  | byte v => exact Bench.steady_onBuffer (Buffer.appends_writeByte v).steady
  | octet v => exact Bench.steady_onBuffer (Buffer.appends_writeOctet v).steady
  | bytes v => exact Bench.steady_onBuffer (Buffer.appends_writeBytes v).steady
  | short v => exact Bench.steady_onBuffer (Buffer.appends_writeShort v).steady
  | char v => exact Bench.steady_onBuffer (steady_writeChar v)
  | int v => exact Bench.steady_onBuffer (Buffer.appends_writeInt v).steady
  | compactInt v => exact Bench.steady_onBuffer (Compact.Int32.appends_write v).steady
  | long v => exact Bench.steady_onBuffer (Buffer.appends_writeLong v).steady
  | compactLong v => exact Bench.steady_onBuffer (Compact.Int64.appends_write v).steady
  | float v => exact Bench.steady_onBuffer (Buffer.appends_writeFloat v).steady
  | double v => exact Bench.steady_onBuffer (Buffer.appends_writeDouble v).steady
  | text v => exact Bench.steady_onBuffer (steady_write_text v)
  | typeId v => exact Bench.steady_onBuffer (steady_writeTypeId d v)
  | object name v => exact hobject name v (hf v rfl)
  | nullable name v =>
      cases v with
      | none => exact Bench.steady_onBuffer (Buffer.appends_writeBool false).steady
      | some v =>
        have hflag : Steady (Sink.bench d levels) (Bench.onBuffer (Buffer.writeBool true)) :=
          Bench.steady_onBuffer (Buffer.appends_writeBool true).steady
        exact hflag.bind (hobject name v (hf v rfl))

theorem steady_writeBody (hV : d.Regular V) (hd : d.Built) (name : String) {v : Value} (hv : V v) :
    Steady (Sink.bench d levels) (writeBody d object name v) := by
  obtain ⟨b, hsends, hb⟩ := hV.sends hd hv
  have hscript := Steady.run (steady_writeField hobject) (Builtin.passesOn_write hV hd hv b hb)
  have hrouted : Steady (Sink.bench d levels) (routed d object b v) := (appends_id b.id).steady.bind hscript
  intro s t hs hbody
  obtain ⟨m, hreaches, hsame⟩ := writeBody_of_sends object name hsends hs.memo
  obtain ⟨e, he⟩ := hrouted (s := ⟨s.buffer, s.work, m⟩) ⟨hs.live, hs.levels, hreaches⟩
    (hsame.symm.trans hbody)
  exact ⟨e, appends_of_routed name hsends he⟩

end Nested

/-- What is written of a value where it can be written is written of it everywhere, if all that is
written with it is of built-in and registered types and passes failures on. -/
theorem steady_writeObject (hV : d.Regular V) (hd : d.Built) (levels : Nat) (name : String)
    (v : Value) (hv : V v) : Steady (Sink.bench d levels) (writeObject d levels name v) := by
  induction levels generalizing name v with
  | zero =>
      intro s t _ hobject
      cases hobject
  | succ levels ih =>
      intro s t hs hobject
      rw [writeObject_of_levels name v hs.levels] at hobject
      obtain ⟨u, hbody, -⟩ := Bench.exists_of_inside_ok hobject
      obtain ⟨e, he⟩ := steady_writeBody ih hV hd name hv (hs.opened (frame name v)) hbody
      exact ⟨e, appends_writeObject_succ he⟩

end Writer

namespace Endpoint

variable {d : Dialect} {s : Settings} {V : Value → Prop} {v : Value} {field : String}

theorem Sound.object_eq {e : Endpoint} (h : e.Sound d s) (b : Buffer) :
    Writer.object e.dialect field v (e.bench b) =
      Writer.writeObject d s.maxDepth field v (e.bench b) := by
  have hlevels : (e.bench b).work.levels = s.maxDepth := (Workspace.lent_acquire h.handler).levels
  rw [Writer.object, hlevels, h.dialect]

/-- A value of built-in and registered types that has been written once has bytes of its own.
Elsewhere it is written just if these fit below the limit, and otherwise a first part of them is all
that has been appended. -/
theorem capacity_exact {p : Dialect.Blueprint} (hd : Dialect.build p = .ok d) (hV : d.Regular V)
    (hv : V v) {e₀ e₁ : Endpoint} {b₀ b₁ : Buffer} (he₀ : e₀.Reached d s) (hb₀ : b₀.Live)
    (hwrite : writeInto field v (e₀, b₀) = (.ok (), e₁, b₁)) :
    ∃ bytes, b₀.Appended bytes b₁ ∧ ∀ e b, e.Reached d s → b.Live →
      ∃ r e' b', writeInto field v (e, b) = (r, e', b') ∧
        (r.isOk ↔ b.writer + bytes.length ≤ b.limit) ∧
        (r.isOk → b.Appended bytes b') ∧
        ∀ f, r = .error f → f.code = .outOfBounds ∧
          ∃ part rest, b.Appended part b' ∧ part ++ rest = bytes ∧ rest ≠ [] := by
  have hsteady := Writer.steady_writeObject hV (.of_build hd) s.maxDepth field v hv
  rcases hobject : Writer.object e₀.dialect field v (e₀.bench b₀) with ⟨r, t⟩
  cases hwrite.symm.trans (perform_eq hobject)
  rw [he₀.sound.object_eq] at hobject
  obtain ⟨bytes, hbytes⟩ := hsteady (he₀.sound.writable hb₀) hobject
  refine ⟨bytes, (hbytes.grown (he₀.sound.writable hb₀) hobject).buffer, fun e b he hb => ?_⟩
  have hready := he.sound.writable hb
  have hlimit := hb.writer_le_limit
  have hroom : (Sink.bench d s.maxDepth).room (e.bench b) = b.limit - b.writer := rfl
  by_cases hfits : b.writer + bytes.length ≤ b.limit
  · obtain ⟨u, hu, hgrown⟩ := hbytes.emits hready (by omega)
    rw [← he.sound.object_eq] at hu
    exact ⟨_, _, _, perform_eq hu, iff_of_true rfl hfits, fun _ => hgrown.buffer,
      fun _ hf => by cases hf⟩
  · obtain ⟨f, u, part, rest, hu, hf, hgrown, hpart, hne⟩ := hbytes.overflows hready (by omega)
    rw [← he.sound.object_eq] at hu
    refine ⟨_, _, _, perform_eq hu, iff_of_false nofun hfits, nofun, fun g hg => ?_⟩
    cases hg
    exact ⟨hf, part, rest, hgrown.buffer, hpart, hne⟩

end Endpoint

/-! The parcel takes 154 bytes. -/

namespace Sample

def goods : List Value :=
  [parcel, .identifier ⟨7⟩, .packet "parcel" [("high", high), ("mark", mark), ("note", note)], high,
    mark, note]

theorem regular_goods {d : Dialect} (hd : Dialect.build blueprint = .ok d) :
    d.Regular (· ∈ goods) := by
  cases hd
  refine ⟨?_, ?_, ?_, ?_⟩
  · simp only [goods, List.forall_mem_cons]
    exact ⟨.inl ⟨.message, rfl⟩, .inl ⟨.identifier, rfl⟩, .inr ⟨_, rfl, rfl⟩, .inr ⟨_, rfl, rfl⟩,
      .inr ⟨_, rfl, rfl⟩, .inr ⟨_, rfl, rfl⟩, nofun⟩
  · intro id body h
    simp only [goods, parcel, high, mark, note, make, List.mem_cons, List.not_mem_nil, reduceCtorEq,
      Value.message.injEq, or_false] at h
    obtain ⟨rfl, rfl⟩ := h
    exact ⟨.tail _ (.head _), .tail _ (.tail _ (.head _))⟩
  · intro name entries h
    simp only [goods, parcel, high, mark, note, make, List.mem_cons, List.not_mem_nil, reduceCtorEq,
      Value.packet.injEq, or_false, false_or] at h
    obtain ⟨rfl, rfl⟩ := h
    simp [goods, high, mark, note, make]
  · simp only [goods, List.forall_mem_cons]
    refine ⟨?_, ?_, ?_, ?_, ?_, ?_, nofun⟩
    · intro hfree
      exact absurd rfl (hfree .message)
    · intro hfree
      exact absurd rfl (hfree .identifier)
    · intro _ hclass
      exact absurd rfl hclass
    · rintro - - entry ⟨⟩
      trivial
    · rintro - - entry ⟨⟩
      exact passesOn_put rfl
    · rintro - - entry ⟨⟩
      exact passesOn_put rfl

end Sample

theorem Endpoint.capacity_exact_parcel : ∃ d e e₁ b₁, Dialect.build Sample.blueprint = .ok d ∧
    d.Regular (· ∈ Sample.goods) ∧ Sample.parcel ∈ Sample.goods ∧ e.Reached d {} ∧
    (Buffer.create 0 200).Live ∧
    writeInto "value" Sample.parcel (e, Buffer.create 0 200) = (.ok (), e₁, b₁) ∧
    ∀ e b, e.Reached d {} → b.Live →
      ∃ r e' b', writeInto "value" Sample.parcel (e, b) = (r, e', b') ∧
        (r.isOk ↔ b.writer + 154 ≤ b.limit) := by
  obtain ⟨d, hd⟩ : ∃ d, Dialect.build Sample.blueprint = .ok d := ⟨_, rfl⟩
  obtain ⟨e, he⟩ : ∃ e, create d {} = .ok e := ⟨_, rfl⟩
  have hregular := Sample.regular_goods hd
  have hmem : Sample.parcel ∈ Sample.goods := List.mem_cons_self
  have hlive : (Buffer.create 0 200).Live := ⟨rfl, Nat.le_refl 0, Nat.zero_le _, by decide⟩
  have hrun : (writeInto "value" Sample.parcel (e, Buffer.create 0 200)).1.isOk = true ∧
      (writeInto "value" Sample.parcel (e, Buffer.create 0 200)).2.2.writer = 154 := by
    cases he
    cases hd
    decide +kernel
  rcases hwrite : writeInto "value" Sample.parcel (e, Buffer.create 0 200) with ⟨f | ⟨⟩, e₁, b₁⟩
  · rw [hwrite] at hrun
    cases hrun.1
  · rw [hwrite] at hrun
    obtain ⟨bytes, happended, hexact⟩ :=
      capacity_exact hd hregular hmem (.create he) hlive hwrite
    have hlength : 154 = 0 + bytes.length := hrun.2.symm.trans happended.writer
    refine ⟨d, e, e₁, b₁, hd, hregular, hmem, .create he, hlive, hwrite, fun e b he hb => ?_⟩
    obtain ⟨r, e', b', hrun', hiff, -⟩ := hexact e b he hb
    exact ⟨r, e', b', hrun', by rw [hiff]; omega⟩

end Wireform

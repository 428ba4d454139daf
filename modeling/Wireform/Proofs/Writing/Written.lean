import Wireform.Proofs.Keeping
import Wireform.Proofs.RoundTrip.Builtin

/-!
What can be told from a write that has succeeded.

Whether a value can be written at all depends on little more than the value: on
its characters and on the lengths of what is in it. A script that has been
carried out to its end has come past each of its fields, and then these can be
written, too. So from the fact that a value has been written once, at whatever
bench and with however many levels, it follows part by part that there is
nothing in it that could not be written.
-/

namespace Wireform

open Wireform.Action

/-- The script has been carried out to its end at some bench. -/
def Succeeds (d : Dialect) (script : Script) : Prop :=
  ∃ levels s t, d.Reaches s.memo ∧
    script.run (Writer.writeField d (Writer.writeObject d levels)) s = (.ok (), t)

/-- The value has been written as an object at some bench. -/
def Written (d : Dialect) (v : Value) : Prop :=
  ∃ levels name s t, d.Reaches s.memo ∧ Writer.writeObject d levels name v s = (.ok (), t)

variable {d : Dialect} {v : Value} {b : Builtin}

/-- When an object has been written, it was first the number of its format and then what the
format's script asks for. -/
theorem Writer.exists_run_of_writeObject (hsends : d.Sends v b) {levels : Nat} {name : String}
    {s t : Bench} (hs : d.Reaches s.memo) (h : writeObject d levels name v s = (.ok (), t)) :
    ∃ levels' s₁ s₂ t', d.Reaches s₁.memo ∧ s₁.buffer = s.buffer ∧
      Bench.onBuffer (Buffer.writeShort b.id.raw) s₁ = (.ok (), s₂) ∧
      (b.write d.types v).run (writeField d (writeObject d levels')) s₂ = (.ok (), t') ∧
      t.buffer = t'.buffer := by
  cases levels with
  | zero => cases h
  | succ levels =>
      obtain ⟨⟨⟩, s₁, henter, hopen⟩ := exists_of_bind_ok h
      obtain ⟨⟨⟩, s₂, hpush, hinside⟩ := exists_of_bind_ok hopen
      obtain ⟨t', hbody, ht⟩ := Bench.exists_of_inside_ok hinside
      have hs₁ : d.Reaches s₁.memo := by
        have hkept := Bench.keeps_enter (J := d.Reaches) hs
        rwa [henter] at hkept
      have hbuffer : s₁.buffer = s.buffer := by
        have hkept := Bench.buffer_enter s
        rwa [henter] at hkept
      cases hpush
      obtain ⟨m, hm, hrouted⟩ := writeBody_of_sends (writeObject d levels) name hsends
        (s := ⟨s₁.buffer, s₁.work.push (frame name v), s₁.memo⟩) hs₁
      obtain ⟨⟨⟩, s₂, hid, hscript⟩ := exists_of_bind_ok (hrouted.symm.trans hbody)
      exact ⟨levels, ⟨s₁.buffer, s₁.work.push (frame name v), m⟩, s₂, t', hm, hbuffer, hid, hscript,
        ht⟩

namespace Succeeds

theorem bind {p : Script} {f : Unit → Script} (h : Succeeds d (p >>= f)) :
    Succeeds d p ∧ Succeeds d (f ()) := by
  obtain ⟨levels, s, u, hs, hrun⟩ := h
  rw [Plan.run_bind] at hrun
  obtain ⟨⟨⟩, t, hp, hf⟩ := exists_of_bind_ok hrun
  have ht := Keeps.run (Writer.keeps_writeField (Writer.keeps_writeObject (d := d) levels)) p hs
  rw [hp] at ht
  exact ⟨⟨levels, s, t, hs, hp⟩, levels, t, u, ht, hf⟩

theorem not_refuse {f : Failure} : ¬ Succeeds d (.refuse f) := by
  rintro ⟨levels, s, t, -, hrun⟩
  cases hrun

theorem of_ite {c : Prop} [Decidable c] {f : Failure} {p : Script}
    (h : Succeeds d (if c then .refuse f else p)) : ¬ c ∧ Succeeds d p := by
  by_cases hc : c
  · rw [if_pos hc] at h
    exact absurd h not_refuse
  · rw [if_neg hc] at h
    exact ⟨hc, h⟩

theorem put {f : Field} (h : Succeeds d (Script.put f)) :
    ∃ levels s t, d.Reaches s.memo ∧
      Writer.writeField d (Writer.writeObject d levels) f s = (.ok (), t) := by
  obtain ⟨levels, s, t, hs, hrun⟩ := h
  rw [Script.put, Plan.run_request] at hrun
  exact ⟨levels, s, t, hs, hrun⟩

theorem object {name : String} (h : Succeeds d (Script.put (.object name v))) : Written d v := by
  obtain ⟨levels, s, t, hs, hobject⟩ := h.put
  exact ⟨levels, name, s, t, hs, hobject⟩

theorem text {s : String} (h : Succeeds d (Script.put (.text s))) :
    (Text.bytes s).length ≤ Text.maxLength := by
  obtain ⟨levels, bench, t, -, htext⟩ := h.put
  refine Nat.not_lt.mp fun hlong => ?_
  simp only [Writer.writeField, Bench.onBuffer, Text.write_of_long hlong] at htext
  cases htext

theorem char {c : Char} (h : Succeeds d (Script.put (.char c))) : c.toNat < 0x10000 := by
  obtain ⟨levels, s, t, -, hchar⟩ := h.put
  refine Nat.lt_of_not_le fun hc => ?_
  simp only [Writer.writeField, Bench.onBuffer, Writer.writeChar, if_neg (Nat.not_lt.mpr hc)]
    at hchar
  cases hchar

theorem entries {entries : Entries} (h : Succeeds d (Packet.writeEntries entries)) :
    ∀ entry ∈ entries,
      (Text.bytes entry.1).length ≤ Text.maxLength ∧ Written d entry.2 := by
  induction entries with
  | nil => exact List.forall_mem_nil _
  | cons entry entries ih =>
      obtain ⟨hkey, hrest⟩ := h.bind
      obtain ⟨hvalue, hrest⟩ := hrest.bind
      exact List.forall_mem_cons.mpr ⟨⟨hkey.text, hvalue.object⟩, ih hrest⟩

end Succeeds

namespace Written

theorem script (h : Written d v) (hsends : d.Sends v b) : Succeeds d (b.write d.types v) := by
  obtain ⟨levels, name, s, t, hs, hobject⟩ := h
  obtain ⟨levels', s₁, s₂, t', hs₁, -, hid, hscript, -⟩ :=
    Writer.exists_run_of_writeObject hsends hs hobject
  have hs₂ := Bench.keeps_onBuffer (J := d.Reaches) (Buffer.writeShort b.id.raw) hs₁
  rw [hid] at hs₂
  exact ⟨levels', s₂, t', hs₂, hscript⟩

theorem message {id : Identifier} {body : Value} (h : Written d (.message id body))
    (hd : d.Built) : Written d body := by
  have hscript := h.script (hd.sends_settled (b := .message) rfl)
  exact hscript.bind.2.object

/-- What the library can say with one field it can say in a way that is read back. -/
theorem plain (h : Written d v) (hd : d.Built) (hb : b.class? = some v.classOf)
    (hleaf : b ≠ .message) : ∃ b', Plain b' v := by
  cases v with
  | byte v => exact ⟨_, .byte v⟩
  | short v => exact ⟨_, .short v⟩
  | char c => exact ⟨_, .char (h.script (hd.sends_settled (b := .char) rfl)).char⟩
  | int v => exact ⟨_, .int v⟩
  | float bits => exact ⟨_, .float bits⟩
  | long v => exact ⟨_, .long v⟩
  | double bits => exact ⟨_, .double bits⟩
  | text s => exact ⟨_, .text (h.script (hd.sends_settled (b := .text) rfl)).text⟩
  | bytes data =>
      have hscript := h.script (hd.sends_settled (b := .bytes) rfl)
      exact ⟨_, .bytes (Nat.not_lt.mp hscript.of_ite.1)⟩
  | bool v => exact ⟨_, .bool v⟩
  | identifier id => exact ⟨_, .identifier id⟩
  | message =>
      have hmessage : b = .message := by
        cases b <;> cases hb
        rfl
      exact absurd hmessage hleaf
  | octet | word | flags | packet | record => cases b <;> cases hb

theorem packet {name : String} {entries : Entries} (h : Written d (.packet name entries))
    (hd : d.Built) :
    (Text.bytes name).length ≤ Text.maxLength ∧ entries.length ≤ Packet.maxEntries ∧
      ∀ entry ∈ entries,
        (Text.bytes entry.1).length ≤ Text.maxLength ∧ Written d entry.2 := by
  have hentry : d.types.ofClass? (Value.packet name entries).classOf = some Packet.entry :=
    hd.types.ofClass?_eq hd.packet
  have hscript := h.script (b := .packet) (hd.sends_kind hentry rfl rfl)
  simp only [Builtin.write, Builtin.writePacket, Builtin.entryOf, hentry, Plan.lift_ok,
    Plan.pure_bind] at hscript
  obtain ⟨hname, hbody⟩ := hscript.bind.2.bind
  obtain ⟨hcount, hbody⟩ := hbody.of_ite
  exact ⟨hname.text, Nat.not_lt.mp hcount, hbody.bind.2.entries⟩

end Written

end Wireform

import Wireform.Proofs.Writing.Object
import Wireform.Proofs.Writing.Rollback
import Wireform.Proofs.Writing.Written

/-!
What a packet looks like on the wire, whatever is in it.

Of an application's own value nothing is known but that it was written, and so
nothing can be said of its bytes but that they were appended. That is enough to
tell the packet's bytes apart. As writers only append, the bytes of a script that
has been carried out to its end are those of its fields, one after the other:
the numbers of the format and of the type, the name, the number of entries, and
then of each entry the key and what was appended for the value.
-/

namespace Wireform

open Wireform.Action

/-- What extends a buffer has put something behind what was there. -/
theorem Buffer.Extends.exists_written {b b' : Buffer} (h : b.Extends b') (hb : b.Live) :
    ∃ e, b'.written = b.written ++ e := by
  have hfirst : b'.written.take b.writer = b.written := by
    rw [Buffer.written, List.take_take, Nat.min_eq_left h.writer, h.take_content hb]
  exact ⟨b'.written.drop b.writer, by rw [← hfirst, List.take_append_drop]⟩

/-- The script has been carried out to its end at some bench, and `e` are the bytes that were
appended. -/
def Leaves (d : Dialect) (script : Script) (e : List UInt8) : Prop :=
  ∃ levels s t, s.buffer.Live ∧ d.Reaches s.memo ∧
    script.run (Writer.writeField d (Writer.writeObject d levels)) s = (.ok (), t) ∧
    t.buffer.written = s.buffer.written ++ e

/-- The value has been written as an object at some bench, and `e` are the bytes that were appended
for it. -/
def Occupies (d : Dialect) (name : String) (v : Value) (e : List UInt8) : Prop :=
  ∃ levels s t, s.buffer.Live ∧ d.Reaches s.memo ∧
    Writer.writeObject d levels name v s = (.ok (), t) ∧
    t.buffer.written = s.buffer.written ++ e

/-- The keys and the values of the entries, as they were written one after the other. -/
inductive Packet.Laid (d : Dialect) : Entries → List UInt8 → Prop where
  | nil : Laid d [] []
  | cons {key : String} {v : Value} {rest : Entries} {e body : List UInt8}
      (hvalue : Occupies d key v e) (hrest : Laid d rest body) :
      Laid d ((key, v) :: rest) (Text.wire key ++ (e ++ body))

variable {d : Dialect} {v : Value} {b : Builtin} {e e' : List UInt8}

theorem Writer.appends_run (levels : Nat) (script : Script) {s : Bench} (hs : s.buffer.Live)
    (hm : d.Reaches s.memo) :
    let t := (script.run (writeField d (writeObject d levels)) s).2
    t.buffer.Live ∧ d.Reaches t.memo ∧ ∃ e, t.buffer.written = s.buffer.written ++ e := by
  have hobject := obeys_writeObject (C := Conduct.appending) (d := d) Buffer.appending_put
    (fun _ hf => hf) levels
  have hrun : Obeys Conduct.appending.atBench (script.run (writeField d (writeObject d levels))) :=
    Obeys.run (obeys_writeField Buffer.appending_put (fun _ hf => hf) hobject)
      (Plan.failsIn_true _)
  have hextends := (hrun (s := s) hs.valid).1.1
  exact ⟨hextends.live hs, Keeps.run (keeps_writeField (keeps_writeObject levels)) script hm,
    hextends.exists_written hs⟩

namespace Leaves

theorem bind {p : Script} {f : Unit → Script} (h : Leaves d (p >>= f) e) :
    ∃ e₁ e₂, e = e₁ ++ e₂ ∧ Leaves d p e₁ ∧ Leaves d (f ()) e₂ := by
  obtain ⟨levels, s, u, hs, hm, hrun, hu⟩ := h
  rw [Plan.run_bind] at hrun
  obtain ⟨⟨⟩, t, hp, hf⟩ := exists_of_bind_ok hrun
  obtain ⟨ht, htm, e₁, hte⟩ := Writer.appends_run levels p hs hm
  obtain ⟨-, -, e₂, hue⟩ := Writer.appends_run levels (f ()) ht htm
  rw [hp] at ht htm hte hue
  rw [hf] at hue
  refine ⟨e₁, e₂, ?_, ⟨levels, s, t, hs, hm, hp, hte⟩, levels, t, u, ht, htm, hf, hue⟩
  rw [hte, hu, List.append_assoc] at hue
  exact List.append_cancel_left hue

theorem of_ite {c : Prop} [Decidable c] {f : Failure} {p : Script}
    (h : Leaves d (if c then .refuse f else p) e) : ¬ c ∧ Leaves d p e := by
  by_cases hc : c
  · rw [if_pos hc] at h
    obtain ⟨levels, s, t, -, -, hrun, -⟩ := h
    cases hrun
  · rw [if_neg hc] at h
    exact ⟨hc, h⟩

theorem put {f : Field} (h : Leaves d (Script.put f) e) :
    ∃ levels s t, s.buffer.Live ∧ d.Reaches s.memo ∧
      Writer.writeField d (Writer.writeObject d levels) f s = (.ok (), t) ∧
      t.buffer.written = s.buffer.written ++ e := by
  obtain ⟨levels, s, t, hs, hm, hrun, ht⟩ := h
  rw [Script.put, Plan.run_request] at hrun
  exact ⟨levels, s, t, hs, hm, hrun, ht⟩

/-- Most fields append the same bytes everywhere. -/
theorem eq_of_appends {f : Field} {act : Action Buffer Unit} (h : Leaves d (Script.put f) e)
    (hact : ∀ object, Writer.writeField d object f = Bench.onBuffer act)
    (happends : Appends Sink.buffer act e') : e = e' := by
  obtain ⟨levels, s, t, hs, hm, hrun, ht⟩ := h.put
  rw [hact] at hrun
  have hbench : Appends (Sink.bench d 0) (Bench.onBuffer act) e' := Bench.appends_onBuffer happends
  have hgrown := hbench.grown ⟨hs, Nat.zero_le _, hm⟩ hrun
  exact List.append_cancel_left (ht.symm.trans hgrown.buffer.written)

theorem text {s : String} (h : Leaves d (Script.put (.text s)) e) : e = Text.wire s := by
  have hfits : (Text.bytes s).length ≤ Text.maxLength := by
    obtain ⟨levels, bench, t, -, hm, hrun, -⟩ := h
    exact Succeeds.text ⟨levels, bench, t, hm, hrun⟩
  exact h.eq_of_appends (fun _ => rfl) (Text.appends_write hfits)

theorem length {n : Nat} (hn : n ≤ Length.greatest)
    (h : Leaves d (Script.put (.int (Int32.ofNat n))) e) : e = BigEndian.encode 4 n := by
  have heq := h.eq_of_appends (fun _ => rfl) (Buffer.appends_writeInt (Int32.ofNat n))
  rwa [Length.toUInt32_ofNat hn] at heq

theorem typeId {entry : TypeEntry} {id : TypeId} (hentry : d.types.ofClass? v.classOf = some entry)
    (hid : entry.id = some id) (h : Leaves d (Script.put (.typeId v)) e) : e = id.word :=
  h.eq_of_appends (fun _ => congrArg Bench.onBuffer (Writer.writeTypeId_of_entry hentry hid))
    (Buffer.appends_writeShort id.raw)

theorem object {name : String} (h : Leaves d (Script.put (.object name v)) e) :
    Occupies d name v e := h.put

theorem entries {entries : Entries} (h : Leaves d (Packet.writeEntries entries) e) :
    Packet.Laid d entries e := by
  induction entries generalizing e with
  | nil =>
      obtain ⟨levels, s, t, -, -, hrun, ht⟩ := h
      cases hrun
      obtain rfl : e = [] := List.append_right_eq_self.mp ht.symm
      exact .nil
  | cons entry entries ih =>
      obtain ⟨e₁, _, rfl, hkey, hrest⟩ := h.bind
      obtain ⟨e₂, e₃, rfl, hvalue, hrest⟩ := hrest.bind
      rw [hkey.text]
      exact .cons hvalue.object (ih hrest)

end Leaves

namespace Occupies

theorem of_object {name : String} {s t : Bench} (hs : s.Writable d 0)
    (h : Writer.object d name v s = (.ok (), t)) :
    ∃ e, Occupies d name v e ∧ t.buffer.written = s.buffer.written ++ e := by
  replace h : Writer.writeObject d s.work.levels name v s = (.ok (), t) := h
  have hextends := (Writer.obeys_writeObject (C := Conduct.appending) (d := d) Buffer.appending_put
    (fun _ hf => hf) s.work.levels name v (s := s) hs.live.valid).1.1
  rw [h] at hextends
  obtain ⟨e, he⟩ := hextends.exists_written hs.live
  exact ⟨e, ⟨s.work.levels, s, t, hs.live, hs.memo, h, he⟩, he⟩

theorem script {name : String} (h : Occupies d name v e) (hsends : d.Sends v b) :
    ∃ body, e = b.id.word ++ body ∧ Leaves d (b.write d.types v) body := by
  obtain ⟨levels, s, t, hs, hm, hobject, ht⟩ := h
  obtain ⟨levels', s₁, s₂, t', hs₁, hbuffer, hid, hscript, hsame⟩ :=
    Writer.exists_run_of_writeObject hsends hm hobject
  rw [← hbuffer] at hs ht
  rw [hsame] at ht
  have hnumber : Appends (Sink.bench d 0) (Bench.onBuffer (Buffer.writeShort b.id.raw)) b.id.word :=
    Writer.appends_id b.id
  have hgrown := hnumber.grown ⟨hs, Nat.zero_le _, hs₁⟩ hid
  have hs₂ : d.Reaches s₂.memo := hgrown.memo hs₁
  obtain ⟨-, -, body, hbody⟩ :=
    Writer.appends_run levels' (b.write d.types v) hgrown.buffer.live hs₂
  rw [hscript] at hbody
  refine ⟨body, ?_, levels', s₂, t', hgrown.buffer.live, hs₂, hscript, hbody⟩
  rw [ht, hgrown.buffer.written, List.append_assoc] at hbody
  exact List.append_cancel_left hbody

theorem packet {field name : String} {entries : Entries} (hd : d.Built)
    (h : Occupies d field (.packet name entries) e) :
    entries.length ≤ Packet.maxEntries ∧ ∃ body, Packet.Laid d entries body ∧
      e = Builtin.packet.id.word ++ (Packet.typeId.word ++ (Text.wire name ++
        (BigEndian.encode 4 entries.length ++ body))) := by
  have hentry : d.types.ofClass? (Value.packet name entries).classOf = some Packet.entry :=
    hd.types.ofClass?_eq hd.packet
  obtain ⟨_, rfl, hscript⟩ := h.script (b := .packet) (hd.sends_kind hentry rfl rfl)
  simp only [Builtin.write, Builtin.writePacket, Builtin.entryOf, hentry, Plan.lift_ok,
    Plan.pure_bind] at hscript
  obtain ⟨e₁, _, rfl, htype, hscript⟩ := hscript.bind
  obtain ⟨e₂, _, rfl, hname, hscript⟩ := hscript.bind
  obtain ⟨hcount, hscript⟩ := hscript.of_ite
  obtain ⟨e₃, body, rfl, hlength, hbody⟩ := hscript.bind
  rw [htype.typeId hentry rfl, hname.text, hlength.length (Nat.not_lt.mp hcount)]
  exact ⟨Nat.not_lt.mp hcount, body, hbody.entries, rfl⟩

end Occupies

end Wireform

import Wireform.Proofs.Reading.Builtin
import Wireform.Proofs.Dialect.Standard

/-!
In a standard dialect the reader of objects parses the grammar of frames. The
induction is on levels, and one step of it is that the reader parses the
contents of all formats if it parses the frames one level down.
-/

namespace Wireform.Reader

open Bench

variable {d : Dialect} {levels : Nat} {object : String → Action Bench Value}
  {R : Value → List UInt8 → Prop}

/-! ### The look ahead -/

/-- A built-in format reads no more than the number of a type to say what comes. -/
theorem reads_describe (b : Builtin) :
    Reads (Source.bench levels) ((b.describe d.types).run (answer d object)) fun _ _ => True := by
  have hentry : Reads (Source.bench levels)
      ((do return some (← d.types.readEntry).name : Reading (Option String)).run (answer d object))
      fun _ _ => True := by
    simp only [Plan.run_bind, Plan.run_pure]
    exact (parses_readEntry d).reads.bind fun _ _ _ => Reads.pure trivial
  cases b with
  | enumeration => exact hentry
  | packet => exact hentry
  | structured => exact hentry
  | _ => exact Reads.pure trivial

theorem reads_describeNext (hd : d.Standard) :
    Reads (Source.bench levels) (describeNext d object) fun _ _ => True := by
  refine (parses_onBuffer Buffer.parses_readShort).reads.bind fun raw _ _ => ?_
  simp only
  split
  · next route hroute =>
    obtain ⟨b, rfl, -⟩ := hd.builtin_of_route? hroute
    exact reads_describe b
  · exact Reads.pure trivial

/-! ### Contents and frames -/

section Nested

variable (hd : d.Standard) (hobject : ∀ name, Parses (Source.bench levels) (object name) R)

include hd hobject

theorem parses_packet :
    Parses (Source.bench levels) ((Builtin.readPacket d.types).run (answer d object))
      (Content d.types R .packet) := by
  simp only [Builtin.readPacket, Plan.run_bind]
  refine ((parses_readEntry d).bind (V := fun entry v e => entry = Packet.entry ∧ Packed R v e)
    fun entry _ hentry => ?_).congr fun v e => ?_
  · obtain ⟨id, hid, -⟩ := hentry
    rcases hd.kinds entry (TypeTable.mem_of_byId? hid) with rfl | hkind | ⟨constants, hkind⟩
    · exact (parses_packed hobject).congr fun v e => by simp only [true_and]
    · have hne : entry ≠ Packet.entry := by
        rintro rfl
        cases hkind
      simp only [hkind]
      exact (Parses.fail rfl).congr fun v e => by simp only [hne, false_and]
    · have hne : entry ≠ Packet.entry := by
        rintro rfl
        cases hkind.kind
      simp only [hkind.kind]
      exact (Parses.fail rfl).congr fun v e => by simp only [hne, false_and]
  · constructor
    · rintro ⟨_, _, _, ⟨id, hid, rfl⟩, ⟨rfl, h⟩, rfl⟩
      cases Option.some.inj (TypeTable.id_of_byId? hid)
      exact .packet h
    · intro h
      cases h with
      | leaf h => cases h
      | packet h => exact ⟨_, _, _, ⟨_, hd.packet, rfl⟩, ⟨rfl, h⟩, rfl⟩

omit hobject in
theorem parses_structured :
    Parses (Source.bench levels) ((Builtin.readStructured d.types).run (answer d object))
      (Content d.types R .structured) := by
  simp only [Builtin.readStructured, Plan.run_bind]
  refine ((parses_readEntry d).bind (V := fun _ _ _ => False) fun entry _ hentry => ?_).congr
    fun v e => ?_
  · obtain ⟨id, hid, -⟩ := hentry
    rcases hd.kinds entry (TypeTable.mem_of_byId? hid) with rfl | hkind | ⟨constants, hkind⟩
    · exact Parses.fail rfl
    · simp only [hkind]
      exact Parses.fail rfl
    · simp only [hkind.kind]
      exact Parses.fail rfl
  · constructor
    · rintro ⟨_, _, _, -, h, -⟩
      exact h.elim
    · intro h
      cases h with
      | leaf h => cases h

theorem parses_content (b : Builtin) :
    Parses (Source.bench levels) ((b.read d.types).run (answer d object))
      (Content d.types R b) := by
  cases b with
  | message => exact parses_message hobject
  | enumeration =>
      exact parses_constant.congr fun v e => ⟨.leaf, fun h => by cases h with | leaf h => exact h⟩
  | packet => exact parses_packet hd hobject
  | structured => exact parses_structured hd
  | _ =>
      exact (parses_leaf rfl (by decide)).congr fun v e =>
        ⟨.leaf, fun h => by cases h with | leaf h => exact h⟩

theorem parses_readBody :
    Parses (Source.bench levels) (readBody d object) fun v e =>
      ∃ b content, e = b.id.word ++ content ∧ Content d.types R b v content := by
  refine ((parses_onBuffer Buffer.parses_readShort).bind fun raw _ _ =>
    Parses.option (o := d.route? ⟨raw⟩) (V := fun _ v e => ∃ b : Builtin, b.id = TypeId.mk raw ∧
      Content d.types R b v e) (fun route hroute => ?_) fun hroute => ?_).congr fun v e => ?_
  · simp only [hroute]
    obtain ⟨b, rfl, hb⟩ := hd.builtin_of_route? hroute
    refine (parses_content hd hobject b).congr fun v e => ⟨fun h => ⟨b, hb, h⟩, ?_⟩
    rintro ⟨c, hc, h⟩
    rwa [Builtin.id_injective (hb.trans hc.symm)]
  · simp only [hroute]
    exact Parses.fail rfl
  · constructor
    · rintro ⟨raw, _, content, rfl, ⟨_, -, b, hb, h⟩, rfl⟩
      refine ⟨b, content, ?_, h⟩
      rw [hb]
      rfl
    · rintro ⟨b, content, rfl, h⟩
      exact ⟨b.id.raw, _, content, rfl, ⟨_, hd.route? b, b, rfl, h⟩, rfl⟩

end Nested

theorem parses_readObject (hd : d.Standard) (levels : Nat) (name : String) :
    Parses (Source.bench levels) (readObject d levels name) (Frame d.types levels) := by
  induction levels generalizing name with
  | zero =>
      refine ⟨fun s hs => ?_, fun _ _ => False.elim⟩
      exact ⟨[], _, s, rfl, (Source.bench 0).moved_zero hs, .inr ⟨_, rfl, rfl⟩⟩
  | succ levels ih =>
      exact parses_readObject_succ name (reads_describeNext hd) (parses_readBody hd ih)

end Wireform.Reader

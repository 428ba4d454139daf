import Wireform.Proofs.Dialect.Dispatch
import Wireform.Proofs.Dialect.Manner
import Wireform.Proofs.Reading.Giving
import Wireform.Proofs.Reading.Perusal
import Wireform.Sample.Types

/-!
A look ahead tells what an object will be. It goes by another way than the reader: of the formats it
asks only for a name, and a format that serves types looks up the type behind the number that comes
next and leaves the rest unread. The reader looks up the same type in the same place and goes on
from there. So if it succeeds, the value is one of that type, and the name has been told.

A look ahead reads only to tell, and afterwards everything is as it was.
-/

namespace Wireform

/-! ### Names -/

/-- The name that a class of the library's own goes by, if there is a format for this class
alone. -/
def Class.primitiveName? : Class → Option String
  | .byte => some "i8"
  | .short => some "i16"
  | .char => some "char"
  | .int => some "i32"
  | .float => some "f32"
  | .long => some "i64"
  | .double => some "f64"
  | .text => some "String"
  | .bytes => some "Vec<u8>"
  | .bool => some "bool"
  | .identifier => some "Identifier"
  | .message => some "Message"
  | .octet | .word | .flags | .packet | .record _ => none

theorem Builtin.primitiveName?_of_class? {b : Builtin} {c : Class} (h : b.class? = some c) :
    c.primitiveName? = some b.valueName := by
  cases b <;> cases h <;> rfl

/-- The name of a value that the format `b` has read: that of its class if the format serves only
this class, and otherwise that of the type of its class, which is of the kind that the format
serves. -/
def Dialect.Names (d : Dialect) (b : Builtin) (v : Value) (name : String) : Prop :=
  match b.class? with
  | some c => v.classOf = c ∧ v.classOf.primitiveName? = some name
  | none => ∃ entry, d.types.ofClass? v.classOf = some entry ∧ entry.kind.builtin? = some b ∧
      entry.name = name

/-! ### What an application owes -/

/-- What is read as a value of the type is one. -/
structure TypeEntry.Typed (entry : TypeEntry) : Prop where
  structured : ∀ {cacheable body}, entry.kind = .structured cacheable body →
    body.read.Ends (·.classOf = entry.valueClass)
  packet : ∀ {construction body}, entry.kind = .packet construction body →
    ∀ name, (body.read name).Ends (·.classOf = entry.valueClass)
  constant : ∀ {constants}, entry.kind = .enumeration constants →
    ∀ name v, constants.ofName name = some v → v.classOf = entry.valueClass

theorem Packet.typed_entry : Packet.entry.Typed where
  structured := nofun
  packet := by
    rintro _ _ ⟨⟩ name
    refine Plan.Ends.bind fun count => ?_
    simp only [Plan.refuse_bind]
    split
    · trivial
    · exact Plan.Ends.bind fun entries => rfl
  constant := nofun

def Manner.calmness : Manner where
  Writes _ := True
  Reads := Plan.Calm
  Refuses _ := True
  refuses _ := trivial
  writes_pure _ := trivial
  writes_refuse _ := trivial
  writes_request _ := trivial
  writes_bind _ _ := trivial
  reads_pure := Plan.failsIn_pure
  reads_refuse h := Plan.failsIn_refuse h.fatal
  reads_request := Plan.failsIn_request
  reads_bind := Plan.FailsIn.bind

namespace Dialect

variable {p : Blueprint} {d : Dialect}

/-- What is read as a value of one of the application's types is one. -/
def Blueprint.Typed (p : Blueprint) : Prop :=
  ∀ entry ∈ p.registry.entries, entry.name ≠ Packet.typeName → entry.Typed

theorem typed_of_build (hd : build p = .ok d) (hp : p.Typed) :
    ∀ entry ∈ d.types.entries, entry.Typed := by
  intro entry hentry
  rcases (follows_of_build hd).mem_registry hentry with rfl | ⟨hmem, hname⟩
  · exact Packet.typed_entry
  · exact hp entry hmem hname

theorem calm_of_build (hd : build p = .ok d) (hp : Manner.calmness.OfBlueprint p) : d.Calm where
  read route hroute := (Manner.of_build hd hp route hroute).read
  describe route hroute := (Manner.of_build hd hp route hroute).describe

end Dialect

/-! ### Formats that serve types -/

namespace Builtin

variable {types : TypeTable} {b : Builtin} {c : Class}

theorem ends_read (h : b.class? = some c) : (b.read types).Ends (·.classOf = c) := by
  cases b with
  | message =>
      cases h
      refine Plan.Ends.bind fun id => ?_
      change Value at id
      cases id with
      | identifier id => exact Plan.Ends.bind fun body => rfl
      | _ => trivial
  | _ => cases h <;> exact Plan.Ends.bind fun v => rfl

/-- A format that serves types reads the number of one and goes on only if it is of its kind. What
it then gives is a value of that type. -/
theorem exists_next (htypes : ∀ entry ∈ types.entries, entry.Typed) (h : b.class? = none) :
    ∃ next : TypeEntry → Reading Value, b.read types = types.readEntry >>= next ∧
      ∀ entry ∈ types.entries,
        (next entry).Ends fun v => entry.kind.builtin? = some b ∧ v.classOf = entry.valueClass := by
  cases b with
  | enumeration =>
      refine ⟨_, rfl, fun entry hentry => ?_⟩
      split
      · next constants hkind =>
        refine Plan.Ends.bind fun name => ?_
        split
        · next v hv => exact ⟨by rw [hkind]; rfl, (htypes entry hentry).constant hkind name v hv⟩
        · trivial
      · trivial
  | packet =>
      refine ⟨_, rfl, fun entry hentry => ?_⟩
      split
      · next body hkind =>
        refine Plan.Ends.bind fun name => ?_
        refine ((htypes entry hentry).packet hkind name).mono fun v hv => ⟨?_, hv⟩
        rw [hkind]
        rfl
      · trivial
  | structured =>
      refine ⟨_, rfl, fun entry hentry => ?_⟩
      split
      · next body hkind =>
        refine ((htypes entry hentry).structured hkind).mono fun v hv => ⟨?_, hv⟩
        rw [hkind]
        rfl
      · trivial
  | _ => cases h

theorem describe_of_class? (h : b.class? = some c) :
    b.describe types = pure (some b.valueName) := by
  cases b <;> cases h <;> rfl

theorem describe_of_none (h : b.class? = none) :
    b.describe types = types.readEntry >>= fun entry => pure (some entry.name) := by
  cases b <;> cases h <;> rfl

end Builtin

/-! ### The look ahead and the reader -/

namespace Reader

variable {d : Dialect} {b : Builtin} {object object' : String → Action Bench Value} {v : Value}
  {s t : Bench} {buffer : Buffer}

theorem exists_run_readEntry (d : Dialect) : ∃ act : Action Buffer TypeEntry,
    ∀ object, d.types.readEntry.run (answer d object) = Bench.onBuffer act := by
  refine ⟨readTypeId d >>= fun id =>
    (d.types.byId? id).elim (Action.fail (Fault.unknownTypeId id.toInt)) pure, fun object => ?_⟩
  funext s
  simp only [TypeTable.readEntry, Plan.run_bind, run_typeId, Action.bind_apply, Bench.onBuffer]
  rcases readTypeId d s.buffer with ⟨f | id, buffer'⟩
  · rfl
  · cases hentry : d.types.byId? id <;> simp only [hentry] <;> rfl

theorem mem_of_run_readEntry {entry : TypeEntry}
    (h : d.types.readEntry.run (answer d object) s = (.ok entry, t)) : entry ∈ d.types.entries := by
  refine Plan.Ends.of_run (Plan.Ends.bind fun id => ?_) h
  split
  · next entry hentry => exact TypeTable.mem_of_byId? hentry
  · trivial

section Next

variable (hd : d.Built) (hnext : Buffer.readShort s.buffer = (.ok b.id.raw, buffer))

include hd hnext

theorem readBody_of_next (object : String → Action Bench Value) : readBody d object s =
    (b.read d.types).run (answer d object) ⟨buffer, s.work, s.memo⟩ := by
  have hraw : Bench.onBuffer Buffer.readShort s = (.ok b.id.raw, ⟨buffer, s.work, s.memo⟩) := by
    simp only [Bench.onBuffer, hnext]
  rw [readBody, Action.bind_of_ok hraw,
    show d.route? ⟨b.id.raw⟩ = some (Dialect.builtinRoute b) from hd.route? b]
  rfl

theorem describeNext_of_next (object : String → Action Bench Value) : describeNext d object s =
    (b.describe d.types).run (answer d object) ⟨buffer, s.work, s.memo⟩ := by
  have hraw : Bench.onBuffer Buffer.readShort s = (.ok b.id.raw, ⟨buffer, s.work, s.memo⟩) := by
    simp only [Bench.onBuffer, hnext]
  rw [describeNext, Action.bind_of_ok hraw,
    show d.route? ⟨b.id.raw⟩ = some (Dialect.builtinRoute b) from hd.route? b]
  rfl

end Next

/-- If a format has read a value from here on, then it tells the name of that value from here on,
whatever the bench is like otherwise. -/
theorem exists_describe (hd : d.Built) (htypes : ∀ entry ∈ d.types.entries, entry.Typed)
    (hread : (b.read d.types).run (answer d object) s = (.ok v, t)) :
    ∃ name, d.Names b v name ∧ ∀ object' work memo, ∃ u,
      (b.describe d.types).run (answer d object') ⟨s.buffer, work, memo⟩ =
        (.ok (some name), u) := by
  cases hclass : b.class? with
  | some c =>
      have hv := (Builtin.ends_read hclass).of_run hread
      refine ⟨b.valueName, ?_, fun object' work memo => ⟨⟨s.buffer, work, memo⟩, ?_⟩⟩
      · rw [Dialect.Names, hclass]
        exact ⟨hv, hv ▸ Builtin.primitiveName?_of_class? hclass⟩
      · rw [Builtin.describe_of_class? hclass]
        rfl
  | none =>
      obtain ⟨next, hnext, hends⟩ := Builtin.exists_next htypes hclass
      rw [hnext, Plan.run_bind] at hread
      obtain ⟨entry, u, hentry, hrest⟩ := Action.exists_of_bind_ok hread
      have hmem := mem_of_run_readEntry hentry
      obtain ⟨hkind, hv⟩ := (hends entry hmem).of_run hrest
      refine ⟨entry.name, ?_, fun object' work memo => ?_⟩
      · rw [Dialect.Names, hclass, hv]
        exact ⟨entry, hd.types.ofClass?_eq hmem, hkind, rfl⟩
      · obtain ⟨act, hact⟩ := exists_run_readEntry d
        rw [hact] at hentry
        have hbuffer : act s.buffer = (.ok entry, u.buffer) := by
          rw [Bench.onBuffer] at hentry
          cases hentry' : act s.buffer with
          | mk r buffer =>
              rw [hentry'] at hentry
              cases hentry
              rfl
        refine ⟨⟨u.buffer, work, memo⟩, ?_⟩
        rw [Builtin.describe_of_none hclass, Plan.run_bind, hact]
        exact Action.bind_of_ok (by simp only [Bench.onBuffer, hbuffer])

/-- Behind an object that has been read is a body that has been read from the same bytes, on a
bench with one object more open. -/
theorem exists_readBody (hcalm : d.Calm) (hs : Conduct.perusal.Fit s) {levels : Nat}
    {field : String} (hread : readObject d levels field s = (.ok v, t)) :
    ∃ object u t', u.buffer = s.buffer ∧ readBody d object u = (.ok v, t') := by
  cases levels with
  | zero => cases hread
  | succ levels =>
      rcases Nat.eq_zero_or_pos s.work.levels with hfull | hroom
      · rw [readObject, Action.bind_of_error (Bench.enter_of_full hfull)] at hread
        cases hread
      · obtain ⟨u, hu, hinside⟩ := readObject_of_comesBack field hroom
          fun _ => comesBack_readObject hcalm (s := s.entered) hs levels
        obtain ⟨t', hbody, -⟩ := Bench.exists_of_inside_ok (hinside.symm.trans hread)
        exact ⟨_, u, t', hu.buffer, hbody⟩

/-- Where a body can be read behind the number of a built-in format, a look ahead tells the name of
what it gives. -/
theorem exists_nextName (hd : d.Built) (hcalm : d.Calm)
    (htypes : ∀ entry ∈ d.types.entries, entry.Typed) (hs : Conduct.perusal.Fit s)
    (hnext : (Buffer.readShort s.buffer).1 = .ok b.id.raw) {u : Bench} (hu : u.buffer = s.buffer)
    (hread : readBody d object u = (.ok v, t)) :
    ∃ name, (nextName d s).1 = .ok (some name) ∧ d.Names b v name := by
  obtain ⟨buffer, hnext⟩ : ∃ buffer, Buffer.readShort s.buffer = (.ok b.id.raw, buffer) :=
    ⟨_, Prod.ext hnext rfl⟩
  rw [readBody_of_next hd (hu ▸ hnext)] at hread
  obtain ⟨name, hname, hdescribe⟩ := exists_describe hd htypes hread
  obtain ⟨scratch, -, hpeek⟩ := peekName_of_perusal
    (peruses_readObject hcalm s.work.levels) hcalm hs
  obtain ⟨u, hu⟩ := hdescribe (readObject d s.work.levels) s.work s.memo
  rw [describeNext_of_next hd hnext, hu] at hpeek
  exact ⟨name, congrArg Prod.fst hpeek, hname⟩

end Reader

/-- A look ahead leaves everything as it was, except for what is in the scratch area. In front of
the number of a built-in format it tells the name of the value that can be read. -/
theorem Reader.nextName_foretells {p : Dialect.Blueprint} {d : Dialect}
    (hd : Dialect.build p = .ok d) (hcalm : Manner.calmness.OfBlueprint p) (htyped : p.Typed)
    {s : Bench} (hs : s.buffer.Valid) (hscratch : 0 < s.work.scratch.length) :
    (∃ name scratch, scratch.length = s.work.scratch.length ∧
      nextName d s = (.ok name, ⟨s.buffer, { s.work with scratch }, s.memo⟩)) ∧
    ∀ b v, (Buffer.readShort s.buffer).1 = .ok b.id.raw →
      (body d s).1 = .ok v ∨ (∃ field, (object d field s).1 = .ok v) →
      ∃ name, (nextName d s).1 = .ok (some name) ∧ d.Names b v name := by
  replace hcalm := Dialect.calm_of_build hd hcalm
  have hbuilt := Dialect.Built.of_build hd
  have htypes := Dialect.typed_of_build hd htyped
  refine ⟨comesBack_readObject hcalm ⟨hs, hscratch⟩ s.work.levels, fun b v hnext hread => ?_⟩
  rcases hread with hbody | ⟨field, hobject⟩
  · exact exists_nextName hbuilt hcalm htypes ⟨hs, hscratch⟩ hnext rfl (Prod.ext hbody rfl)
  · obtain ⟨inner, u, t, hu, hbody⟩ :=
      exists_readBody hcalm ⟨hs, hscratch⟩ (Prod.ext hobject rfl : object d field s = (.ok v, _))
    exact exists_nextName hbuilt hcalm htypes ⟨hs, hscratch⟩ hnext hu hbody

namespace Sample

/-- An application that has points and nothing else. -/
def plane : Dialect.Blueprint where
  registry := registry [(.structured, "Point")]
  roster := ⟨["demo::Point"]⟩

theorem calm_plane : Manner.calmness.OfBlueprint plane where
  types := by
    refine List.forall_mem_singleton.mpr ⟨fun _ => trivial, ?_⟩
    exact (Plan.failsIn_request _).bind fun x => (Plan.failsIn_request _).bind fun y =>
      Plan.failsIn_pure _
  formats := List.forall_mem_nil _

theorem typed_plane : plane.Typed := by
  refine List.forall_mem_singleton.mpr fun _ => ⟨?_, nofun, nofun⟩
  rintro _ _ ⟨⟩
  exact Plan.Ends.bind fun x => Plan.Ends.bind fun y => rfl

end Sample

/-- The bytes of a point and one byte more. Its type is told, by a reader that keeps frames and has
an object open. -/
theorem Reader.nextName_foretells_origin : ∃ d, Dialect.build Sample.plane = .ok d ∧
    let work := { Workspace.fresh [0] true 4 with frames := ["o"], depth := 1 }
    let s : Bench := ⟨Buffer.ofBytes [0xFF, 0x98, 0, 1, 2, 0, 2, 0, 7], work, d.memo⟩
    (body d s).1.isOk = true ∧ (nextName d s).1 = .ok (some "demo::Point") ∧
      (nextName d s).2.buffer = s.buffer ∧ (nextName d s).2.work.frames = ["o"] := by
  obtain ⟨d, hd⟩ : ∃ d, Dialect.build Sample.plane = .ok d := ⟨_, rfl⟩
  refine ⟨d, hd, ?_⟩
  intro work s
  have hok : (body d s).1.isOk = true := by
    cases hd
    decide +kernel
  obtain ⟨v, t, hread⟩ := Action.exists_of_isOk hok
  have hnext : (Buffer.readShort s.buffer).1 = .ok Builtin.structured.id.raw := by
    show (Buffer.readShort (Buffer.ofBytes [0xFF, 0x98, 0, 1, 2, 0, 2, 0, 7])).1 = _
    rfl
  obtain ⟨⟨name, scratch, -, hpeek⟩, htells⟩ := nextName_foretells hd Sample.calm_plane
    Sample.typed_plane (s := s) (Buffer.valid_ofBytes _) Nat.one_pos
  obtain ⟨name', hname', entry, hentry, hkind, rfl⟩ := htells .structured v hnext (.inl (congrArg Prod.fst hread))
  refine ⟨hok, ?_, by rw [hpeek], by rw [hpeek]⟩
  -- besides points there are only packets, and these have another format
  have hpoint : entry.name = "demo::Point" := by
    have hmem := TypeTable.mem_of_ofClass? hentry
    cases hd
    rcases List.mem_cons.mp hmem with rfl | hmem
    · cases hkind
    · rw [List.mem_singleton.mp hmem]
      rfl
  rw [← hpoint]
  exact hname'

end Wireform

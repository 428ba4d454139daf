import Wireform.Proofs.Dialect.Dispatch

/-!
Scripts that pass failures on.

A plan sees the failures of what it asks for and may go on in spite of them.
Most plans do not: a failure that they are shown is what they end with. Such a
plan is carried out as if there were no failures to be seen, one request after
the other (`Plan.run_ask_of_passesOn`).

The library's own formats pass failures on, and ask for no other objects than
those that the value in hand is made of. The formats of registered types hand
over to bodies that an application brings, so there it is up to the application.
A class of values in which both is the case for all that is written is regular.
-/

namespace Wireform

namespace Plan

variable {R : Type} {A : R → Type} {α β σ : Type} {Q : R → Prop}

/-- The plan asks for nothing but what `Q` allows, and whatever fails is what it ends with. -/
def PassesOn (Q : R → Prop) : Plan A α → Prop
  | .done _ => True
  | .refuse _ => True
  | .ask r next => Q r ∧ (∀ a, (next (.ok a)).PassesOn Q) ∧ ∀ f, next (.error f) = .refuse f

theorem passesOn_pure (a : α) : (pure a : Plan A α).PassesOn Q := trivial

theorem passesOn_refuse (f : Failure) : (refuse f : Plan A α).PassesOn Q := trivial

theorem passesOn_request {r : R} (h : Q r) : (request r : Plan A (A r)).PassesOn Q :=
  ⟨h, fun _ => trivial, fun _ => rfl⟩

theorem PassesOn.bind {p : Plan A α} {f : α → Plan A β} (hp : p.PassesOn Q)
    (hf : ∀ a, (f a).PassesOn Q) : (p >>= f).PassesOn Q := by
  show (p.bind f).PassesOn Q
  induction p with
  | done a => exact hf a
  | refuse g => exact trivial
  | ask r next ih =>
      obtain ⟨hr, hok, herror⟩ := hp
      exact ⟨hr, fun a => ih _ (hok a), fun g => congrArg (·.bind f) (herror g)⟩

theorem passesOn_lift_bind {r : Except Failure α} {f : α → Plan A β}
    (hf : ∀ a, r = .ok a → (f a).PassesOn Q) : (lift r >>= f).PassesOn Q := by
  cases r with
  | ok a => exact hf a rfl
  | error g => exact trivial

theorem run_ask_of_passesOn {answer : (r : R) → Action σ (A r)} {r : R}
    {next : Except Failure (A r) → Plan A α} (h : ∀ f, next (.error f) = .refuse f) :
    (ask r next).run answer = answer r >>= fun a => (next (.ok a)).run answer := by
  funext s
  simp only [run, Action.bind_apply, h]
  rcases answer r s with ⟨f | a, t⟩
  · exact ite_self _
  · rfl

end Plan

open Plan

/-- The object that a field hands over, if it is one that holds an object. -/
def Field.value? : Field → Option Value
  | .object _ v => some v
  | .nullable _ v => v
  | _ => none

/-- No objects but those in `V` are handed over. -/
def Field.Within (V : Value → Prop) (f : Field) : Prop := ∀ v, f.value? = some v → V v

def Kind.PassesOn (V : Value → Prop) (v : Value) : Kind → Prop
  | .structured _ body => (body.write v).PassesOn (Field.Within V)
  | .packet _ body => (body.write v).PassesOn (Field.Within V)
  | _ => True

/-- All values in `V` are of built-in and registered types, they are made of values in `V`, and the
bodies that an application brings for them pass failures on. -/
structure Dialect.Regular (d : Dialect) (V : Value → Prop) : Prop where
  known : ∀ v, V v → (∃ b : Builtin, b.class? = some v.classOf) ∨
    ∃ entry, d.types.ofClass? v.classOf = some entry ∧ entry.kind.builtin?.isSome
  message : ∀ id body, V (.message id body) → V (.identifier id) ∧ V body
  packet : ∀ name entries, V (.packet name entries) → ∀ entry ∈ entries, V entry.2
  bodies : ∀ v, V v → (∀ b : Builtin, b.class? ≠ some v.classOf) → v.classOf ≠ .packet →
    ∀ entry, d.types.ofClass? v.classOf = some entry → entry.kind.PassesOn V v

variable {d : Dialect} {V : Value → Prop} {v : Value}

namespace Dialect

theorem settled_or_free (v : Value) :
    (∃ b : Builtin, b.class? = some v.classOf) ∨ builtinSettled.lookup v.classOf = none := by
  cases v with
  | octet | word | flags | packet | record => exact .inr rfl
  | byte => exact .inl ⟨.byte, rfl⟩
  | short => exact .inl ⟨.short, rfl⟩
  | char => exact .inl ⟨.char, rfl⟩
  | int => exact .inl ⟨.int, rfl⟩
  | float => exact .inl ⟨.float, rfl⟩
  | long => exact .inl ⟨.long, rfl⟩
  | double => exact .inl ⟨.double, rfl⟩
  | text => exact .inl ⟨.text, rfl⟩
  | bytes => exact .inl ⟨.bytes, rfl⟩
  | bool => exact .inl ⟨.bool, rfl⟩
  | identifier => exact .inl ⟨.identifier, rfl⟩
  | message => exact .inl ⟨.message, rfl⟩

/-- Values of built-in and registered types are always sent to one built-in format. It is one for a
kind of types only if none is there for the class of the value. -/
theorem Regular.sends (hV : d.Regular V) (hd : d.Built) (hv : V v) :
    ∃ b, d.Sends v b ∧ (b.class? = none → ∀ other : Builtin, other.class? ≠ some v.classOf) := by
  by_cases hclass : ∃ b : Builtin, b.class? = some v.classOf
  · obtain ⟨b, hb⟩ := hclass
    exact ⟨b, hd.sends_settled hb, fun hnone => by cases hnone.symm.trans hb⟩
  · obtain ⟨entry, hentry, hkind⟩ := (hV.known v hv).resolve_left hclass
    obtain ⟨b, hb⟩ := Option.isSome_iff_exists.mp hkind
    have hfree := (settled_or_free v).resolve_left hclass
    exact ⟨b, hd.sends_kind hentry hb hfree, fun _ other hother => hclass ⟨other, hother⟩⟩

end Dialect

/-! ### The built-in formats -/

theorem within_of_none {f : Field} (h : f.value? = none) : f.Within V := by
  intro v hv
  rw [h] at hv
  cases hv

theorem within_object {name : String} (h : V v) : (Field.object name v).Within V := by
  rintro w ⟨⟩
  exact h

theorem passesOn_put {f : Field} (h : f.value? = none) : (Script.put f).PassesOn (Field.Within V) :=
  passesOn_request (within_of_none h)

namespace Packet

theorem passesOn_writeEntries {entries : Entries} (h : ∀ entry ∈ entries, V entry.2) :
    (writeEntries entries).PassesOn (Field.Within V) := by
  induction entries with
  | nil => exact passesOn_pure _
  | cons entry rest ih =>
      obtain ⟨hentry, hrest⟩ := List.forall_mem_cons.mp h
      exact (passesOn_put rfl).bind fun _ =>
        (passesOn_request (within_object hentry)).bind fun _ => ih hrest

theorem passesOn_write {name : String} {entries : Entries} (h : ∀ entry ∈ entries, V entry.2) :
    (write (.packet name entries)).PassesOn (Field.Within V) := by
  unfold write
  simp only
  split
  · exact passesOn_refuse _
  · exact (passesOn_put rfl).bind fun _ => passesOn_writeEntries h

end Packet

/-- What the library's own packets hold is their entries; for all other types it is promised. -/
theorem Dialect.Regular.kind (hV : d.Regular V) (hd : d.Built) (hv : V v)
    (hfree : ∀ b : Builtin, b.class? ≠ some v.classOf) {entry : TypeEntry}
    (hentry : d.types.ofClass? v.classOf = some entry) : entry.kind.PassesOn V v := by
  by_cases hclass : v.classOf = .packet
  · have hpacket : d.types.ofClass? .packet = some Packet.entry := hd.types.ofClass?_eq hd.packet
    rw [hclass, hpacket] at hentry
    cases hentry
    cases v with
    | packet name entries => exact Packet.passesOn_write (hV.packet name entries hv)
    | _ => cases hclass
  · exact hV.bodies v hv hfree hclass entry hentry

namespace Builtin

theorem passesOn_writeBlock (data : List UInt8) :
    (writeBlock data).PassesOn (Field.Within V) := by
  unfold writeBlock
  split
  · exact passesOn_refuse _
  · exact (passesOn_put rfl).bind fun _ => passesOn_put rfl

section Types

variable (hV : d.Regular V) (hd : d.Built) (hv : V v)

section Kinds

variable (hfree : ∀ b : Builtin, b.class? ≠ some v.classOf)

include hV hd hv hfree

theorem passesOn_entryOf {next : TypeEntry → Script}
    (hnext : ∀ entry, entry.kind.PassesOn V v → (next entry).PassesOn (Field.Within V)) :
    (Plan.lift (entryOf d.types v) >>= next).PassesOn (Field.Within V) := by
  unfold entryOf
  split
  · next entry hentry => exact hnext entry (hV.kind hd hv hfree hentry)
  · exact passesOn_refuse _

theorem passesOn_writeConstant : (writeConstant d.types v).PassesOn (Field.Within V) := by
  refine passesOn_entryOf hV hd hv hfree fun entry hentry => ?_
  split
  · exact (passesOn_put rfl).bind fun _ => passesOn_lift_bind fun name _ => passesOn_put rfl
  · exact passesOn_refuse _

theorem passesOn_writePacket : (writePacket d.types v).PassesOn (Field.Within V) := by
  refine passesOn_entryOf hV hd hv hfree fun entry hentry => ?_
  split
  · next body hkind =>
    rw [hkind] at hentry
    exact (passesOn_put rfl).bind fun _ => passesOn_lift_bind fun name _ =>
      (passesOn_put rfl).bind fun _ => hentry
  · exact passesOn_refuse _

theorem passesOn_writeStructured : (writeStructured d.types v).PassesOn (Field.Within V) := by
  refine passesOn_entryOf hV hd hv hfree fun entry hentry => ?_
  split
  · next body hkind =>
    rw [hkind] at hentry
    exact (passesOn_put rfl).bind fun _ => hentry
  · exact passesOn_refuse _

end Kinds

include hV hd hv

theorem passesOn_write (b : Builtin)
    (hb : b.class? = none → ∀ other : Builtin, other.class? ≠ some v.classOf) :
    (b.write d.types v).PassesOn (Field.Within V) := by
  cases b with
  | enumeration => exact passesOn_writeConstant hV hd hv (hb rfl)
  | packet => exact passesOn_writePacket hV hd hv (hb rfl)
  | structured => exact passesOn_writeStructured hV hd hv (hb rfl)
  | bytes =>
      cases v with
      | bytes data => exact passesOn_writeBlock data
      | _ => exact passesOn_refuse _
  | message =>
      cases v with
      | message id body =>
        obtain ⟨hid, hbody⟩ := hV.message id body hv
        exact (passesOn_request (within_object hid)).bind fun _ =>
          passesOn_request (within_object hbody)
      | _ => exact passesOn_refuse _
  | _ => cases v <;> first | exact passesOn_put rfl | exact passesOn_refuse _

end Types

end Builtin

end Wireform

import Wireform.Proofs.RoundTrip.Packet

/-!
The values that can be sent in a dialect, and that they arrive. A value is
portable, with so many levels, if it is built up from fields by messages, by
packets and by the application's own types.

Of its own types the application has to promise something. A constant has to be
found again by its name. A type with a body has to have a body that mirrors,
and as the body may hold other objects, it may take for granted that those that
it holds arrive. No more is asked of a body than that, and it can do no more
than ask for fields, since it is a plan.

In every dialect that has been built all portable values travel, by an
induction that follows the ways in which they are built up. What is appended
for a value depends on the value alone, on no buffer, no memo and no depth.
-/

namespace Wireform

/-- The values that can be sent with at most so many objects inside each other. -/
inductive Portable (d : Dialect) : (levels : Nat) → Value → Prop where
  | field {levels : Nat} {b : Builtin} {v : Value} (h : Plain b v) : Portable d (levels + 1) v
  | message {levels : Nat} {id : Identifier} {body : Value} (hbody : Portable d levels body) :
      Portable d (levels + 1) (.message id body)
  | packet {levels : Nat} {name : String} {entries : Entries}
      (hname : (Text.bytes name).length ≤ Text.maxLength)
      (hcount : entries.length ≤ Packet.maxEntries) (hsorted : entries.Sorted)
      (hkeys : ∀ entry ∈ entries, (Text.bytes entry.1).length ≤ Text.maxLength)
      (hvalues : ∀ entry ∈ entries, Portable d levels entry.2) :
      Portable d (levels + 1) (.packet name entries)
  /-- A constant that is found by its name. -/
  | constant {levels : Nat} {type : String} {fields : List (String × Value)} {entry : TypeEntry}
      {constants : Constants} {name : String}
      (hentry : d.types.ofClass? (.record type) = some entry)
      (hkind : entry.kind = .enumeration constants)
      (hname : constants.name (.record type fields) = .ok name)
      (hfits : (Text.bytes name).length ≤ Text.maxLength)
      (hv : constants.ofName name = some (.record type fields)) :
      Portable d (levels + 1) (.record type fields)
  /-- A value whose body mirrors, given that the objects in it travel. -/
  | structured {levels : Nat} {type : String} {fields : List (String × Value)} {entry : TypeEntry}
      {cacheable : Bool} {body : Body} {inner : List Value}
      (hentry : d.types.ofClass? (.record type) = some entry)
      (hkind : entry.kind = .structured cacheable body)
      (hinner : ∀ w ∈ inner, Portable d levels w)
      (hbody : (∀ w ∈ inner, Travels d levels w) →
        ∃ e, Mirrors d levels (body.write (.record type fields)) body.read (.record type fields) e) :
      Portable d (levels + 1) (.record type fields)
  /-- A packet of the application's own, which is read by the name that it is written with. -/
  | named {levels : Nat} {type : String} {fields : List (String × Value)} {entry : TypeEntry}
      {construction : Construction} {body : PacketBody} {name : String} {inner : List Value}
      (hentry : d.types.ofClass? (.record type) = some entry)
      (hkind : entry.kind = .packet construction body)
      (hname : body.name (.record type fields) = .ok name)
      (hfits : (Text.bytes name).length ≤ Text.maxLength)
      (hinner : ∀ w ∈ inner, Portable d levels w)
      (hbody : (∀ w ∈ inner, Travels d levels w) →
        ∃ e, Mirrors d levels (body.write (.record type fields)) (body.read name)
          (.record type fields) e) :
      Portable d (levels + 1) (.record type fields)

variable {d : Dialect} {levels : Nat} {v : Value}

theorem Plain.travels (hd : d.Built) {b : Builtin} (h : Plain b v) :
    Travels d (levels + 1) v := by
  obtain ⟨e, hmirrors⟩ := h.mirrors
  exact ⟨_, hmirrors.carries hd (hd.sends_settled h.class_eq)⟩

theorem travels_of_kind (hd : d.Built) {b : Builtin} {entry : TypeEntry}
    (hentry : d.types.ofClass? v.classOf = some entry) (hkind : entry.kind.builtin? = some b)
    (hfree : Dialect.builtinSettled.lookup v.classOf = none)
    (h : ∃ e, Mirrors d levels (b.write d.types v) (b.read d.types) v e) :
    Travels d (levels + 1) v := by
  obtain ⟨e, hmirrors⟩ := h
  exact ⟨_, hmirrors.carries hd (hd.sends_kind hentry hkind hfree)⟩

theorem Portable.levels_pos (h : Portable d levels v) : 0 < levels := by
  cases h <;> exact Nat.succ_pos _

theorem Portable.travels (hd : d.Built) (h : Portable d levels v) : Travels d levels v := by
  induction h with
  | field h => exact h.travels hd
  | @message levels id body hbody ih =>
      -- the identifier needs a level of its own, which the body has left for it
      have hid : Travels d levels (.identifier id) := by
        obtain ⟨n, rfl⟩ := Nat.exists_eq_add_of_lt hbody.levels_pos
        exact (Plain.identifier id).travels hd
      obtain ⟨e, hmirrors⟩ := exists_mirrors_message hid ih
      exact ⟨_, hmirrors.carries hd (hd.sends_settled rfl)⟩
  | @packet levels name entries hname hcount hsorted hkeys hvalues ih =>
      have hentry : d.types.ofClass? (Value.packet name entries).classOf = some Packet.entry :=
        hd.types.ofClass?_eq hd.packet
      obtain ⟨_, hbody⟩ := exists_mirrors_packetBody hcount hkeys ih
      rw [Entries.ofList_of_sorted hsorted] at hbody
      exact travels_of_kind hd hentry rfl rfl
        (exists_mirrors_packet hd hentry rfl rfl hname hbody)
  | @constant levels type fields entry constants name hentry hkind hname hfits hv =>
      replace hentry : d.types.ofClass? (Value.record type fields).classOf = some entry := hentry
      exact travels_of_kind hd hentry (by rw [hkind]; rfl) rfl
        (exists_mirrors_constant hd hentry hkind hname hfits hv)
  | @structured levels type fields entry cacheable body inner hentry hkind hinner hbody ih =>
      replace hentry : d.types.ofClass? (Value.record type fields).classOf = some entry := hentry
      obtain ⟨_, hbody⟩ := hbody ih
      exact travels_of_kind hd hentry (by rw [hkind]; rfl) rfl
        (exists_mirrors_structured hd hentry hkind hbody)
  | @named levels type fields entry construction body name inner hentry hkind hname hfits hinner
      hbody ih =>
      replace hentry : d.types.ofClass? (Value.record type fields).classOf = some entry := hentry
      obtain ⟨_, hbody⟩ := hbody ih
      exact travels_of_kind hd hentry (by rw [hkind]; rfl) rfl
        (exists_mirrors_packet hd hentry hkind hname hfits hbody)

end Wireform

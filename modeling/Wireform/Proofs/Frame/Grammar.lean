import Wireform.Dialect
import Wireform.Proofs.Text.Form

/-!
The frames of objects on the wire, as a grammar. A frame is the number of a
format and, behind it, a content that has its meaning from that format. The
contents of most formats hold no other objects. Of the other two, that of a
message is two frames in a row, and that of a packet has a key and a frame for
each part.

A frame inside a frame is one level down, so the grammar goes by recursion on
levels, and a content is described for any grammar `R` of the frames that it
holds. That is also how the reader works, which knows an inner object only by
the action that reads it.

Of a packet the grammar allows more forms than a writer makes: its parts may
come in any order, and one key may come several times.
-/

namespace Wireform

def TypeId.word (id : TypeId) : List UInt8 := BigEndian.encode 2 id.raw.toUInt16.toNat

inductive Leaf (types : TypeTable) : Builtin → Value → List UInt8 → Prop where
  | byte (v : Int8) : Leaf types .byte (.byte v) (BigEndian.encode 1 v.toUInt8.toNat)
  | short (v : Int16) : Leaf types .short (.short v) (BigEndian.encode 2 v.toUInt16.toNat)
  | char {c : Char} (hc : c.toNat < 0x10000) :
      Leaf types .char (.char c) (BigEndian.encode 2 c.toNat)
  | int (v : Int32) : Leaf types .int (.int v) (BigEndian.encode 4 v.toUInt32.toNat)
  | float (bits : UInt32) : Leaf types .float (.float bits) (BigEndian.encode 4 bits.toNat)
  | long (v : Int64) : Leaf types .long (.long v) (BigEndian.encode 8 v.toUInt64.toNat)
  | double (bits : UInt64) : Leaf types .double (.double bits) (BigEndian.encode 8 bits.toNat)
  | text {s : String} {e : List UInt8} (hs : Text.Form s e) : Leaf types .text (.text s) e
  | bytes {data : List UInt8} (hlen : data.length ≤ Builtin.maxBlock) :
      Leaf types .bytes (.bytes data) (BigEndian.encode 4 data.length ++ data)
  | bool (v : Bool) : Leaf types .bool (.bool v) (BigEndian.encode 1 v.toNat)
  | identifier (id : Identifier) : Leaf types .identifier (.identifier id) id.toBytes
  | constant {id : TypeId} {entry : TypeEntry} {constants : Constants} {name : String}
      {v : Value} {e : List UInt8} (hentry : types.byId? id = some entry)
      (hkind : entry.kind = .enumeration constants) (hv : constants.ofName name = some v)
      (hname : Text.Form name e) : Leaf types .enumeration v (id.word ++ e)

/-- The parts of a packet in a row, each with its key in front. -/
inductive Parts (R : Value → List UInt8 → Prop) : List (String × Value) → List UInt8 → Prop where
  | nil : Parts R [] []
  | cons {key : String} {v : Value} {parts : List (String × Value)} {e₁ e₂ e₃ : List UInt8}
      (hkey : Text.Form key e₁) (hv : R v e₂) (hparts : Parts R parts e₃) :
      Parts R ((key, v) :: parts) (e₁ ++ (e₂ ++ e₃))

/-- What stands behind the number of the packet type. -/
inductive Packed (R : Value → List UInt8 → Prop) : Value → List UInt8 → Prop where
  | intro {name : String} {parts : List (String × Value)} {e₁ e₂ : List UInt8}
      (hname : Text.Form name e₁) (hcount : parts.length ≤ Packet.maxEntries)
      (hparts : Parts R parts e₂) :
      Packed R (.packet name (Entries.ofList parts))
        (e₁ ++ (BigEndian.encode 4 parts.length ++ e₂))

/-- What may stand behind the number of a format. -/
inductive Content (types : TypeTable) (R : Value → List UInt8 → Prop) :
    Builtin → Value → List UInt8 → Prop where
  | leaf {b : Builtin} {v : Value} {e : List UInt8} (h : Leaf types b v e) : Content types R b v e
  | message {id : Identifier} {body : Value} {e₁ e₂ : List UInt8} (hid : R (.identifier id) e₁)
      (hbody : R body e₂) : Content types R .message (.message id body) (e₁ ++ e₂)
  | packet {v : Value} {e : List UInt8} (h : Packed R v e) :
      Content types R .packet v (Packet.typeId.word ++ e)

/-- The frames of a value, with at most so many frames inside each other. -/
def Frame (types : TypeTable) : (levels : Nat) → Value → List UInt8 → Prop
  | 0, _, _ => False
  | levels + 1, v, e =>
    ∃ b content, e = b.id.word ++ content ∧ Content types (Frame types levels) b v content

section Grammar

variable {types : TypeTable} {R R' : Value → List UInt8 → Prop} {b : Builtin} {v : Value}
  {e : List UInt8} {levels : Nat}

@[simp] theorem TypeId.length_word (id : TypeId) : id.word.length = 2 :=
  BigEndian.length_encode 2 _

theorem Parts.mono {parts : List (String × Value)} (h : Parts R parts e)
    (hR : ∀ v e, R v e → R' v e) : Parts R' parts e := by
  induction h with
  | nil => exact .nil
  | cons hkey hv hparts ih => exact .cons hkey (hR _ _ hv) ih

theorem Packed.mono (h : Packed R v e) (hR : ∀ v e, R v e → R' v e) : Packed R' v e := by
  obtain ⟨hname, hcount, hparts⟩ := h
  exact .intro hname hcount (hparts.mono hR)

theorem Content.mono (h : Content types R b v e) (hR : ∀ v e, R v e → R' v e) :
    Content types R' b v e := by
  cases h with
  | leaf h => exact .leaf h
  | message hid hbody => exact .message (hR _ _ hid) (hR _ _ hbody)
  | packet h => exact .packet (h.mono hR)

theorem Frame.succ (h : Frame types levels v e) : Frame types (levels + 1) v e := by
  induction levels generalizing v e with
  | zero => exact h.elim
  | succ levels ih =>
      obtain ⟨b, content, rfl, hcontent⟩ := h
      exact ⟨b, content, rfl, hcontent.mono fun v e => ih⟩

theorem Frame.mono {more : Nat} (h : Frame types levels v e) (hle : levels ≤ more) :
    Frame types more v e := by
  induction hle with
  | refl => exact h
  | step _ ih => exact ih.succ

end Grammar

end Wireform

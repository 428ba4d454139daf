import Wireform.Proofs.Frame.Grammar
import Wireform.Proofs.Dialect.Standard

/-!
Three measures of a value: of how many objects it is made, how many bytes of
text and of blocks it carries, and how deep its objects lie inside each other.
A frame pays for all of them. Each object costs the two bytes of its number at
least, what a text or a block carries stands in the frame byte by byte, and no
declared length or count adds anything to a value by itself.

A record is one object without payload. In the dialects of which this is about
it is a constant, which is not carried but named.
-/

namespace Wireform

namespace Value

mutual

/-- The objects that a value is made of. The identifier of a message is an object, too. -/
def nodes : Value → Nat
  | .message _ body => 2 + body.nodes
  | .packet _ entries => 1 + nodesIn entries
  | _ => 1

def nodesIn : List (String × Value) → Nat
  | [] => 0
  | (_, v) :: entries => v.nodes + nodesIn entries

end

mutual

/-- The bytes of all texts and blocks in a value, names and keys of packets among them. -/
def payload : Value → Nat
  | .text s => (Text.bytes s).length
  | .bytes data => data.length
  | .message _ body => body.payload
  | .packet name entries => (Text.bytes name).length + payloadIn entries
  | _ => 0

def payloadIn : List (String × Value) → Nat
  | [] => 0
  | (key, v) :: entries => (Text.bytes key).length + v.payload + payloadIn entries

end

mutual

/-- The number of objects on the longest way inwards. -/
def height : Value → Nat
  | .message _ body => 1 + max 1 body.height
  | .packet _ entries => 1 + heightIn entries
  | _ => 1

def heightIn : List (String × Value) → Nat
  | [] => 0
  | (_, v) :: entries => max v.height (heightIn entries)

end

/-! ### Entries

An entry that takes the place of another makes a packet no bigger than both of
them would. -/

theorem weight_insert (key : String) (v : Value) (entries : Entries) :
    2 * nodesIn (entries.insert key v) + payloadIn (entries.insert key v) ≤
      2 * v.nodes + ((Text.bytes key).length + v.payload) +
        (2 * nodesIn entries + payloadIn entries) := by
  induction entries with
  | nil => simp only [Entries.insert, nodesIn, payloadIn]; omega
  | cons entry entries ih =>
      obtain ⟨k, w⟩ := entry
      unfold Entries.insert
      split
      · simp only [nodesIn, payloadIn]
        omega
      · split
        · simp only [nodesIn, payloadIn]
          omega
        · simp only [nodesIn, payloadIn]
          omega

theorem weight_insertAll (parts : List (String × Value)) (entries : Entries) :
    2 * nodesIn (entries.insertAll parts) + payloadIn (entries.insertAll parts) ≤
      2 * nodesIn parts + payloadIn parts + (2 * nodesIn entries + payloadIn entries) := by
  induction parts generalizing entries with
  | nil => simp only [Entries.insertAll, nodesIn, payloadIn]; omega
  | cons part parts ih =>
      obtain ⟨key, v⟩ := part
      have hrest := ih (entries.insert key v)
      have hinsert := weight_insert key v entries
      simp only [Entries.insertAll, nodesIn, payloadIn]
      omega

theorem heightIn_insert (key : String) (v : Value) (entries : Entries) :
    heightIn (entries.insert key v) ≤ max v.height (heightIn entries) := by
  induction entries with
  | nil => simp only [Entries.insert, heightIn]; omega
  | cons entry entries ih =>
      obtain ⟨k, w⟩ := entry
      unfold Entries.insert
      split
      · simp only [heightIn]
        omega
      · split
        · simp only [heightIn]
          omega
        · simp only [heightIn]
          omega

theorem heightIn_insertAll (parts : List (String × Value)) (entries : Entries) :
    heightIn (entries.insertAll parts) ≤ max (heightIn parts) (heightIn entries) := by
  induction parts generalizing entries with
  | nil => simp only [Entries.insertAll, heightIn]; omega
  | cons part parts ih =>
      obtain ⟨key, v⟩ := part
      have hrest := ih (entries.insert key v)
      have hinsert := heightIn_insert key v entries
      simp only [Entries.insertAll, heightIn]
      omega

end Value

/-! ### Frames -/

/-- The frame pays for its value, and the value is not higher than the frame is allowed to be. -/
structure Pays (levels : Nat) (v : Value) (e : List UInt8) : Prop where
  height : v.height ≤ levels
  weight : 2 * v.nodes + v.payload ≤ e.length

section Pays

variable {d : Dialect} {levels : Nat} {R : Value → List UInt8 → Prop} {b : Builtin} {v : Value}
  {e : List UInt8}

theorem Dialect.Standard.record_of_ofName (hd : d.Standard) {id : TypeId} {entry : TypeEntry}
    {constants : Constants} {name : String} (hentry : d.types.byId? id = some entry)
    (hkind : entry.kind = .enumeration constants) (hv : constants.ofName name = some v) :
    ∃ type fields, v = .record type fields := by
  rcases hd.kinds entry (TypeTable.mem_of_byId? hentry) with rfl | hplain | ⟨_, henum⟩
  · cases hkind
  · rw [hplain] at hkind
    cases hkind
  · cases henum.kind.symm.trans hkind
    obtain ⟨type, htype⟩ := henum.record
    have hclass := henum.sound name v hv
    rw [htype] at hclass
    cases v with
    | record => exact ⟨_, _, rfl⟩
    | _ => cases hclass

theorem Leaf.pays (hd : d.Standard) (h : Leaf d.types b v e) :
    v.height = 1 ∧ v.nodes = 1 ∧ v.payload ≤ e.length := by
  cases h with
  | text hs =>
      have hle := hs.length_le
      exact ⟨rfl, rfl, by simp only [Value.payload]; omega⟩
  | bytes hlen => exact ⟨rfl, rfl, by simp only [Value.payload, List.length_append]; omega⟩
  | constant hentry hkind hv hname =>
      obtain ⟨type, fields, rfl⟩ := hd.record_of_ofName hentry hkind hv
      exact ⟨rfl, rfl, Nat.zero_le _⟩
  | _ => exact ⟨rfl, rfl, Nat.zero_le _⟩

theorem Parts.pays {parts : List (String × Value)} (h : Parts R parts e)
    (hR : ∀ v e, R v e → Pays levels v e) :
    Value.heightIn parts ≤ levels ∧
      2 * Value.nodesIn parts + Value.payloadIn parts ≤ e.length := by
  induction h with
  | nil => exact ⟨Nat.zero_le _, Nat.zero_le _⟩
  | cons hkey hv hparts ih =>
      obtain ⟨hheight, hweight⟩ := hR _ _ hv
      have hle := hkey.length_le
      simp only [Value.heightIn, Value.nodesIn, Value.payloadIn, List.length_append]
      omega

theorem Content.pays (hd : d.Standard) (hR : ∀ v e, R v e → Pays levels v e)
    (h : Content d.types R b v e) :
    v.height ≤ levels + 1 ∧ 2 * v.nodes + v.payload ≤ 2 + e.length := by
  cases h with
  | leaf h =>
      obtain ⟨hheight, hnodes, hpayload⟩ := h.pays hd
      omega
  | message hid hbody =>
      obtain ⟨hheight, hweight⟩ := hR _ _ hid
      obtain ⟨hheight', hweight'⟩ := hR _ _ hbody
      simp only [Value.height, Value.nodes, Value.payload, List.length_append] at *
      omega
  | packet h =>
      -- putting the parts in their places can only make the packet smaller
      obtain @⟨name, parts, e₁, e₂, hname, hcount, hparts⟩ := h
      obtain ⟨hheight, hweight⟩ := hparts.pays hR
      have hle := hname.length_le
      have hweight' := Value.weight_insertAll parts []
      have hheight' := Value.heightIn_insertAll parts []
      simp only [Entries.ofList, Value.height, Value.heightIn, Value.nodes, Value.nodesIn,
        Value.payload, Value.payloadIn, List.length_append] at *
      omega

/-- One step inwards costs one level and two bytes. -/
theorem Frame.pays (hd : d.Standard) (h : Frame d.types levels v e) : Pays levels v e := by
  induction levels generalizing v e with
  | zero => exact h.elim
  | succ levels ih =>
      obtain ⟨b, content, rfl, hcontent⟩ := h
      obtain ⟨hheight, hweight⟩ := hcontent.pays hd fun v e => ih
      exact ⟨hheight, by rw [List.length_append, TypeId.length_word]; exact hweight⟩

end Pays

end Wireform

import Wireform.Proofs.Packet.Layout
import Wireform.Proofs.RoundTrip.Depth
import Wireform.Proofs.Text.Order
import Wireform.Proofs.Writing.Capacity

/-!
The bytes of a packet say what is in it, and no more than that.

No more, since of a history of edits nothing is left but what is found under the
keys. And all of it, if the values are the library's own. Such a value takes the
same bytes wherever it can be written, at any depth and with any room, and from
these bytes it is read back. Two of them that had the same bytes would be read
from one place as one value.
-/

namespace Wireform

variable {d : Dialect} {v : Value}

/-! ### The library's own values -/

/-- The value is one of the library's own, and so is all that it holds. The entries of packets are
in order. -/
inductive Native : Value → Prop where
  | leaf {b : Builtin} {v : Value} (hb : b.class? = some v.classOf) (hleaf : b ≠ .message) :
      Native v
  | message {id : Identifier} {body : Value} (hbody : Native body) : Native (.message id body)
  | packet {name : String} {entries : Entries} (hsorted : entries.Sorted)
      (hvalues : ∀ entry ∈ entries, Native entry.2) : Native (.packet name entries)

theorem Native.layered (h : Native v) : Layered d v := by
  induction h with
  | leaf hb hleaf => exact .leaf hb hleaf
  | message hbody ih => exact .message ih
  | packet hsorted hvalues ih => exact .packet hsorted ih

theorem regular_native (hd : d.Built) : d.Regular Native where
  known := by
    rintro v h
    cases h with
    | leaf hb hleaf => exact .inl ⟨_, hb⟩
    | message hbody => exact .inl ⟨.message, rfl⟩
    | packet hsorted hvalues => exact .inr ⟨_, hd.types.ofClass?_eq hd.packet, rfl⟩
  message := by
    rintro id body h
    refine ⟨.leaf (b := .identifier) rfl (by decide), ?_⟩
    cases h with
    | @leaf b _ hb hleaf =>
      cases b <;> cases hb
      exact absurd rfl hleaf
    | message hbody => exact hbody
  packet := by
    rintro name entries h
    cases h with
    | @leaf b _ hb hleaf => cases b <;> cases hb
    | packet hsorted hvalues => exact hvalues
  bodies := by
    rintro v h hfree hclass entry hentry
    cases h with
    | leaf hb hleaf => exact absurd hb (hfree _)
    | message hbody => exact absurd rfl (hfree .message)
    | packet hsorted hvalues => exact absurd rfl hclass

/-- There are benches with as many levels and as much room as one likes. -/
theorem Bench.exists_roomy (d : Dialect) (levels room : Nat) :
    ∃ s : Bench, s.Writable d 0 ∧ s.work.levels = levels ∧ s.buffer.writableBytes = room :=
  ⟨⟨{ Buffer.create 0 0 with limit := room }, Workspace.fresh [0] true levels, d.memo⟩,
    ⟨⟨rfl, Nat.le_refl 0, Nat.le_refl 0, Nat.zero_le room⟩, Nat.zero_le _, .start⟩, rfl, rfl⟩

/-- What is appended for the value wherever it is written is what it is read back from. -/
theorem Native.exists_bytes (hd : d.Built) (hv : Native v) (hwritten : Written d v) :
    ∃ e, Spans d v.height v e ∧ ∀ name s t, s.Writable d 0 →
      Writer.object d name v s = (.ok (), t) → t.buffer.written = s.buffer.written ++ e := by
  obtain ⟨e, hspans⟩ := hv.layered.spans hd hwritten
  refine ⟨e, hspans, fun name s t hs hobject => ?_⟩
  have hready : s.Writable d s.work.levels := ⟨hs.live, Nat.le_refl _, hs.memo⟩
  obtain ⟨e', happends⟩ :=
    Writer.steady_writeObject (regular_native hd) hd s.work.levels name v hv hready hobject
  -- where there is room for both, it is seen that they are the same bytes
  obtain ⟨r, hr, hlevels, hroom⟩ :=
    Bench.exists_roomy d s.work.levels (max e.length e'.length)
  obtain ⟨u, hu, hgrown⟩ := happends.emits ⟨hr.live, Nat.le_of_eq hlevels.symm, hr.memo⟩
    (Nat.le_trans (Nat.le_max_right ..) (Nat.le_of_eq hroom.symm))
  obtain ⟨_, u', hu', -, hspanned, -⟩ :=
    hspans.writes name hr (Nat.le_trans (Nat.le_max_left ..) (Nat.le_of_eq hroom.symm))
  rw [Writer.object, hlevels] at hu'
  cases hu.symm.trans hu'
  obtain rfl : e' = e :=
    List.append_cancel_left (hgrown.buffer.written.symm.trans (hspanned rfl).written)
  exact (happends.grown hready hobject).buffer.written

theorem Spans.eq_of_bytes {height height' : Nat} {v' : Value} {e : List UInt8}
    (h : Spans d height v e) (h' : Spans d height' v' e) : v = v' := by
  let s : Bench := ⟨Buffer.ofBytes e, Workspace.fresh [0] true (max height height'), d.memo⟩
  have hs (levels : Nat) (hle : levels ≤ max height height') : s.Ready levels :=
    ⟨Buffer.live_ofBytes e, Nat.zero_lt_one, hle⟩
  have hin : s.buffer.ahead = e ++ [] := by rw [Buffer.ahead_ofBytes, List.append_nil]
  obtain ⟨t, ht, -⟩ := h.carries.yields_object "value" (hs _ (Nat.le_max_left ..)) hin
  obtain ⟨t', ht', -⟩ := h'.carries.yields_object "value" (hs _ (Nat.le_max_right ..)) hin
  cases ht.symm.trans ht'
  rfl

/-! ### Packets -/

namespace Packet

def edited (name : String) (edits : List Edit) : Value := .packet name (Entries.edited edits)

theorem native_edited {edits : List Edit} (h : ∀ key v, Edit.left edits key = some v → Native v)
    (name : String) : Native (edited name edits) :=
  .packet (Entries.sorted_edited edits) fun _ hmem => h _ _ (Entries.mem_edited.mp hmem)

theorem edited_eq_edited {name name' : String} {edits edits' : List Edit} :
    edited name edits = edited name' edits' ↔
      name = name' ∧ Edit.left edits = Edit.left edits' := by
  rw [edited, edited, Value.packet.injEq, Entries.edited_eq_edited]

/-- Edits that leave the same under every key make the same packet and the same bytes, with the
entries in ascending order of the bytes of their keys. If only values of the library's own are left,
packets with the same bytes have the same name and the same left in them. -/
theorem canonical {p : Dialect.Blueprint} (hd : Dialect.build p = .ok d) (name : String)
    (edits : List Edit) :
    (∀ edits', Edit.left edits' = Edit.left edits → ∀ field,
      Writer.object d field (edited name edits') = Writer.object d field (edited name edits)) ∧
    (∀ field s t, s.Writable d 0 → Writer.object d field (edited name edits) s = (.ok (), t) →
      ∃ (entries : Entries) (body : List UInt8),
        entries.keys.Pairwise (fun key key' => Text.bytes key < Text.bytes key') ∧
        (∀ key v, (key, v) ∈ entries ↔ Edit.left edits key = some v) ∧
        entries.length ≤ maxEntries ∧ Laid d entries body ∧
        t.buffer.written = s.buffer.written ++ (Builtin.packet.id.word ++ (typeId.word ++
          (Text.wire name ++ (BigEndian.encode 4 entries.length ++ body))))) ∧
    ∀ name' edits' field field' s s' t t' e e',
      (∀ key v, Edit.left edits key = some v → Native v) →
      (∀ key v, Edit.left edits' key = some v → Native v) →
      s.Writable d 0 → Writer.object d field (edited name edits) s = (.ok (), t) →
      t.buffer.written = s.buffer.written ++ e →
      s'.Writable d 0 → Writer.object d field' (edited name' edits') s' = (.ok (), t') →
      t'.buffer.written = s'.buffer.written ++ e' →
      (e = e' ↔ name = name' ∧ Edit.left edits = Edit.left edits') := by
  have hbuilt := Dialect.Built.of_build hd
  refine ⟨fun edits' hleft field => ?_, fun field s t hs hobject => ?_, ?_⟩
  · rw [edited_eq_edited.mpr ⟨rfl, hleft⟩]
  · obtain ⟨e, hoccupies, he⟩ := Occupies.of_object hs hobject
    obtain ⟨hcount, body, hlaid, rfl⟩ := hoccupies.packet hbuilt
    refine ⟨_, body, ?_, fun key v => Entries.mem_edited, hcount, hlaid, he⟩
    exact (Entries.sorted_edited edits).imp fun hlt => Text.bytes_lt_bytes.mpr hlt
  · intro name' edits' field field' s s' t t' e e' hnative hnative' hs hobject he hs' hobject' he'
    obtain ⟨bytes, hspans, hbytes⟩ := (native_edited hnative name).exists_bytes hbuilt
      ⟨_, _, _, _, hs.memo, hobject⟩
    obtain ⟨bytes', hspans', hbytes'⟩ := (native_edited hnative' name').exists_bytes hbuilt
      ⟨_, _, _, _, hs'.memo, hobject'⟩
    obtain rfl : e = bytes := List.append_cancel_left (he.symm.trans (hbytes _ _ _ hs hobject))
    obtain rfl : e' = bytes' :=
      List.append_cancel_left (he'.symm.trans (hbytes' _ _ _ hs' hobject'))
    rw [← edited_eq_edited]
    constructor
    · rintro rfl
      exact hspans.eq_of_bytes hspans'
    · intro heq
      rw [← heq] at hobject'
      exact List.append_cancel_left ((hbytes _ _ _ hs' hobject').symm.trans he')

/-- Two histories that come to the same, and a third in which one value is another. -/
theorem canonical_three_histories : ∃ d, Dialect.build { registry := {} } = .ok d ∧
    let direct := [.insert "b" (.bool true), .insert "a" (.int 1)]
    let detour := [.insert "c" (.long 0), .insert "a" (.text "x"), .remove "c",
      .insert "b" (.bool true), .insert "a" (.int 1)]
    let other := [.insert "a" (.int 1), .insert "b" (.bool false)]
    let s : Bench := ⟨Buffer.create 0 100, Workspace.fresh [0] true 8, d.memo⟩
    Writer.object d "v" (edited "p" detour) = Writer.object d "v" (edited "p" direct) ∧
      ∃ t t' e e', s.Writable d 0 ∧ Writer.object d "v" (edited "p" direct) s = (.ok (), t) ∧
        t.buffer.written = s.buffer.written ++ e ∧
        Writer.object d "w" (edited "p" other) s = (.ok (), t') ∧
        t'.buffer.written = s.buffer.written ++ e' ∧ e ≠ e' := by
  obtain ⟨d, hd⟩ : ∃ d, Dialect.build { registry := {} } = .ok d := ⟨_, rfl⟩
  refine ⟨d, hd, ?_⟩
  intro direct detour other s
  obtain ⟨hsame, hlayout, hdiffer⟩ := canonical hd "p" direct
  have hs : s.Writable d 0 :=
    ⟨⟨rfl, Nat.le_refl 0, Nat.zero_le _, Nat.zero_le 100⟩, Nat.zero_le _, .start⟩
  have hleft : Edit.left detour = Edit.left direct := Entries.edited_eq_edited.mp (by cbv)
  have hnative {edits : List Edit} {flag : Bool}
      (h : Entries.edited edits = [("a", .int 1), ("b", .bool flag)]) :
      ∀ key v, Edit.left edits key = some v → Native v := by
    intro key v hfound
    have hmem := Entries.mem_edited.mpr hfound
    simp only [h, List.mem_cons, Prod.mk.injEq, List.not_mem_nil, or_false] at hmem
    rcases hmem with ⟨-, rfl⟩ | ⟨-, rfl⟩
    · exact .leaf (b := .int) rfl (by decide)
    · exact .leaf (b := .bool) rfl (by decide)
  have hrun : (Writer.object d "v" (edited "p" direct) s).1.isOk = true ∧
      (Writer.object d "w" (edited "p" other) s).1.isOk = true := by
    cases hd
    decide +kernel
  obtain ⟨⟨⟩, t, hobject⟩ := Action.exists_of_isOk hrun.1
  obtain ⟨⟨⟩, t', hobject'⟩ := Action.exists_of_isOk hrun.2
  obtain ⟨_, _, -, -, -, -, he⟩ := hlayout "v" s t hs hobject
  obtain ⟨_, _, -, -, -, -, he'⟩ := (canonical hd "p" other).2.1 "w" s t' hs hobject'
  refine ⟨hsame detour hleft "v", t, t', _, _, hs, hobject, he, hobject', he', fun heq => ?_⟩
  obtain ⟨-, hequal⟩ := (hdiffer "p" other "v" "w" s s t t' _ _ (hnative (by cbv))
    (hnative (by cbv)) hs hobject he hs hobject' he').mp heq
  cases congrFun hequal "b"

end Packet

end Wireform

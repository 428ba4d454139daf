import Wireform.Proofs.RoundTrip.Faithful

/-!
Whatever is read can be sent. A value that a reader gives is portable, with as
many levels as the reader had for it, if it is an ordinary one. The bytes from
which it was read may have been of another form than the writer has for it:
texts may be cut where a writer does not cut them, and the entries of a packet
may come in any order and with keys that are overtaken later. Of all that the
value shows nothing, since what is portable is said of the value alone.

The types of the application have no part in this, for what their bodies give is
never ordinary, however much they read for it.
-/

namespace Wireform

/-! ### Readers and what they give -/

theorem Leaf.plain {types : TypeTable} {b : Builtin} {v : Value} {e : List UInt8}
    (h : Leaf types b v e) (hb : b.class?.isSome) : Plain b v := by
  cases h with
  | byte v => exact .byte v
  | short v => exact .short v
  | char hc => exact .char hc
  | int v => exact .int v
  | float bits => exact .float bits
  | long v => exact .long v
  | double bits => exact .double bits
  | text hs => exact .text hs.fits
  | bytes hlen => exact .bytes hlen
  | bool v => exact .bool v
  | identifier id => exact .identifier id
  | constant => cases hb

namespace Reader

open Bench

variable {d : Dialect} {levels : Nat} {object : String → Action Bench Value}

section Nested

variable (hobject : ∀ name, Gives (Source.bench levels) (object name) (Returns d levels))

include hobject

theorem gives_message : Gives (Source.bench levels)
    (Builtin.readMessage.run (answer d object)) (Returns d (levels + 1)) := by
  simp only [Builtin.readMessage, Plan.run_bind, run_objectAs]
  have hid : Gives (Source.bench levels)
      (object "messageId" >>= fun v => Action.lift (v.expect .identifier)) fun _ => True :=
    (hobject "messageId").bind fun v _ => Gives.lift fun _ _ => trivial
  refine hid.bind fun v _ => ?_
  split
  · simp only [Plan.run_bind, Plan.run_pure, run_object]
    exact (hobject "body").map fun body hbody hordinary => .message (hbody hordinary)
  · exact Gives.fail _

theorem gives_entries (count : Nat) {before : Entries} (hsorted : before.Sorted)
    (hbefore : ∀ entry ∈ before,
      (Text.bytes entry.1).length ≤ Text.maxLength ∧ Returns d levels entry.2) :
    Gives (Source.bench levels) ((Packet.readEntries count before).run (answer d object))
      fun entries => entries.Sorted ∧ entries.length ≤ before.length + count ∧
        ∀ entry ∈ entries,
          (Text.bytes entry.1).length ≤ Text.maxLength ∧ Returns d levels entry.2 := by
  induction count generalizing before with
  | zero => exact Gives.pure ⟨hsorted, Nat.le_refl _, hbefore⟩
  | succ count ih =>
      simp only [Packet.readEntries, Plan.run_bind, run_text, run_object]
      refine (parses_onScratch fun _ => Text.parses_read).gives.bind ?_
      rintro key ⟨_, hkey⟩
      refine (hobject key).bind fun v hv => ?_
      have hinsert : ∀ entry ∈ before.insert key v,
          (Text.bytes entry.1).length ≤ Text.maxLength ∧ Returns d levels entry.2 := by
        intro entry hentry
        -- an entry that is overtaken is gone, so nothing is asked of it
        rcases Entries.mem_insert hentry with rfl | hmem
        · exact ⟨hkey.fits, hv⟩
        · exact hbefore entry hmem
      refine (ih (hsorted.insert key v) hinsert).mono ?_
      rintro entries ⟨hsorted', hlen, hentries⟩
      have hle := Entries.length_insert key v before
      exact ⟨hsorted', by omega, hentries⟩

theorem gives_packetBody {name : String} (hname : (Text.bytes name).length ≤ Text.maxLength) :
    Gives (Source.bench levels) ((Packet.read name).run (answer d object))
      (Returns d (levels + 1)) := by
  simp only [Packet.read, Plan.run_bind, run_int, Plan.refuse_bind, Plan.run_ite, Plan.run_refuse,
    Plan.run_pure]
  refine (parses_onBuffer Buffer.parses_readInt).gives.bind fun n _ => ?_
  split
  · exact Gives.fail _
  · refine (gives_entries hobject n.toInt.toNat Entries.sorted_nil (List.forall_mem_nil _)).bind ?_
    rintro entries ⟨hsorted, hlen, hentries⟩
    refine Gives.pure fun hordinary => ?_
    rw [List.length_nil, Nat.zero_add] at hlen
    refine .packet hname (Nat.le_trans hlen (Length.toNat_toInt_le n)) hsorted
      (fun entry hentry => (hentries entry hentry).1) fun entry hentry => ?_
    exact (hentries entry hentry).2 (Value.OrdinaryIn.of_mem hordinary hentry)

end Nested

theorem gives_leaf {b : Builtin} (hb : b.class?.isSome) (hm : b ≠ .message) :
    Gives (Source.bench levels) ((b.read d.types).run (answer d object))
      (Returns d (levels + 1)) :=
  (parses_leaf hb hm).reads.gives fun _ _ h _ => .field (h.plain hb)

section Faithful

variable (hd : d.Faithful)

include hd

theorem gives_constant : Gives (Source.bench levels)
    ((Builtin.readConstant d.types).run (answer d object)) (Returns d (levels + 1)) := by
  refine parses_constant.reads.gives fun v e hleaf _ => ?_
  cases hleaf with
  | @constant id entry constants name _ e hentry hkind hv hname =>
      have hmem := TypeTable.mem_of_byId? hentry
      rcases hd.entries entry hmem with rfl | hfaithful
      · cases hkind
      · have hplain : entry.kind ≠ .plain := fun h => by cases hkind.symm.trans h
        obtain ⟨type, htype⟩ := hfaithful.record hplain
        have hclass := hfaithful.constant hkind name v hv
        -- it may have been read by another name than the one it is written with
        obtain ⟨name', hname', hfits, hv'⟩ := hfaithful.inverts hkind name v hname.fits hv
        have hfound := hd.built.types.ofClass?_eq hmem
        rw [← hclass] at hfound
        cases v with
        | record => exact .constant hfound hkind hname' hfits hv'
        | _ => cases hclass.trans htype

/-- What a body of the application gives is a value of its type, and no ordinary one. -/
theorem gives_own (hobject : ∀ name, Gives (Source.bench levels) (object name) fun _ => True)
    {entry : TypeEntry} (hentry : entry ∈ d.types.entries) (hfaithful : entry.Faithful)
    (hplain : entry.kind ≠ .plain) (hkind : ∀ constants, entry.kind ≠ .enumeration constants)
    {reading : Reading Value} (hends : reading.Ends (·.classOf = entry.valueClass)) :
    Gives (Source.bench levels) (reading.run (answer d object)) (Returns d (levels + 1)) := by
  refine (Gives.run (gives_answer hobject) hends.endsIn).mono fun v hv hordinary => ?_
  exact absurd hordinary (Value.not_ordinary hd.built.types hentry hfaithful hplain hkind hv)

variable (hobject : ∀ name, Gives (Source.bench levels) (object name) (Returns d levels))

include hobject

theorem gives_packet : Gives (Source.bench levels)
    ((Builtin.readPacket d.types).run (answer d object)) (Returns d (levels + 1)) := by
  have hall := fun name => (hobject name).mono fun _ _ => trivial
  simp only [Builtin.readPacket, Plan.run_bind]
  refine (parses_readEntry d).gives.bind ?_
  rintro entry ⟨_, id, hid, -⟩
  have hmem := TypeTable.mem_of_byId? hid
  split
  · next construction body hkind =>
    simp only [Plan.run_bind, run_text]
    refine (parses_onScratch fun _ => Text.parses_read).gives.bind ?_
    rintro name ⟨_, hname⟩
    rcases hd.entries entry hmem with rfl | hfaithful
    · cases hkind
      exact gives_packetBody hobject hname.fits
    · exact gives_own hd hall hmem hfaithful (fun h => by cases hkind.symm.trans h)
        (fun _ h => by cases hkind.symm.trans h)
        (hfaithful.packet hkind name)
  · exact Gives.fail _

theorem gives_structured : Gives (Source.bench levels)
    ((Builtin.readStructured d.types).run (answer d object)) (Returns d (levels + 1)) := by
  have hall := fun name => (hobject name).mono fun _ _ => trivial
  simp only [Builtin.readStructured, Plan.run_bind]
  refine (parses_readEntry d).gives.bind ?_
  rintro entry ⟨_, id, hid, -⟩
  have hmem := TypeTable.mem_of_byId? hid
  split
  · next cacheable body hkind =>
    rcases hd.entries entry hmem with rfl | hfaithful
    · cases hkind
    · exact gives_own hd hall hmem hfaithful (fun h => by cases hkind.symm.trans h)
        (fun _ h => by cases hkind.symm.trans h)
        (hfaithful.structured hkind)
  · exact Gives.fail _

theorem gives_content (b : Builtin) : Gives (Source.bench levels)
    ((b.read d.types).run (answer d object)) (Returns d (levels + 1)) := by
  cases b with
  | message => exact gives_message hobject
  | enumeration => exact gives_constant hd
  | packet => exact gives_packet hd hobject
  | structured => exact gives_structured hd hobject
  | _ => exact gives_leaf rfl (by decide)

theorem gives_readBody : Gives (Source.bench levels) (readBody d object)
    (Returns d (levels + 1)) := by
  refine (parses_onBuffer Buffer.parses_readShort).gives.bind fun raw _ => ?_
  simp only
  split
  · next route hroute =>
    rcases hd.routes route (List.mem_of_find?_eq_some hroute) with ⟨b, rfl⟩ | hown
    · exact gives_content hd hobject b
    · exact Gives.run (gives_answer hobject) (hown levels)
  · exact Gives.fail _

omit hobject in
theorem gives_readObject (levels : Nat) (name : String) :
    Gives (Source.bench levels) (readObject d levels name) (Returns d levels) := by
  induction levels generalizing name with
  | zero =>
      rintro s _ _ hs ⟨⟩ -
      exact ⟨⟨0, (Source.bench 0).moved_zero hs⟩, fun _ h => by cases h⟩
  | succ levels ih =>
      have hall := fun name => (ih name).mono fun _ _ => trivial
      exact gives_readObject_succ name (gives_describeNext hall) (gives_readBody hd ih)

end Faithful

end Reader

end Wireform

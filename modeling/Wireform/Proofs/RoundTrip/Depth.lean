import Wireform.Proofs.Frame.Size
import Wireform.Proofs.RoundTrip.Object
import Wireform.Proofs.Writing.Written

/-!
The limit on nested objects is met exactly.

With as many levels as a value is high it is written and read, and with fewer
the writer breaks off, and so does the reader, each by a count of its own. The
two halves of this are kept together. An object spans so many levels if it is
carried from that number on and fails on both sides below it, and contents cost
so many levels in the same sense. Then two contents in a row cost what the
dearer of them costs: with less than that the one fails, or the one succeeds and
the other fails. An object spans one level more than its contents cost. So the
levels that a value spans go by the same recursion as its height.

What a writer has done when it breaks off, and what a reader has consumed, does
not matter here. It is enough that with room for all the bytes of a value, and
with all of them ahead, there is no other cause for a failure.
-/

namespace Wireform

section Judgments

variable {σ α β : Type} {e e' : List UInt8}

/-- Although there is room for the bytes `e`, `act` fails, since what it is to write is malformed. -/
def Balks (S : Sink σ) (act : Action σ Unit) (e : List UInt8) : Prop :=
  ∀ ⦃s⦄, S.Ready s → e.length ≤ S.room s → ∃ f t, act s = (.error f, t) ∧ f.code = .malformed

/-- Although the bytes `e` are ahead, `act` fails, since to it they are malformed. -/
def Chokes (S : Source σ) (act : Action σ α) (e : List UInt8) : Prop :=
  ∀ ⦃s rest⦄, S.Ready s → S.input s = e ++ rest →
    ∃ f t, act s = (.error f, t) ∧ f.code = .malformed

section Writers

variable {S : Sink σ} {x : Action σ Unit} {f : Unit → Action σ Unit}

theorem Balks.bind_left (h : Balks S x e) (f : Unit → Action σ Unit) (e' : List UInt8) :
    Balks S (x >>= f) (e ++ e') := by
  intro s hs hroom
  rw [List.length_append] at hroom
  obtain ⟨g, t, hx, hg⟩ := h hs (by omega)
  exact ⟨g, t, Action.bind_of_error hx, hg⟩

theorem Emits.bind_balks (hx : Emits S x e) (hf : Balks S (f ()) e') :
    Balks S (x >>= f) (e ++ e') := by
  intro s hs hroom
  rw [List.length_append] at hroom
  obtain ⟨t, hxs, ht⟩ := hx hs (by omega)
  obtain ⟨g, u, hfu, hg⟩ := hf (S.ready_of_grown hs ht) (by rw [S.room_of_grown ht]; omega)
  exact ⟨g, u, by rw [Action.bind_of_ok hxs, hfu], hg⟩

end Writers

section Readers

variable {S : Source σ} {x : Action σ α} {f : α → Action σ β} {a : α}

theorem Chokes.bind_left (h : Chokes S x e) (f : α → Action σ β) (e' : List UInt8) :
    Chokes S (x >>= f) (e ++ e') := by
  intro s rest hs hin
  rw [List.append_assoc] at hin
  obtain ⟨g, t, hx, hg⟩ := h hs hin
  exact ⟨g, t, Action.bind_of_error hx, hg⟩

theorem Yields.bind_chokes (hx : Yields S x e a) (hf : Chokes S (f a) e') :
    Chokes S (x >>= f) (e ++ e') := by
  intro s rest hs hin
  rw [List.append_assoc] at hin
  obtain ⟨t, hxs, ht⟩ := hx hs hin
  obtain ⟨g, u, hfu, hg⟩ := hf (S.ready_of_moved hs ht) (S.input_of_append ht hin)
  exact ⟨g, u, by rw [Action.bind_of_ok hxs, hfu], hg⟩

end Readers

end Judgments

/-! ### Objects -/

variable {d : Dialect} {levels : Nat} {b : Builtin} {v : Value} {e : List UInt8}

namespace Writer

variable {object : String → Value → Action Bench Unit}

theorem balks_writeObject_zero (name : String) (v : Value) (e : List UInt8) :
    Balks (Sink.bench d 0) (writeObject d 0 name v) e :=
  fun _ _ _ => ⟨_, _, rfl, rfl⟩

theorem balks_writeBody (name : String) (hsends : d.Sends v b)
    (h : Balks (Sink.bench d levels) ((b.write d.types v).run (writeField d object)) e) :
    Balks (Sink.bench d levels) (writeBody d object name v) (b.id.word ++ e) := by
  have hrouted : Balks (Sink.bench d levels) (routed d object b v) (b.id.word ++ e) :=
    (appends_id b.id).emits.bind_balks h
  intro s hs hroom
  obtain ⟨m, hreaches, hbody⟩ := writeBody_of_sends object name hsends hs.memo
  obtain ⟨f, t, ht, hf⟩ := hrouted (s := ⟨s.buffer, s.work, m⟩) ⟨hs.live, hs.levels, hreaches⟩ hroom
  exact ⟨f, t, hbody.trans ht, hf⟩

theorem balks_writeObject_succ {name : String}
    (h : Balks (Sink.bench d levels) (writeBody d (writeObject d levels) name v) e) :
    Balks (Sink.bench d (levels + 1)) (writeObject d (levels + 1) name v) e := by
  intro s hs hroom
  obtain ⟨f, t, ht, hf⟩ := h (hs.opened (frame name v)) hroom
  have hobject : writeObject d (levels + 1) name v s =
      (.error (t.work.annotate f), { t with work := t.work.leave }) := by
    rw [writeObject_of_levels name v hs.levels, Bench.inside, ht]
  exact ⟨_, _, hobject, (Workspace.code_annotate t.work f).trans hf⟩

end Writer

namespace Reader

variable {object : String → Action Bench Value}

theorem chokes_readObject_zero (name : String) (e : List UInt8) :
    Chokes (Source.bench 0) (readObject d 0 name) e :=
  fun _ _ _ _ => ⟨_, _, rfl, rfl⟩

theorem chokes_readBody (hroute : d.route? b.id = some (Dialect.builtinRoute b))
    (h : Chokes (Source.bench levels) ((b.read d.types).run (answer d object)) e) :
    Chokes (Source.bench levels) (readBody d object) (b.id.word ++ e) := by
  refine (yields_id b.id).bind_chokes ?_
  simp only
  rw [show d.route? ⟨b.id.raw⟩ = _ from hroute]
  exact h

/-- A reader that keeps frames looks ahead before it fails. -/
theorem chokes_readObject_succ (name : String)
    (hroute : d.route? b.id = some (Dialect.builtinRoute b))
    (h : Chokes (Source.bench levels) (readBody d (readObject d levels)) (b.id.word ++ e)) :
    Chokes (Source.bench (levels + 1)) (readObject d (levels + 1) name) (b.id.word ++ e) := by
  intro s rest hs hin
  obtain ⟨t, ht, hread⟩ := readObject_of_opened name hs fun _ =>
    consumes_describeNext hroute hs.entered (hin.trans (List.append_assoc ..))
  obtain ⟨f, u, hu, hf⟩ := h (ht.ready hs) (by rw [ht.input]; exact hin)
  have hobject : readObject d (levels + 1) name s =
      (.error (u.work.annotate f), { u with work := u.work.leave }) := by
    rw [hread, Bench.inside, hu]
  exact ⟨_, _, hobject, (Workspace.code_annotate u.work f).trans hf⟩

end Reader

/-- The bytes `e` carry the value as an object, and it takes just as many levels to do so. -/
structure Spans (d : Dialect) (height : Nat) (v : Value) (e : List UInt8) : Prop where
  carries : Carries d height v e
  balks : ∀ m < height, ∀ name,
    Balks (Sink.bench d m) (Writer.writeObject d m name v) e
  chokes : ∀ m < height, ∀ name,
    Chokes (Source.bench m) (Reader.readObject d m name) e

/-- Script and reading mirror each other over the bytes `e`, and it takes just as many levels to do
so. -/
structure Costs {α : Type} (d : Dialect) (height : Nat) (script : Script) (reading : Reading α)
    (a : α) (e : List UInt8) : Prop where
  mirrors : Mirrors d height script reading a e
  balks : ∀ m < height,
    Balks (Sink.bench d m) (script.run (Writer.writeField d (Writer.writeObject d m))) e
  chokes : ∀ m < height,
    Chokes (Source.bench m) (reading.run (Reader.answer d (Reader.readObject d m))) e

section Contents

variable {α β : Type} {height height' : Nat} {script : Script} {script' : Unit → Script}
  {reading : Reading α} {f : α → Reading β} {a : α} {b' : β} {e' : List UInt8}

theorem Mirrors.mono (h : Mirrors d height script reading a e) (hle : height ≤ height') :
    Mirrors d height' script reading a e where
  emits m hm := h.emits m (by omega)
  yields m hm := h.yields m (by omega)

theorem Mirrors.costs (h : Mirrors d 0 script reading a e) : Costs d 0 script reading a e where
  mirrors := h
  balks _ hm := absurd hm (Nat.not_lt_zero _)
  chokes _ hm := absurd hm (Nat.not_lt_zero _)

namespace Costs

/-- Levels are given back. What comes second may use them again. -/
theorem bind (h : Costs d height script reading a e)
    (h' : Costs d height' (script' ()) (f a) b' e') :
    Costs d (max height height') (script >>= script') (reading >>= f) b' (e ++ e') where
  mirrors :=
    (h.mirrors.mono (Nat.le_max_left ..)).bind (h'.mirrors.mono (Nat.le_max_right ..))
  balks := by
    intro m hm
    rw [Plan.run_bind]
    by_cases hfirst : m < height
    · exact (h.balks m hfirst).bind_left _ e'
    · exact (h.mirrors.emits m (by omega)).bind_balks (h'.balks m (by omega))
  chokes := by
    intro m hm
    rw [Plan.run_bind]
    by_cases hfirst : m < height
    · exact (h.chokes m hfirst).bind_left _ e'
    · exact (h.mirrors.yields m (by omega)).bind_chokes (h'.chokes m (by omega))

theorem map (g : α → β) (h : Costs d height script reading a e) :
    Costs d height script (g <$> reading) (g a) e where
  mirrors := h.mirrors.map g
  balks := h.balks
  chokes := by
    intro m hm
    have hbind := (h.chokes m hm).bind_left (fun a => pure (g a)) []
    rw [List.append_nil] at hbind
    rw [Plan.run_map]
    exact hbind

theorem field {f : Field} {r : Request} {a : r.Answer}
    (hmirrors : Mirrors d height (Script.put f) (Plan.request r) a e)
    (hbalks : ∀ m < height,
      Balks (Sink.bench d m) (Writer.writeField d (Writer.writeObject d m) f) e)
    (hchokes : ∀ m < height,
      Chokes (Source.bench m) (Reader.answer d (Reader.readObject d m) r) e) :
    Costs d height (Script.put f) (Plan.request r) a e where
  mirrors := hmirrors
  balks m hm := by
    rw [Script.put, Plan.run_request]
    exact hbalks m hm
  chokes m hm := by
    rw [Plan.run_request]
    exact hchokes m hm

theorem object (h : Spans d height v e) (name name' : String) :
    Costs d height (Script.put (.object name v)) (Reading.object name') v e :=
  field (r := .object name') (.object h.carries name name') (fun m hm => h.balks m hm name)
    fun m hm => h.chokes m hm name'

theorem objectAs (h : Spans d height v e) (name name' : String) :
    Costs d height (Script.put (.object name v)) (Reading.objectAs v.classOf name') v e := by
  refine field (r := .objectAs v.classOf name') (.objectAs h.carries name name')
    (fun m hm => h.balks m hm name) fun m hm => ?_
  rw [← List.append_nil e]
  exact (h.chokes m hm name').bind_left _ []

end Costs

theorem Mirrors.bind_costs (h : Mirrors d 0 script reading a e)
    (h' : Costs d height (script' ()) (f a) b' e') :
    Costs d height (script >>= script') (reading >>= f) b' (e ++ e') := by
  have hbind := h.costs.bind h'
  rwa [Nat.zero_max] at hbind

end Contents

/-- An object spans one level more than its contents cost. -/
theorem Costs.spans {height : Nat} (hd : d.Built) (hsends : d.Sends v b)
    (h : Costs d height (b.write d.types v) (b.read d.types) v e) :
    Spans d (height + 1) v (b.id.word ++ e) where
  carries := h.mirrors.carries hd hsends
  balks := by
    intro m hm name
    cases m with
    | zero => exact Writer.balks_writeObject_zero name v _
    | succ m =>
        have hinside := h.balks m (by omega)
        exact Writer.balks_writeObject_succ (Writer.balks_writeBody name hsends hinside)
  chokes := by
    intro m hm name
    cases m with
    | zero => exact Reader.chokes_readObject_zero name _
    | succ m =>
        have hinside := h.chokes m (by omega)
        have hroute := hd.route? b
        exact Reader.chokes_readObject_succ name hroute (Reader.chokes_readBody hroute hinside)

/-! ### Values that hold others -/

theorem exists_costs_message {height height' : Nat} {id : Identifier} {body : Value}
    (hid : ∃ e, Spans d height (.identifier id) e) (hbody : ∃ e, Spans d height' body e) :
    ∃ e, Costs d (max height height') (Builtin.message.write d.types (.message id body))
      (Builtin.message.read d.types) (.message id body) e := by
  obtain ⟨e₁, hid⟩ := hid
  obtain ⟨e₂, hbody⟩ := hbody
  refine ⟨e₁ ++ e₂, ?_⟩
  exact (Costs.objectAs hid "messageId" "messageId").bind
    ((Costs.object hbody "body" "body").map (Value.message id))

/-- One entry after the other, so that the highest value is what counts. -/
theorem exists_costs_entries {entries : List (String × Value)}
    (hkeys : ∀ entry ∈ entries, (Text.bytes entry.1).length ≤ Text.maxLength)
    (hvalues : ∀ entry ∈ entries, ∃ e, Spans d entry.2.height entry.2 e) :
    ∃ e, ∀ before : Entries, Costs d (Value.heightIn entries) (Packet.writeEntries entries)
      (Packet.readEntries entries.length before) (before.insertAll entries) e := by
  induction entries with
  | nil => exact ⟨[], fun before => (Mirrors.pure before).costs⟩
  | cons entry entries ih =>
      obtain ⟨key, v⟩ := entry
      obtain ⟨hkey, hkeys⟩ := List.forall_mem_cons.mp hkeys
      obtain ⟨⟨e₁, hv⟩, hvalues⟩ := List.forall_mem_cons.mp hvalues
      obtain ⟨e₂, hrest⟩ := ih hkeys hvalues
      refine ⟨Text.wire key ++ (e₁ ++ e₂), fun before => ?_⟩
      exact (Mirrors.text hkey).bind_costs ((Costs.object hv key key).bind (hrest _))

theorem exists_costs_packet (hd : d.Built) {name : String} {entries : Entries}
    (hname : (Text.bytes name).length ≤ Text.maxLength)
    (hcount : entries.length ≤ Packet.maxEntries) (hsorted : entries.Sorted)
    (hkeys : ∀ entry ∈ entries, (Text.bytes entry.1).length ≤ Text.maxLength)
    (hvalues : ∀ entry ∈ entries, ∃ e, Spans d entry.2.height entry.2 e) :
    ∃ e, Costs d (Value.heightIn entries) (Builtin.packet.write d.types (.packet name entries))
      (Builtin.packet.read d.types) (.packet name entries) e := by
  have hentry : d.types.ofClass? (Value.packet name entries).classOf = some Packet.entry :=
    hd.types.ofClass?_eq hd.packet
  obtain ⟨e₁, htype⟩ : ∃ e, Mirrors d 0 (Script.put (.typeId (.packet name entries)))
      d.types.readEntry Packet.entry e := exists_mirrors_entry hd hentry
  obtain ⟨e₂, hentries⟩ := exists_costs_entries hkeys hvalues
  have hbody := (hentries []).map (Value.packet name)
  rw [show Entries.insertAll [] entries = entries from Entries.ofList_of_sorted hsorted] at hbody
  have hpos : ¬ (entries.length : Int) < 0 := Int.not_lt.mpr (Int.natCast_nonneg _)
  refine ⟨e₁ ++ (Text.wire name ++ (BigEndian.encode 4 entries.length ++ e₂)), ?_⟩
  simp only [Builtin.write, Builtin.writePacket, Builtin.entryOf, hentry, Plan.lift_ok,
    Plan.pure_bind]
  refine htype.bind_costs ((Mirrors.text hname).bind_costs ?_)
  simp only [Packet.write, if_neg (Nat.not_lt.mpr hcount)]
  refine (Mirrors.length hcount).bind_costs ?_
  simp only [Length.toInt_ofNat hcount, if_neg hpos, Int.toNat_natCast]
  exact hbody

/-! ### Values by layers -/

/-- A value that is built up by messages and packets from leaves: the library's own values that hold
no others, and values of registered types that are mirrored without any objects in them. -/
inductive Layered (d : Dialect) : Value → Prop where
  | leaf {b : Builtin} {v : Value} (hb : b.class? = some v.classOf) (hleaf : b ≠ .message) :
      Layered d v
  | own {b : Builtin} {type : String} {fields : List (String × Value)} {entry : TypeEntry}
      (hentry : d.types.ofClass? (.record type) = some entry)
      (hkind : entry.kind.builtin? = some b)
      (hmirrors : ∃ e, Mirrors d 0 (b.write d.types (.record type fields)) (b.read d.types)
        (.record type fields) e) :
      Layered d (.record type fields)
  | message {id : Identifier} {body : Value} (hbody : Layered d body) :
      Layered d (.message id body)
  | packet {name : String} {entries : Entries} (hsorted : entries.Sorted)
      (hvalues : ∀ entry ∈ entries, Layered d entry.2) : Layered d (.packet name entries)

theorem Plain.spans (hd : d.Built) (h : Plain b v) : ∃ e, Spans d v.height v e := by
  have hheight : v.height = 0 + 1 := by cases h <;> rfl
  obtain ⟨e, hmirrors⟩ := h.mirrors
  rw [hheight]
  exact ⟨_, hmirrors.costs.spans hd (hd.sends_settled h.class_eq)⟩

theorem Layered.spans (hd : d.Built) (h : Layered d v) (hwritten : Written d v) :
    ∃ e, Spans d v.height v e := by
  induction h with
  | leaf hb hleaf =>
      obtain ⟨b, hplain⟩ := hwritten.plain hd hb hleaf
      exact hplain.spans hd
  | own hentry hkind hmirrors =>
      obtain ⟨e, hmirrors⟩ := hmirrors
      exact ⟨_, hmirrors.costs.spans hd (hd.sends_kind hentry hkind rfl)⟩
  | @message id body hbody ih =>
      obtain ⟨e, hcosts⟩ :=
        exists_costs_message ((Plain.identifier id).spans hd) (ih (hwritten.message hd))
      have hspans := hcosts.spans hd (hd.sends_settled rfl)
      rw [Nat.add_comm] at hspans
      exact ⟨_, hspans⟩
  | @packet name entries hsorted hvalues ih =>
      obtain ⟨hname, hcount, hentries⟩ := hwritten.packet hd
      obtain ⟨e, hcosts⟩ := exists_costs_packet hd hname hcount hsorted
        (fun entry hmem => (hentries entry hmem).1)
        fun entry hmem => ih entry hmem (hentries entry hmem).2
      have hentry : d.types.ofClass? (Value.packet name entries).classOf = some Packet.entry :=
        hd.types.ofClass?_eq hd.packet
      have hspans := hcosts.spans hd (hd.sends_kind hentry rfl rfl)
      rw [Nat.add_comm] at hspans
      exact ⟨_, hspans⟩

/-! ### With the levels that are left -/

section Outcome

variable {height : Nat} (h : Spans d height v e) (name : String) {s : Bench}

include h

theorem Spans.writes (hs : s.Writable d 0) (hroom : e.length ≤ s.buffer.writableBytes) :
    ∃ r t, Writer.object d name v s = (r, t) ∧ (r.isOk ↔ height ≤ s.work.levels) ∧
      (r.isOk → s.buffer.Appended e t.buffer) ∧ ∀ f, r = .error f → f.code = .malformed := by
  have hready (m : Nat) (hm : m ≤ s.work.levels) : s.Writable d m := ⟨hs.live, hm, hs.memo⟩
  by_cases henough : height ≤ s.work.levels
  · obtain ⟨t, ht, hgrown⟩ := h.carries.emits_object name (hready _ henough) hroom
    exact ⟨_, t, ht, iff_of_true rfl henough, fun _ => hgrown.buffer, fun _ hf => by cases hf⟩
  · obtain ⟨f, t, ht, hf⟩ :=
      h.balks s.work.levels (by omega) name (hready _ (Nat.le_refl _)) hroom
    refine ⟨_, t, ht, iff_of_false nofun henough, nofun, fun g hg => ?_⟩
    cases hg
    exact hf

theorem Spans.reads {rest : List UInt8} (hs : s.Ready 0) (hin : s.buffer.ahead = e ++ rest) :
    ∃ r t, Reader.object d name s = (r, t) ∧ (r.isOk ↔ height ≤ s.work.levels) ∧
      (∀ w, r = .ok w → w = v ∧ t.buffer = s.buffer.advance e.length) ∧
      ∀ f, r = .error f → f.code = .malformed := by
  have hready (m : Nat) (hm : m ≤ s.work.levels) : s.Ready m := ⟨hs.live, hs.scratch, hm⟩
  by_cases henough : height ≤ s.work.levels
  · obtain ⟨t, ht, hmoved⟩ := h.carries.yields_object name (hready _ henough) hin
    refine ⟨_, t, ht, iff_of_true rfl henough, fun w hw => ?_, fun _ hf => by cases hf⟩
    cases hw
    exact ⟨rfl, hmoved.buffer⟩
  · obtain ⟨f, t, ht, hf⟩ := h.chokes s.work.levels (by omega) name (hready _ (Nat.le_refl _)) hin
    refine ⟨_, t, ht, iff_of_false nofun henough, nofun, fun g hg => ?_⟩
    cases hg
    exact hf

end Outcome

/-- A value of leaves, messages and packets has bytes on which no depth has any influence. It is
written as them and read from them if it is not higher than there are levels left, and otherwise
both fail with the code for malformed data. -/
theorem Layered.depth_exact {p : Dialect.Blueprint} (hd : Dialect.build p = .ok d)
    (hv : Layered d v) {name₀ : String} {s₀ t₀ : Bench} (hmemo : d.Reaches s₀.memo)
    (hwritten : Writer.object d name₀ v s₀ = (.ok (), t₀)) :
    ∃ e, ∀ name s,
      (s.Writable d 0 → e.length ≤ s.buffer.writableBytes →
        ∃ r t, Writer.object d name v s = (r, t) ∧ (r.isOk ↔ v.height ≤ s.work.levels) ∧
          (r.isOk → s.buffer.Appended e t.buffer) ∧ ∀ f, r = .error f → f.code = .malformed) ∧
      ∀ rest, s.Ready 0 → s.buffer.ahead = e ++ rest →
        ∃ r t, Reader.object d name s = (r, t) ∧ (r.isOk ↔ v.height ≤ s.work.levels) ∧
          (∀ w, r = .ok w → w = v ∧ t.buffer = s.buffer.advance e.length) ∧
          ∀ f, r = .error f → f.code = .malformed := by
  obtain ⟨e, hspans⟩ := hv.spans (.of_build hd) ⟨_, name₀, s₀, t₀, hmemo, hwritten⟩
  exact ⟨e, fun name s => ⟨hspans.writes name, fun rest => hspans.reads name⟩⟩

/-! The parcel is three objects high. -/

theorem Sample.layered_parcel {d : Dialect} (hd : Dialect.build blueprint = .ok d) :
    Layered d parcel := by
  have hbuilt := Dialect.Built.of_build hd
  cases hd
  refine .message (.packet (by decide) ?_)
  simp only [List.forall_mem_cons, List.not_mem_nil, false_imp_iff, implies_true, and_true]
  refine ⟨?_, ?_, ?_⟩
  · exact .own rfl rfl (exists_mirrors_constant hbuilt rfl rfl rfl (by decide) rfl)
  · exact .own rfl rfl (exists_mirrors_structured hbuilt rfl rfl
      ((Mirrors.text (by decide)).bind_pure rfl))
  · refine .own rfl rfl (exists_mirrors_packet hbuilt (e := Text.wire "text") rfl rfl rfl
      (by decide) ?_)
    exact (Mirrors.text (by decide)).bind_pure rfl

theorem Layered.depth_exact_parcel : ∃ d s t, Dialect.build Sample.blueprint = .ok d ∧
    Layered d Sample.parcel ∧ d.Reaches s.memo ∧
    Writer.object d "value" Sample.parcel s = (.ok (), t) ∧ ∃ e : List UInt8, ∀ limit,
      let work := Workspace.fresh [0] true limit
      let room : Buffer := { Buffer.create 0 0 with limit := e.length }
      (∃ r t, Writer.object d "value" Sample.parcel ⟨room, work, d.memo⟩ = (r, t) ∧
        (r.isOk ↔ 3 ≤ limit)) ∧
      ∃ r t, Reader.object d "value" ⟨Buffer.ofBytes e, work, d.memo⟩ = (r, t) ∧
        (r.isOk ↔ 3 ≤ limit) := by
  obtain ⟨d, hd⟩ : ∃ d, Dialect.build Sample.blueprint = .ok d := ⟨_, rfl⟩
  let s : Bench := ⟨Buffer.create 0 200, Workspace.fresh [0] true 5, d.memo⟩
  have hrun : (Writer.object d "value" Sample.parcel s).1.isOk = true := by
    cases hd
    decide +kernel
  rcases hwritten : Writer.object d "value" Sample.parcel s with ⟨f | ⟨⟩, t⟩
  · rw [hwritten] at hrun
    cases hrun
  · obtain ⟨e, hexact⟩ := depth_exact hd (Sample.layered_parcel hd) .start hwritten
    refine ⟨d, s, t, hd, Sample.layered_parcel hd, .start, hwritten, e, fun limit => ?_⟩
    intro work room
    obtain ⟨r, u, hwrite, hiff, -⟩ := (hexact "value" ⟨room, work, d.memo⟩).1
      ⟨⟨rfl, Nat.le_refl 0, Nat.le_refl 0, Nat.zero_le _⟩, Nat.zero_le _, .start⟩ (Nat.le_refl _)
    obtain ⟨r', u', hread, hiff', -⟩ := (hexact "value" ⟨Buffer.ofBytes e, work, d.memo⟩).2 []
      ⟨Buffer.live_ofBytes e, Nat.zero_lt_one, Nat.zero_le _⟩
      (by rw [Buffer.ahead_ofBytes, List.append_nil])
    exact ⟨⟨r, u, hwrite, hiff⟩, r', u', hread, hiff'⟩

end Wireform

import Mathlib.Data.List.Forall2
import Wireform.Proofs.Compact.Numbers
import Wireform.Proofs.Compact.Chunks
import Wireform.Proofs.RoundTrip.Object

/-!
Work field by field. An application may write fields one after the other and
read them back by the requests that echo them, with no object around them. What
comes back is what was written, and the reader ends where the writer ended.

That a field was written is known from the success of the writer alone: there
was room for it, and it was one that can be written. So nothing is asked of the
fields, of the size of the buffer or of where the writing began.
-/

namespace Wireform

abbrev Echo : Type := (r : Request) × r.Answer

/-- What a reader asks for where a field was written, and what it is to be answered. Of truth values
an empty list cannot be told from an absent one. A run of bytes is asked for by its length, in one
of two ways. -/
inductive Field.Echoes : Field → Echo → Prop where
  | bool (v : Bool) : Echoes (.bool v) ⟨.bool, v⟩
  | flags (v : Option (List Bool)) : Echoes (.flags v) ⟨.flags, v.filter (! ·.isEmpty)⟩
  | byte (v : Int8) : Echoes (.byte v) ⟨.byte, v⟩
  | octet (v : UInt8) : Echoes (.octet v) ⟨.octet, v⟩
  | bytes (v : List UInt8) : Echoes (.bytes v) ⟨.bytes v.length, v⟩
  | block (v : List UInt8) : Echoes (.bytes v) ⟨.block v.length, v⟩
  | short (v : Int16) : Echoes (.short v) ⟨.short, v⟩
  | char (v : Char) : Echoes (.char v) ⟨.char, v⟩
  | int (v : Int32) : Echoes (.int v) ⟨.int, v⟩
  | compactInt (v : Int32) : Echoes (.compactInt v) ⟨.compactInt, v⟩
  | long (v : Int64) : Echoes (.long v) ⟨.long, v⟩
  | compactLong (v : Int64) : Echoes (.compactLong v) ⟨.compactLong, v⟩
  | float (bits : UInt32) : Echoes (.float bits) ⟨.float, bits⟩
  | double (bits : UInt64) : Echoes (.double bits) ⟨.double, bits⟩
  | text (v : String) : Echoes (.text v) ⟨.text, v⟩

def Writer.fields (d : Dialect) (fs : List Field) : Action Bench Unit := fs.forM (field d)

def Reader.requests (d : Dialect) (rs : List Request) : Action Bench (List Echo) :=
  rs.mapM fun r => Sigma.mk r <$> request d r

theorem Writer.fields_cons (d : Dialect) (f : Field) (fs : List Field) :
    fields d (f :: fs) = field d f >>= fun _ => fields d fs := rfl

theorem Reader.requests_cons (d : Dialect) (r : Request) (rs : List Request) :
    requests d (r :: rs) =
      (Sigma.mk r <$> request d r) >>= fun echo => (echo :: ·) <$> requests d rs := by
  rw [requests, List.mapM_cons]
  rfl

/-! ### One field -/

/-- Wherever the field has been written, it stands as bytes from which the request is answered
so. -/
def Field.Returns (f : Field) (r : Request) (a : r.Answer) : Prop :=
  ∀ ⦃d object s t⦄, s.buffer.Live → Writer.writeField d object f s = (.ok (), t) →
    ∃ e, s.buffer.Appended e t.buffer ∧
      ∀ d object levels, Yields (Source.bench levels) (Reader.answer d object r) e a

variable {f : Field} {r : Request} {a : r.Answer} {e : List UInt8} {write : Action Buffer Unit}

theorem Field.returns_of_appends
    (hwrite : ∀ d object, Writer.writeField d object f = Bench.onBuffer write)
    (happends : Appends Sink.buffer write e)
    (hyields : ∀ d object levels, Yields (Source.bench levels) (Reader.answer d object r) e a) :
    f.Returns r a := by
  rintro d object s t hs hw
  rw [hwrite] at hw
  obtain ⟨hok, rfl⟩ := Prod.mk.inj hw
  exact ⟨e, happends.grown hs (Prod.ext hok rfl), hyields⟩

theorem Field.returns_of_parses {read : Action Buffer r.Answer} {W : r.Answer → List UInt8 → Prop}
    (hwrite : ∀ d object, Writer.writeField d object f = Bench.onBuffer write)
    (hread : ∀ d object, Reader.answer d object r = Bench.onBuffer read)
    (happends : Appends Sink.buffer write e) (hparses : Parses Source.buffer read W) (ha : W a e) :
    f.Returns r a := by
  refine returns_of_appends hwrite happends fun d object levels => ?_
  rw [hread]
  exact Bench.yields_onBuffer (hparses.spells a e ha).yields

theorem Field.returns_of_fail {g : Failure}
    (hwrite : ∀ d object, Writer.writeField d object f = Bench.onBuffer (Action.fail g)) :
    f.Returns r a := by
  intro d object s t _ hw
  rw [hwrite] at hw
  cases hw

theorem Field.returns_char (c : Char) : Field.Returns (.char c) .char c := by
  by_cases hc : c.toNat < 0x10000
  · exact returns_of_parses (fun _ _ => rfl) (fun _ _ => rfl) (Writer.appends_writeChar hc)
      Reader.parses_readChar ⟨hc, rfl⟩
  · refine returns_of_fail (g := Fault.outsidePlane (Text.quoted c)) fun d object => ?_
    exact congrArg Bench.onBuffer (if_neg hc)

theorem Field.returns_text (s : String) : Field.Returns (.text s) .text s := by
  rcases Nat.lt_or_ge Text.maxLength (Text.bytes s).length with hlong | hfits
  · exact returns_of_fail fun d object => congrArg Bench.onBuffer (Text.write_of_long hlong)
  · refine returns_of_appends (fun _ _ => rfl) (Text.appends_write hfits) fun d object levels => ?_
    have hform := Text.form_wire hfits
    exact ((Bench.parses_onScratch fun _ => Text.parses_read).spells s _ hform).yields

theorem Field.returns_flags (v : Option (List Bool)) :
    Field.Returns (.flags v) .flags (v.filter (! ·.isEmpty)) := by
  have hanswer : v.filter (! ·.isEmpty) =
      if (v.getD []).isEmpty then none else some (v.getD []) := by
    cases v with
    | none => rfl
    | some values => cases values <;> rfl
  rw [hanswer]
  exact returns_of_appends (fun _ _ => rfl) (Compact.Flags.appends_write v) fun d object levels =>
    Bench.yields_onBuffer (Compact.Flags.yields_read (v.getD []))

theorem Field.Echoes.returns {echo : Echo} (h : f.Echoes echo) : f.Returns echo.1 echo.2 := by
  cases h with
  | bool v =>
      exact returns_of_parses (fun _ _ => rfl) (fun _ _ => rfl) (Buffer.appends_writeBool v)
        Buffer.parses_readBool rfl
  | flags v => exact returns_flags v
  | byte v =>
      exact returns_of_parses (fun _ _ => rfl) (fun _ _ => rfl) (Buffer.appends_writeByte v)
        Buffer.parses_readByte rfl
  | octet v =>
      exact returns_of_parses (fun _ _ => rfl) (fun _ _ => rfl) (Buffer.appends_writeOctet v)
        Buffer.parses_readOctet rfl
  | bytes v =>
      exact returns_of_parses (fun _ _ => rfl) (fun _ _ => rfl) (Buffer.appends_writeBytes v)
        (Buffer.parses_take "read_bytes" v.length) ⟨rfl, rfl⟩
  | block v =>
      exact returns_of_parses (fun _ _ => rfl) (fun _ _ => rfl) (Buffer.appends_writeBytes v)
        (Reader.parses_readBlock v.length) ⟨rfl, rfl⟩
  | short v =>
      exact returns_of_parses (fun _ _ => rfl) (fun _ _ => rfl) (Buffer.appends_writeShort v)
        Buffer.parses_readShort rfl
  | char v => exact returns_char v
  | int v =>
      exact returns_of_parses (fun _ _ => rfl) (fun _ _ => rfl) (Buffer.appends_writeInt v)
        Buffer.parses_readInt rfl
  | compactInt v =>
      exact returns_of_parses (fun _ _ => rfl) (fun _ _ => rfl) (Compact.Int32.appends_write v)
        Compact.Int32.parses_read (Compact.Int32.form_encode v)
  | long v =>
      exact returns_of_parses (fun _ _ => rfl) (fun _ _ => rfl) (Buffer.appends_writeLong v)
        Buffer.parses_readLong rfl
  | compactLong v =>
      exact returns_of_parses (fun _ _ => rfl) (fun _ _ => rfl) (Compact.Int64.appends_write v)
        Compact.Int64.parses_read (Compact.Int64.form_encode v)
  | float bits =>
      exact returns_of_parses (fun _ _ => rfl) (fun _ _ => rfl) (Buffer.appends_writeFloat bits)
        Buffer.parses_readFloat rfl
  | double bits =>
      exact returns_of_parses (fun _ _ => rfl) (fun _ _ => rfl) (Buffer.appends_writeDouble bits)
        Buffer.parses_readDouble rfl
  | text v => exact returns_text v

/-! ### Many fields -/

variable {d d' : Dialect} {fs : List Field} {echoes : List Echo} {s t u : Bench}

theorem Writer.exists_of_fields (d' : Dialect) (h : List.Forall₂ Field.Echoes fs echoes)
    (hs : s.buffer.Live) (hw : fields d fs s = (.ok (), t)) :
    ∃ e, s.buffer.Appended e t.buffer ∧
      Yields (Source.bench 0) (Reader.requests d' (echoes.map Sigma.fst)) e echoes := by
  induction h generalizing s with
  | nil =>
      cases hw
      exact ⟨[], .refl hs, Yields.pure (Source.bench 0) []⟩
  | @cons f echo fs echoes hecho _ ih =>
      rw [fields_cons] at hw
      rcases hfirst : field d f s with ⟨g | ⟨⟩, s'⟩
      · rw [Action.bind_of_error hfirst] at hw
        cases hw
      · rw [Action.bind_of_ok hfirst] at hw
        obtain ⟨e, happended, hyields⟩ := hecho.returns hs hfirst
        obtain ⟨e', happended', hyields'⟩ := ih happended.live hw
        refine ⟨e ++ e', happended.trans happended', ?_⟩
        have hrequest : Yields (Source.bench 0) (Reader.request d' echo.1) e echo.2 :=
          Reader.yields_request fun m _ => hyields d' _ m
        rw [List.map_cons, Reader.requests_cons]
        exact (hrequest.map (Sigma.mk echo.1)).bind (hyields'.map (echo :: ·))

/-- Fields that have been written to a live buffer, wherever it stood and however it had to grow,
are read back from the place where the writing began, through a scratch area of any size. The reader
ends at the writer. -/
theorem Stream.reads_back (hechoes : List.Forall₂ Field.Echoes fs echoes) (hs : s.buffer.Live)
    (hwritten : Writer.fields d fs s = (.ok (), t))
    (hu : u.buffer = { t.buffer with reader := s.buffer.writer })
    (hscratch : 0 < u.work.scratch.length) :
    ∃ u', Reader.requests d' (echoes.map Sigma.fst) u = (.ok echoes, u') ∧
      u'.buffer = { t.buffer with reader := t.buffer.writer } := by
  obtain ⟨e, happended, hyields⟩ := Writer.exists_of_fields d' hechoes hs hwritten
  have hlive : u.buffer.Live := by
    rw [hu]
    refine ⟨happended.live.present, ?_, happended.live.writer_le_capacity,
      happended.live.capacity_le_limit⟩
    show s.buffer.writer ≤ t.buffer.writer
    rw [happended.writer]
    exact Nat.le_add_right _ _
  -- what stands behind the place where the writing began is what was written
  have hin : u.buffer.ahead = e ++ [] := by
    rw [hu]
    show t.buffer.written.drop s.buffer.writer = e ++ []
    rw [happended.written, List.append_nil, List.drop_left' hs.length_written]
  obtain ⟨u', hread, -, hmoved, -, -⟩ := hyields ⟨hlive, hscratch, Nat.zero_le _⟩ hin
  refine ⟨u', hread, ?_⟩
  rw [hmoved, hu, happended.writer]
  rfl

/-! A mixture in a buffer that starts full, so that it grows under the writer. -/

namespace Sample

def notes : List Field :=
  [.char 'é', .compactInt (-300), .flags (some []), .bytes [1, 2], .compactLong 70000, .bool true,
    .double 0x7FF8000000000001]

def noteEchoes : List Echo :=
  [⟨.char, 'é'⟩, ⟨.compactInt, (-300 : Int32)⟩, ⟨.flags, (none : Option (List Bool))⟩,
    ⟨.block 2, [1, 2]⟩, ⟨.compactLong, (70000 : Int64)⟩, ⟨.bool, true⟩,
    ⟨.double, (0x7FF8000000000001 : UInt64)⟩]

theorem notes_echoes : List.Forall₂ Field.Echoes notes noteEchoes :=
  .cons (.char _) <| .cons (.compactInt _) <| .cons (.flags _) <| .cons (.block _) <|
    .cons (.compactLong _) <| .cons (.bool _) <| .cons (.double _) .nil

def plainDialect : Dialect := ⟨{}, [], [], []⟩

/-- A bench with the given buffer, and a scratch area of one byte. -/
def benchOn (b : Buffer) : Bench := ⟨b, Workspace.fresh [0] false 1, ⟨[], []⟩⟩

def full : Buffer := ⟨Region.ofBytes [7, 7, 7], 1, 3, 1000⟩

end Sample

theorem Stream.reads_back_notes :
    ∃ t, Writer.fields Sample.plainDialect Sample.notes (Sample.benchOn Sample.full) = (.ok (), t) ∧
      ∃ u', Reader.requests Sample.plainDialect (Sample.noteEchoes.map Sigma.fst)
          (Sample.benchOn { t.buffer with reader := 3 }) = (.ok Sample.noteEchoes, u') ∧
        u'.buffer = { t.buffer with reader := t.buffer.writer } := by
  have hwritten : (Writer.fields Sample.plainDialect Sample.notes
      (Sample.benchOn Sample.full)).1 = .ok () := rfl
  have hlive : Sample.full.Live := ⟨rfl, by decide, by decide, by decide⟩
  refine ⟨_, Prod.ext hwritten rfl, ?_⟩
  exact Stream.reads_back Sample.notes_echoes hlive (Prod.ext hwritten rfl) rfl Nat.one_pos

end Wireform

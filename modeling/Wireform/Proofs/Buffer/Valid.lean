import Wireform.Buffer.Access
import Wireform.Proofs.Buffer.Live
import Wireform.Proofs.Conduct

/-!
What is always true of a buffer. The cursors are in order and below the limit,
and as long as there is a storage the writer stays in it and the storage stays
below the limit. A valid buffer may have lost its storage: its cursors then
stay where they are, so whoever looks at them has still to find them in order.

Two conducts say what may be done to a valid buffer. Who reads moves the reader
and nothing else. Who handles a buffer may change everything about it but its
limit, leaves it valid, and never makes its storage smaller or brings one back
that is gone. No failure on a valid buffer is fatal: nothing is ever sliced
outside the storage.
-/

namespace Wireform

/-- Whether a fault is one that callers get to see and that has nothing to do with levels. -/
def Fault.ordinary : Fault → Bool
  | .stray .. | .excess .. | .nestingLimit .. => false
  | _ => true

/-- The failure is one that callers get to see, it carries no frames as yet, and it is not for want
of levels. -/
structure Failure.Plain (f : Failure) : Prop where
  fatal : f.fatal = false
  frames : f.frames = []
  levels : ∀ limit, f.fault ≠ .nestingLimit limit

theorem Fault.plain {f : Fault} (h : f.ordinary = true) : f.failure.Plain := by
  cases f with
  | stray | excess | nestingLimit => cases h
  | _ => exact ⟨rfl, rfl, nofun⟩

namespace Buffer

/-- The cursors of the buffer are in order, whether or not its storage is still there. -/
structure Valid (b : Buffer) : Prop where
  reader_le_writer : b.reader ≤ b.writer
  writer_le_limit : b.writer ≤ b.limit
  stored : ∀ bytes, b.region.storage = some bytes → b.writer ≤ bytes.size ∧ bytes.size ≤ b.limit

structure Follows (b b' : Buffer) : Prop where
  valid : b'.Valid
  limit : b'.limit = b.limit
  grows : ∀ bytes', b'.region.storage = some bytes' →
    ∃ bytes, b.region.storage = some bytes ∧ bytes.size ≤ bytes'.size

variable {b b' b'' : Buffer}

theorem Live.valid (h : b.Live) : b.Valid where
  reader_le_writer := h.reader_le_writer
  writer_le_limit := Nat.le_trans h.writer_le_capacity h.capacity_le_limit
  stored := by
    intro bytes hbytes
    obtain ⟨bytes', hbytes', -, hcapacity⟩ := h.storage_eq
    rw [hbytes] at hbytes'
    cases hbytes'
    rw [← hcapacity]
    exact ⟨h.writer_le_capacity, h.capacity_le_limit⟩

theorem Valid.live (h : b.Valid) {bytes : Array UInt8} (hbytes : b.region.storage = some bytes) :
    b.Live := by
  obtain ⟨hwriter, hsize⟩ := h.stored bytes hbytes
  have hcapacity : b.capacity = bytes.size := by simp [capacity, Region.capacity, hbytes]
  exact ⟨by rw [hbytes]; rfl, h.reader_le_writer, by rwa [hcapacity], by rwa [hcapacity]⟩

theorem Valid.live_of_isSome (h : b.Valid) (hpresent : b.region.storage.isSome) : b.Live := by
  obtain ⟨bytes, hbytes⟩ := Option.isSome_iff_exists.mp hpresent
  exact h.live hbytes

/-- A valid buffer has given up its storage or is live. -/
theorem Valid.cases (h : b.Valid) : b.region.storage = none ∨ b.Live := by
  cases hstorage : b.region.storage with
  | none => exact .inl rfl
  | some bytes => exact .inr (h.live hstorage)

theorem Valid.moveReader (h : b.Valid) {r : Nat} (hr : r ≤ b.writer) :
    Valid { b with reader := r } :=
  ⟨hr, h.writer_le_limit, h.stored⟩

theorem Follows.refl (h : b.Valid) : b.Follows b :=
  ⟨h, rfl, fun bytes hbytes => ⟨bytes, hbytes, Nat.le_refl _⟩⟩

theorem Follows.trans (h : b.Follows b') (h' : b'.Follows b'') : b.Follows b'' where
  valid := h'.valid
  limit := h'.limit.trans h.limit
  grows := by
    intro bytes'' hbytes''
    obtain ⟨bytes', hbytes', hle'⟩ := h'.grows bytes'' hbytes''
    obtain ⟨bytes, hbytes, hle⟩ := h.grows bytes' hbytes'
    exact ⟨bytes, hbytes, Nat.le_trans hle hle'⟩

/-- Who leaves storage and limit alone has only to keep the cursors in order. -/
theorem Follows.of_storage (hvalid : b'.Valid) (hlimit : b'.limit = b.limit)
    (hstorage : b'.region.storage = b.region.storage) : b.Follows b' where
  valid := hvalid
  limit := hlimit
  grows := fun bytes hbytes => ⟨bytes, hstorage ▸ hbytes, Nat.le_refl _⟩

/-- A buffer of its own, with nothing done to it as yet. -/
structure Fresh (b : Buffer) : Prop where
  live : b.Live
  unlocked : b.region.locks = 0

theorem fresh_create (initial limit : Nat) : (create initial limit).Fresh where
  live := by
    refine ⟨rfl, Nat.le_refl 0, Nat.zero_le _, ?_⟩
    have hcapacity : (create initial limit).capacity = min initial (min limit maxLimit) :=
      Array.size_replicate
    rw [hcapacity]
    exact Nat.min_le_right _ _
  unlocked := rfl

theorem fresh_ofBytes (bytes : List UInt8) : (ofBytes bytes).Fresh := ⟨live_ofBytes bytes, rfl⟩

theorem valid_create (initial limit : Nat) : (create initial limit).Valid :=
  (fresh_create initial limit).live.valid

theorem valid_ofBytes (bytes : List UInt8) : (ofBytes bytes).Valid := (live_ofBytes bytes).valid

end Buffer

namespace Conduct

open Buffer

/-- Moving the reader up to the writer, and nothing else. -/
def reading : Conduct Buffer where
  Fit := Valid
  Moves b b' := ∃ r, r ≤ b.writer ∧ b' = { b with reader := r }
  Fails := Failure.Plain
  refl := fun {b} h => ⟨b.reader, h.reader_le_writer, rfl⟩
  trans := by
    rintro b _ _ ⟨r, -, rfl⟩ ⟨r', hr', rfl⟩
    exact ⟨r', hr', rfl⟩
  fit := by
    rintro b _ h ⟨r, hr, rfl⟩
    exact h.moveReader hr

def handling : Conduct Buffer where
  Fit := Valid
  Moves := Follows
  Fails := Failure.Plain
  refl := Follows.refl
  trans := Follows.trans
  fit := fun _ h => h.valid

end Conduct

theorem Obeys.handling {α : Type} {act : Action Buffer α} (h : Obeys Conduct.reading act) :
    Obeys Conduct.handling act := by
  refine h.mono (fun _ hb => hb) ?_ (fun _ hf => hf)
  rintro b _ hb ⟨r, hr, rfl⟩
  exact .of_storage (hb.moveReader hr) rfl rfl

namespace Buffer

variable {α : Type} {b : Buffer}

/-! ### Reading -/

/-- Reading from a gone storage fails, and of a live buffer it may be known what it does. -/
theorem reading_of_live {act : Action Buffer α}
    (hgone : ∀ b, b.Valid → b.region.storage = none → ∃ f, act b = (.error f, b) ∧ f.Plain)
    (hlive : ∀ b, b.Live → (∃ a n, n ≤ b.ahead.length ∧ act b = (.ok a, b.advance n)) ∨
      ∃ f, act b = (.error f, b) ∧ f.Plain) : Obeys Conduct.reading act := by
  have hstays : ∀ b f, b.Valid → act b = (.error f, b) → f.Plain →
      Conduct.reading.Moves b (act b).2 ∧ ∀ g, (act b).1 = .error g → g.Plain := by
    intro b f hb hact hf
    rw [hact]
    refine ⟨Conduct.reading.refl hb, fun g hg => ?_⟩
    cases hg
    exact hf
  intro b hb
  rcases hb.cases with hnone | h
  · obtain ⟨f, hact, hf⟩ := hgone b hb hnone
    exact hstays b f hb hact hf
  · rcases hlive b h with ⟨a, n, hn, hact⟩ | ⟨f, hact, hf⟩
    · have hle := h.reader_le_writer
      rw [h.length_ahead, readableBytes] at hn
      rw [hact]
      exact ⟨⟨b.reader + n, by omega, rfl⟩, fun _ hg => by cases hg⟩
    · exact hstays b f hb hact hf

theorem reading_take (operation : String) (n : Nat) :
    Obeys Conduct.reading (take operation n) := by
  refine reading_of_live (fun b _ hnone => ?_) fun b h => ?_
  · unfold take
    split
    · exact ⟨_, rfl, Fault.plain rfl⟩
    · rw [hnone]
      exact ⟨_, rfl, Fault.plain rfl⟩
  · rcases Nat.lt_or_ge b.ahead.length n with hlt | hle
    · exact .inr ⟨_, take_of_lt operation h hlt, Fault.plain rfl⟩
    · exact .inl ⟨_, n, hle, take_of_le operation h hle⟩

theorem reading_peekOctet : Obeys Conduct.reading peekOctet := by
  refine reading_of_live (fun b _ hnone => ?_) fun b h => ?_
  · unfold peekOctet
    split
    · rw [hnone]
      exact ⟨_, rfl, Fault.plain rfl⟩
    · exact ⟨_, rfl, Fault.plain rfl⟩
  · cases hahead : b.ahead with
    | nil => exact .inr ⟨_, peekOctet_of_nil h hahead, Fault.plain rfl⟩
    | cons x rest => exact .inl ⟨x, 0, Nat.zero_le _, peekOctet_of_ahead h hahead⟩

theorem reading_readInto (room : Nat) : Obeys Conduct.reading (readInto room) := by
  refine reading_of_live (fun b _ hnone => ?_) fun b h => ?_
  · unfold readInto
    rw [hnone]
    exact ⟨_, rfl, Fault.plain rfl⟩
  · exact .inl ⟨_, _, Nat.min_le_left _ _, readInto_of_live room h⟩

theorem reading_toBytes : Obeys Conduct.reading toBytes := by
  refine reading_of_live (fun b _ hnone => ?_) fun b h => ?_
  · unfold toBytes
    rw [hnone]
    exact ⟨_, rfl, Fault.plain rfl⟩
  · exact .inl ⟨_, 0, Nat.zero_le _, toBytes_of_live h⟩

theorem reading_setReader (index : Nat) : Obeys Conduct.reading (setReader index) := by
  intro b hb
  unfold setReader
  split
  · refine ⟨Conduct.reading.refl hb, fun f hf => ?_⟩
    cases hf
    exact Fault.plain rfl
  · next hle => exact ⟨⟨index, Nat.not_lt.mp hle, rfl⟩, fun _ hf => by cases hf⟩

theorem reading_takeNumber (operation : String) (width : Nat) :
    Obeys Conduct.reading (takeNumber operation width) :=
  (reading_take operation width).map _

theorem reading_readShort : Obeys Conduct.reading readShort :=
  (reading_takeNumber "read_short" 2).map _

theorem reading_readBool : Obeys Conduct.reading readBool := by
  refine (reading_takeNumber _ 1).bind fun n => ?_
  split
  · exact .pure _
  · exact .pure _
  · exact .fail (Fault.plain rfl)

end Buffer

namespace Compact

open Buffer

theorem Marker.reading_read (format : String) (full : Nat) :
    Obeys Conduct.reading (Marker.read format full) := by
  refine ((reading_takeNumber _ 1).map _).bind fun marker => ?_
  split
  · exact .pure _
  · exact .fail (Fault.plain rfl)

theorem Int32.reading_read : Obeys Conduct.reading Int32.read :=
  (Marker.reading_read _ 4).bind fun _ => (reading_take _ _).bind fun _ => .pure _

theorem Int64.reading_read : Obeys Conduct.reading Int64.read :=
  (Marker.reading_read _ 8).bind fun _ => (reading_take _ _).bind fun _ => .pure _

theorem Flags.reading_readChunks (fuel : Nat) (before : List Bool) :
    Obeys Conduct.reading (Flags.readChunks fuel before) := by
  induction fuel generalizing before with
  | zero =>
      intro b hb
      refine ⟨Conduct.reading.refl hb, fun f hf => ?_⟩
      cases hf
      exact Fault.plain rfl
  | succ fuel ih =>
      refine reading_peekOctet.bind fun header => ?_
      split
      · exact .fail (Fault.plain rfl)
      · split
        · exact ((reading_takeNumber _ 1).map _).bind fun _ => .pure _
        · exact .fail (Fault.plain rfl)
      · refine (reading_take _ _).bind fun bytes => ?_
        simp only
        split
        · exact ih _
        · exact .pure _

theorem Flags.reading_read : Obeys Conduct.reading Flags.read :=
  Obeys.get.bind fun _ => Flags.reading_readChunks _ _

end Compact

/-! ### Handling -/

namespace Buffer

variable {bytes bytes' : Array UInt8} {locks : Int} {reader writer writer' limit : Nat}

theorem size_le_grown (bytes : Array UInt8) (required limit : Nat) :
    bytes.size ≤ (grown bytes required limit).size := by
  unfold grown
  split
  · exact Nat.le_refl _
  · rw [Array.size_append]
    exact Nat.le_add_right _ _

/-- The writer moves over bytes that have been laid into a storage that may have grown. -/
theorem follows_grown (h : Valid ⟨⟨some bytes, locks⟩, reader, writer, limit⟩)
    (hwriter : writer ≤ writer') (hsize : bytes'.size = (grown bytes writer' limit).size)
    (hroom : writer' ≤ limit) :
    Follows ⟨⟨some bytes, locks⟩, reader, writer, limit⟩
      ⟨⟨some bytes', locks⟩, reader, writer', limit⟩ := by
  have hgrown := size_le_grown bytes writer' limit
  obtain ⟨-, hlow, hhigh⟩ := toList_grown (h.stored bytes rfl).2 hroom
  rw [← hsize] at hgrown hlow hhigh
  refine ⟨⟨Nat.le_trans h.reader_le_writer hwriter, hroom, ?_⟩, rfl, ?_⟩
  · intro _ hbytes
    cases hbytes
    exact ⟨hlow, hhigh⟩
  · intro _ hbytes
    cases hbytes
    exact ⟨bytes, rfl, hgrown⟩

/-- An action that looks at the lock counter, or at anything else, may fail on the spot. -/
theorem handling_fails {b : Buffer} {f : Failure} (hb : b.Valid) (hf : f.Plain) :
    Conduct.handling.Moves b b ∧ ∀ g, (.error f : Except Failure α) = .error g → g.Plain := by
  refine ⟨Follows.refl hb, fun g hg => ?_⟩
  cases hg
  exact hf

theorem handling_put (operation : String) (data : List UInt8) :
    Obeys Conduct.handling (put operation data) := by
  rintro ⟨⟨_ | bytes, locks⟩, reader, writer, limit⟩ hb
  · exact handling_fails hb (Fault.plain rfl)
  · rw [put]
    split
    · exact handling_fails hb (Fault.plain rfl)
    · next hroom =>
      exact ⟨follows_grown hb (Nat.le_add_right _ _) (size_overwrite _ _ _)
        (Nat.not_lt.mp hroom), fun _ hf => by cases hf⟩

theorem handling_copyWithin {b : Buffer} (hb : b.Valid) {source count : Nat}
    (hsource : ∀ bytes, b.region.storage = some bytes → source + count ≤ bytes.size) :
    Follows b (copyWithin source count b).2 ∧
      ∀ f, (copyWithin source count b).1 = .error f → f.Plain := by
  obtain ⟨⟨_ | bytes, locks⟩, reader, writer, limit⟩ := b
  · exact handling_fails hb (Fault.plain rfl)
  · rw [copyWithin]
    split
    · exact handling_fails hb (Fault.plain rfl)
    · next hroom =>
      have hsize := size_le_grown bytes (writer + count) limit
      have hslice := slice_of_le (Nat.le_add_right source count)
        (Nat.le_trans (hsource bytes rfl) hsize)
      simp only [hslice]
      exact ⟨follows_grown hb (Nat.le_add_right _ _) (size_overwrite _ _ _)
        (Nat.not_lt.mp hroom), fun _ hf => by cases hf⟩

theorem handling_setWriter (index : Nat) : Obeys Conduct.handling (setWriter index) := by
  intro b hb
  rcases hb.cases with hnone | h
  · have hgone : setWriter index b = (.error Fault.released, b) :=
      Action.bind_of_error (by rw [storage, hnone])
    rw [hgone]
    exact handling_fails hb (Fault.plain rfl)
  · obtain ⟨bytes, hbytes, -, -⟩ := h.storage_eq
    have hset : setWriter index b = _ := Action.bind_of_ok (by rw [storage, hbytes])
    have hlimit := (hb.stored bytes hbytes).2
    rw [hset]
    split
    · exact handling_fails hb (Fault.plain rfl)
    · next hrange =>
      refine ⟨.of_storage ⟨by simp only; omega, by simp only; omega, ?_⟩ rfl rfl,
        fun _ hf => by cases hf⟩
      intro bytes' hbytes'
      obtain rfl : bytes = bytes' := Option.some.inj (hbytes.symm.trans hbytes')
      exact ⟨by simp only; omega, hlimit⟩

theorem handling_clear : Obeys Conduct.handling (Action.modify clear) := by
  intro b hb
  have hvalid : b.clear.Valid :=
    ⟨Nat.le_refl 0, Nat.zero_le _, fun bytes hbytes => ⟨Nat.zero_le _, (hb.stored bytes hbytes).2⟩⟩
  exact ⟨.of_storage hvalid rfl rfl, fun _ hf => by cases hf⟩

theorem handling_lock : Obeys Conduct.handling lock := by
  intro b hb
  unfold lock
  split
  · exact handling_fails hb (Fault.plain rfl)
  · exact ⟨.of_storage ⟨hb.reader_le_writer, hb.writer_le_limit, hb.stored⟩ rfl rfl,
      fun _ hf => by cases hf⟩

theorem handling_release : Obeys Conduct.handling release := by
  intro b hb
  unfold release
  split
  · exact handling_fails hb (Fault.plain rfl)
  · simp only
    split
    · exact ⟨⟨⟨hb.reader_le_writer, hb.writer_le_limit, fun _ hbytes => by cases hbytes⟩, rfl,
        fun _ hbytes => by cases hbytes⟩, fun _ hf => by cases hf⟩
    · exact ⟨.of_storage ⟨hb.reader_le_writer, hb.writer_le_limit, hb.stored⟩ rfl rfl,
        fun _ hf => by cases hf⟩

end Buffer

/-! ### Whatever appends -/

section Appending

variable {C : Conduct Buffer}
  (hput : ∀ operation data, Obeys C (Buffer.put operation data))

include hput

theorem Buffer.obeys_writeChunks (chunks : List (List UInt8)) (remaining : Nat) :
    Obeys C (writeChunks chunks remaining) := by
  induction chunks generalizing remaining with
  | nil => exact .pure _
  | cons chunk chunks ih =>
      unfold writeChunks
      split
      · exact .pure _
      · split
        · exact ih remaining
        · refine (hput _ _).bind fun _ => ?_
          split
          · exact .pure _
          · exact ih _

theorem Buffer.obeys_writeFrom (chunks : List (List UInt8)) : Obeys C (writeFrom chunks) :=
  Obeys.get.bind fun _ => (obeys_writeChunks hput _ _).bind fun _ => .pure _

theorem Compact.Flags.obeys_writeChunks (chunks : List (List UInt8)) :
    Obeys C (writeChunks chunks) := by
  induction chunks with
  | nil => exact .pure _
  | cons chunk rest ih => exact (hput _ _).bind fun _ => ih

theorem Compact.Flags.obeys_write (values : Option (List Bool)) : Obeys C (write values) := by
  unfold write
  split
  · exact hput _ _
  · exact obeys_writeChunks hput _

open Buffer in
/-- An access reads, appends, moves a cursor, or counts the locks. Of the last two kinds a conduct has
only to allow what is asked for. -/
theorem Access.obeys_run (hread : ∀ {α : Type} {act : Action Buffer α},
      Obeys Conduct.reading act → Obeys C act) {a : Access}
    (hset : ∀ index, a = .setWriter index → Obeys C (Buffer.setWriter index))
    (hclear : a = .clear → Obeys C (Action.modify Buffer.clear))
    (hlock : a = .lock → Obeys C Buffer.lock)
    (hrelease : a = .release → Obeys C Buffer.release) : Obeys C a.run := by
  cases a with
  | writeFlags values => exact Compact.Flags.obeys_write hput values
  | writeFrom chunks => exact obeys_writeFrom hput chunks
  | readBool => exact hread reading_readBool
  | peekOctet => exact hread reading_peekOctet
  | readBytes n => exact hread (reading_take _ n)
  | readCompactInt => exact hread Compact.Int32.reading_read
  | readCompactLong => exact hread Compact.Int64.reading_read
  | readFlags => exact hread Compact.Flags.reading_read
  | readInto room => exact hread (reading_readInto room)
  | toBytes => exact hread reading_toBytes
  | setReader index => exact hread (reading_setReader index)
  | setWriter index => exact hset index rfl
  | clear => exact hclear rfl
  | lock => exact hlock rfl
  | release => exact hrelease rfl
  | readByte | readOctet | readShort | readUnit | readInt | readLong | readFloat | readDouble =>
      exact hread ((reading_takeNumber _ _).map _)
  | _ => exact hput _ _

end Appending

theorem Compact.Flags.handling_write (values : Option (List Bool)) :
    Obeys Conduct.handling (write values) :=
  obeys_write Buffer.handling_put values

open Buffer in
theorem Access.handling_run (a : Access) : Obeys Conduct.handling a.run :=
  obeys_run handling_put Obeys.handling (fun index _ => handling_setWriter index)
    (fun _ => handling_clear) (fun _ => handling_lock) (fun _ => handling_release)

end Wireform

import Wireform.Proofs.Compact.Flags
import Wireform.Proofs.Reading.Fields

/-!
Truth values as a reader meets them. A reader takes more than a writer makes:
any run of bytes is a chunk if the first one announces a shape and there are as
many as chunks of that shape have, whatever its count and its other bits say.
What a reader does is settled by the chunks at the front of the input that have
a successor, and by what these stop at: a last chunk, the byte of the absent
list, a byte that no chunk begins with, or an end that comes too early.

That chunks have come before is known to the loop by the values that it has
from them. A chunk of one byte with a count of zero carries none, and behind
such chunks the loop does not know that there have been any.
-/

namespace Wireform.Compact.Flags

def Header.ofByte (x : UInt8) : Header := ofBits (Bits.ofBytes [x])

structure Chunk where
  shape : Shape
  bytes : List UInt8
  length_bytes : bytes.length = shape.width
  announced : bytes.head?.map Header.ofByte = some (.chunk shape)

namespace Chunk

variable (c : Chunk)

def count : Nat :=
  Bits.toNat (((Bits.ofBytes c.bytes).drop c.shape.mark.length).take c.shape.countBits)

def values : List Bool := (chunkContent c.shape (Bits.ofBytes c.bytes)).1

def more : Bool := (chunkContent c.shape (Bits.ofBytes c.bytes)).2

/-- The chunk is of one byte, and its count is zero. -/
def Hollow : Prop := c.shape = .single ∧ c.count = 0

instance : Decidable c.Hollow := inferInstanceAs (Decidable (_ ∧ _))

theorem exists_cons : ∃ x rest, c.bytes = x :: rest ∧ Header.ofByte x = .chunk c.shape := by
  have h := c.announced
  cases hbytes : c.bytes with
  | nil => simp [hbytes] at h
  | cons x rest => exact ⟨x, rest, rfl, by simpa [hbytes] using h⟩

/-- Behind mark and count there is a bit for each value, and one that says whether more follow. -/
theorem length_slots :
    (((Bits.ofBytes c.bytes).drop c.shape.mark.length).drop c.shape.countBits).length =
      c.shape.most + 1 := by
  simp only [List.length_drop, Bits.length_ofBytes, c.length_bytes]
  cases c.shape <;> rfl

theorem count_lt : c.count < Bits.span c.shape.countBits := by
  have h := Bits.toNat_lt_span
    (((Bits.ofBytes c.bytes).drop c.shape.mark.length).take c.shape.countBits)
  have hlen : (((Bits.ofBytes c.bytes).drop c.shape.mark.length).take c.shape.countBits).length =
      c.shape.countBits := by
    simp only [List.length_take, List.length_drop, Bits.length_ofBytes, c.length_bytes]
    cases c.shape <;> rfl
  rwa [hlen] at h

theorem count_le : c.count + c.shape.least - 1 ≤ c.shape.most := by
  have hcount := c.count_lt
  cases hshape : c.shape with
  | single =>
      simp only [hshape, Shape.countBits, Shape.least, Shape.most, Bits.span] at hcount ⊢
      omega
  | double =>
      simp only [hshape, Shape.countBits, Shape.least, Shape.most, Bits.span] at hcount ⊢
      omega
  | quad =>
      simp only [hshape, Shape.countBits, Shape.least, Shape.most, Bits.span] at hcount ⊢
      omega

theorem length_values : c.values.length = c.count + c.shape.least - 1 := by
  rw [values, chunkContent, List.length_take, c.length_slots]
  exact Nat.min_eq_left (Nat.le_succ_of_le c.count_le)

theorem length_values_le : c.values.length ≤ c.shape.most := by
  rw [length_values]
  exact c.count_le

theorem values_eq_nil_iff : c.values = [] ↔ c.Hollow := by
  rw [← List.length_eq_zero_iff, length_values, Hollow]
  cases hshape : c.shape <;> simp [Shape.least]

end Chunk

/-! ### One chunk -/

variable {b b' : Buffer} {fuel : Nat} {before : List Bool} {x : UInt8} {rest : List UInt8}
  {s : Shape} {run : List Chunk}

theorem readChunks_chunk (c : Chunk) (hb : b.Live) (hin : b.ahead = c.bytes ++ rest) :
    readChunks (fuel + 1) before b =
      if c.more then readChunks fuel (before ++ c.values) (b.advance c.bytes.length)
      else (.ok (some (before ++ c.values)), b.advance c.bytes.length) := by
  obtain ⟨x, tail, hbytes, hx⟩ := c.exists_cons
  have hpeek := Buffer.peekOctet_of_ahead hb (by rw [hin, hbytes, List.cons_append])
  have htake : Buffer.readBytes c.shape.width b = (.ok c.bytes, b.advance c.bytes.length) := by
    rw [← c.length_bytes, Buffer.readBytes, Buffer.take_of_le _ hb (by simp [hin]), hin,
      List.take_left]
  rw [Header.ofByte] at hx
  rw [readChunks, Action.bind_of_ok hpeek]
  simp only [hx]
  rw [Action.bind_of_ok htake]
  change (if c.more then readChunks fuel (before ++ c.values)
    else pure (some (before ++ c.values))) (b.advance c.bytes.length) = _
  cases c.more
  · rfl
  · rfl

theorem readChunks_nil (hb : b.Live) (hin : b.ahead = []) :
    readChunks (fuel + 1) before b = (.error (b.underflow "peek_byte" 1), b) := by
  rw [readChunks, Action.bind_of_error (Buffer.peekOctet_of_nil hb hin)]

theorem readChunks_illegal (hx : Header.ofByte x = .illegal) (hb : b.Live)
    (hin : b.ahead = x :: rest) :
    readChunks (fuel + 1) before b =
      (.error (Fault.malformed "bit set"
        s!"illegal chunk header {Text.binaryNumeral 8 x.toNat}" : Failure), b) := by
  rw [Header.ofByte] at hx
  rw [readChunks, Action.bind_of_ok (Buffer.peekOctet_of_ahead hb hin)]
  simp only [hx, Action.fail_apply]

/-- The byte of the absent list is taken where no values have come before it. -/
theorem readChunks_nothing (hx : Header.ofByte x = .nothing) (hb : b.Live)
    (hin : b.ahead = x :: rest) :
    readChunks (fuel + 1) before b =
      if before = [] then (.ok none, b.advance 1)
      else (.error (Fault.malformed "bit set" "null chunk after a continuation flag" : Failure),
        b) := by
  have htake : Buffer.takeNumber "read_unsigned_byte" 1 b =
      (.ok (BigEndian.decode [x]), b.advance 1) := by
    rw [Buffer.takeNumber, Action.map_of_ok]
    rw [Buffer.take_of_le _ hb (by simp [hin]), hin]
    rfl
  rw [Header.ofByte] at hx
  rw [readChunks, Action.bind_of_ok (Buffer.peekOctet_of_ahead hb hin)]
  simp only [hx, List.isEmpty_iff]
  split
  · exact Action.bind_of_ok (Action.map_of_ok _ htake)
  · rfl

theorem readChunks_cut (hx : Header.ofByte x = .chunk s) (hb : b.Live)
    (hin : b.ahead = x :: rest) (hcut : b.ahead.length < s.width) :
    readChunks (fuel + 1) before b = (.error (b.underflow "read_bytes" s.width), b) := by
  rw [Header.ofByte] at hx
  rw [readChunks, Action.bind_of_ok (Buffer.peekOctet_of_ahead hb hin)]
  simp only [hx]
  exact Action.bind_of_error (Buffer.take_of_lt _ hb hcut)

/-! ### Runs of chunks -/

def bytesOf (run : List Chunk) : List UInt8 := run.flatMap Chunk.bytes

def carried (run : List Chunk) : List Bool := run.flatMap Chunk.values

theorem carried_eq_nil_iff : carried run = [] ↔ ∀ c ∈ run, c.Hollow := by
  simp [carried, Chunk.values_eq_nil_iff]

theorem length_le_bytesOf (run : List Chunk) : run.length ≤ (bytesOf run).length := by
  induction run with
  | nil => simp [bytesOf]
  | cons c run ih =>
      have hwidth := c.shape.width_pos
      have hbytes := c.length_bytes
      simp only [bytesOf, List.flatMap_cons, List.length_append, List.length_cons] at ih ⊢
      omega

/-- Chunks that have a successor are read one after the other, and their values collected. -/
theorem readChunks_run (hmore : ∀ c ∈ run, c.more) (hb : b.Live)
    (hin : b.ahead = bytesOf run ++ rest) :
    readChunks (run.length + fuel) before b =
      readChunks fuel (before ++ carried run) (b.advance (bytesOf run).length) := by
  induction run generalizing b before with
  | nil => simp [bytesOf, carried]
  | cons c run ih =>
      have hhead : b.ahead = c.bytes ++ (bytesOf run ++ rest) := by
        simpa [bytesOf] using hin
      have hlive : (b.advance c.bytes.length).Live := hb.advance (by simp [hhead])
      have htail : (b.advance c.bytes.length).ahead = bytesOf run ++ rest := by
        rw [Buffer.ahead_advance, hhead, List.drop_left]
      rw [List.length_cons, Nat.add_right_comm, readChunks_chunk c hb hhead,
        if_pos (hmore c List.mem_cons_self),
        ih (fun d hd => hmore d (List.mem_cons_of_mem c hd)) hlive htail]
      simp [bytesOf, carried, Buffer.advance_advance]

/-- Reading comes through the chunks that have a successor to what stands behind them. The loop has
fuel for that. -/
theorem exists_read_eq (hmore : ∀ c ∈ run, c.more) (hb : b.Live)
    (hin : b.ahead = bytesOf run ++ rest) :
    ∃ fuel t, read b = readChunks (fuel + 1) (carried run) t ∧ t.Live ∧ t.ahead = rest ∧
      t = b.advance (bytesOf run).length := by
  have hlen : b.readableBytes = (bytesOf run).length + rest.length := by
    rw [← hb.length_ahead, hin, List.length_append]
  have hrun := length_le_bytesOf run
  have hfuel : b.readableBytes + 1 = run.length + (b.readableBytes - run.length + 1) := by omega
  refine ⟨b.readableBytes - run.length, b.advance (bytesOf run).length, ?_, ?_, ?_, rfl⟩
  · rw [read, Action.bind_of_ok (Action.get_apply b), hfuel, readChunks_run hmore hb hin,
      List.nil_append]
  · exact hb.advance (by simp [hin])
  · rw [Buffer.ahead_advance, hin, List.drop_left]

inductive Stop : List UInt8 → Prop where
  | nil : Stop []
  | illegal {x : UInt8} {rest : List UInt8} (hx : Header.ofByte x = .illegal) : Stop (x :: rest)
  | nothing {x : UInt8} {rest : List UInt8} (hx : Header.ofByte x = .nothing) : Stop (x :: rest)
  | cut {x : UInt8} {rest : List UInt8} {s : Shape} (hx : Header.ofByte x = .chunk s)
      (hcut : (x :: rest).length < s.width) : Stop (x :: rest)
  | last {c : Chunk} {rest : List UInt8} (hlast : c.more = false) : Stop (c.bytes ++ rest)

/-- Every input begins with chunks that have a successor, perhaps with none, and these stop. -/
theorem exists_run (input : List UInt8) :
    ∃ run rest, (∀ c ∈ run, Chunk.more c) ∧ input = bytesOf run ++ rest ∧ Stop rest := by
  induction hlen : input.length using Nat.strongRecOn generalizing input with
  | ind n ih =>
      cases input with
      | nil => exact ⟨[], [], by simp, rfl, .nil⟩
      | cons x tail =>
          cases hx : Header.ofByte x with
          | illegal => exact ⟨[], x :: tail, by simp, rfl, .illegal hx⟩
          | nothing => exact ⟨[], x :: tail, by simp, rfl, .nothing hx⟩
          | chunk s =>
              by_cases hcut : (x :: tail).length < s.width
              · exact ⟨[], x :: tail, by simp, rfl, .cut hx hcut⟩
              · obtain ⟨width, hwidth⟩ := Nat.exists_eq_add_of_lt s.width_pos
                let c : Chunk := ⟨s, (x :: tail).take s.width,
                  List.length_take_of_le (Nat.not_lt.mp hcut), by simp [hwidth, hx]⟩
                have hsplit : x :: tail = c.bytes ++ (x :: tail).drop s.width :=
                  (List.take_append_drop s.width _).symm
                by_cases hmore : c.more
                · obtain ⟨run, rest, hrun, hrest, hstop⟩ :=
                    ih _ (by simp only [List.length_drop]; omega) ((x :: tail).drop s.width) rfl
                  refine ⟨c :: run, rest, ?_, ?_, hstop⟩
                  · simpa using ⟨hmore, hrun⟩
                  · rw [hrest] at hsplit
                    simpa [bytesOf] using hsplit
                · refine ⟨[], x :: tail, by simp, rfl, ?_⟩
                  rw [hsplit]
                  exact .last (by simpa using hmore)

/-! ### What is accepted -/

/-- The forms of a list of values, and of the absent list: chunks of which each has a successor,
and behind them a last chunk, or the byte of the absent list. In front of that byte there may be
chunks as long as they carry nothing. -/
def Form : Option (List Bool) → List UInt8 → Prop
  | none, e => ∃ run x, (∀ c ∈ run, Chunk.more c) ∧ (∀ c ∈ run, Chunk.Hollow c) ∧
      Header.ofByte x = .nothing ∧ e = bytesOf run ++ [x]
  | some values, e => ∃ (run : List Chunk) (last : Chunk), (∀ c ∈ run, c.more) ∧
      last.more = false ∧ values = carried run ++ last.values ∧ e = bytesOf run ++ last.bytes

section Run

variable (hmore : ∀ c ∈ run, c.more) (hb : b.Live)

include hmore hb

/-- Behind chunks that have a successor the byte of the absent list is taken for an absent list if
none of them carries a value, and is turned away else. -/
theorem read_of_nothing (hx : Header.ofByte x = .nothing)
    (hin : b.ahead = bytesOf run ++ x :: rest) :
    read b = if ∀ c ∈ run, c.Hollow then (.ok none, b.advance ((bytesOf run).length + 1))
      else (.error (Fault.malformed "bit set" "null chunk after a continuation flag" : Failure),
        b.advance (bytesOf run).length) := by
  obtain ⟨fuel, t, hread, ht, hahead, rfl⟩ := exists_read_eq hmore hb hin
  rw [hread, readChunks_nothing hx ht hahead]
  simp [carried_eq_nil_iff, Buffer.advance_advance]

theorem read_of_last {last : Chunk} (hlast : last.more = false)
    (hin : b.ahead = bytesOf run ++ (last.bytes ++ rest)) :
    read b = (.ok (some (carried run ++ last.values)),
      b.advance ((bytesOf run).length + last.bytes.length)) := by
  obtain ⟨fuel, t, hread, ht, hahead, rfl⟩ := exists_read_eq hmore hb hin
  rw [hread, readChunks_chunk last ht hahead]
  simp [hlast, Buffer.advance_advance]

theorem form_of_stop {r : Option (List Bool)} (hin : b.ahead = bytesOf run ++ rest)
    (hstop : Stop rest) (h : read b = (.ok r, b')) :
    ∃ e tail, Form r e ∧ b.ahead = e ++ tail ∧ b' = b.advance e.length := by
  obtain ⟨fuel, t, hread, ht, hahead, -⟩ := exists_read_eq hmore hb hin
  cases hstop with
  | nil =>
      rw [hread, readChunks_nil ht hahead] at h
      cases h
  | illegal hx =>
      rw [hread, readChunks_illegal hx ht hahead] at h
      cases h
  | cut hx hcut =>
      rw [hread, readChunks_cut hx ht hahead (by rwa [hahead])] at h
      cases h
  | @nothing x rest hx =>
      rw [read_of_nothing hmore hb hx hin] at h
      split at h
      · next hhollow =>
        cases h
        refine ⟨bytesOf run ++ [x], rest, ⟨run, x, hmore, hhollow, hx, rfl⟩, by simpa using hin, ?_⟩
        rw [List.length_append, List.length_singleton]
      · cases h
  | @last last rest hlast =>
      rw [read_of_last hmore hb hlast hin] at h
      cases h
      refine ⟨bytesOf run ++ last.bytes, rest, ⟨run, last, hmore, hlast, rfl, rfl⟩,
        by simpa using hin, ?_⟩
      rw [List.length_append]

end Run

theorem form_of_read {r : Option (List Bool)} (hb : b.Live) (h : read b = (.ok r, b')) :
    ∃ e tail, Form r e ∧ b.ahead = e ++ tail ∧ b' = b.advance e.length := by
  obtain ⟨run, rest, hmore, hin, hstop⟩ := exists_run b.ahead
  exact form_of_stop hmore hb hin hstop h

theorem yields_of_form {r : Option (List Bool)} {e : List UInt8} (h : Form r e) :
    Yields Source.buffer read e r := by
  intro b rest hb hin
  have hle : e.length ≤ b.ahead.length := by
    rw [show b.ahead = e ++ rest from hin, List.length_append]
    exact Nat.le_add_right _ _
  refine ⟨b.advance e.length, ?_, hle, rfl⟩
  cases r with
  | none =>
      obtain ⟨run, x, hmore, hhollow, hx, rfl⟩ := h
      rw [read_of_nothing hmore hb hx (hin.trans (List.append_assoc _ _ _)), if_pos hhollow,
        List.length_append, List.length_singleton]
  | some values =>
      obtain ⟨run, last, hmore, hlast, rfl, rfl⟩ := h
      rw [read_of_last hmore hb hlast (hin.trans (List.append_assoc _ _ _)), List.length_append]

/-! ### What a writer makes -/

section Made

variable {values : List Bool} (h : s.Holds values)

def Chunk.made (more : Bool) : Chunk where
  shape := s
  bytes := chunk s values more
  length_bytes := length_chunk h more
  announced := by
    obtain ⟨x, rest, hchunk, hx⟩ := exists_header h more
    simp [hchunk, Header.ofByte, hx]

@[simp] theorem Chunk.values_made (more : Bool) : (made h more).values = values := by
  simp [made, Chunk.values, ofBytes_chunk h, chunkContent_chunkBits h]

@[simp] theorem Chunk.more_made (more : Bool) : (made h more).more = more := by
  simp [made, Chunk.more, ofBytes_chunk h, chunkContent_chunkBits h]

end Made

theorem form_chunk {values : List Bool} (h : s.Holds values) :
    Form (some values) (chunk s values false) :=
  ⟨[], Chunk.made h false, by simp, by simp, by simp [carried], rfl⟩

theorem Form.chunk_append {values rest : List Bool} {e : List UInt8} (h : s.Holds values)
    (hrest : Form (some rest) e) : Form (some (values ++ rest)) (chunk s values true ++ e) := by
  obtain ⟨run, last, hrun, hlast, rfl, rfl⟩ := hrest
  refine ⟨Chunk.made h true :: run, last, ?_, hlast, ?_, ?_⟩
  · simpa using hrun
  · simp [carried]
  · simp [bytesOf, Chunk.made]

theorem form_chunks {values : List Bool} (hne : values ≠ []) :
    Form (some values) (chunks values).flatten := by
  fun_induction chunks values with
  | case1 values hnil => exact absurd (List.length_eq_zero_iff.mp hnil) hne
  | case2 values hlen s rest ih =>
      have hholds : s.Holds (values.take s.most) := Shape.holds_select hne
      have hvalues : values.take s.most ++ rest = values := List.take_append_drop s.most values
      rw [List.flatten_cons, ← chunk]
      by_cases hrest : rest = []
      · have hlast := form_chunk hholds
        rw [hrest, List.append_nil] at hvalues
        rw [hvalues] at hlast
        simpa [hrest, hvalues, chunks] using hlast
      · have hmore := (ih hrest).chunk_append hholds
        have hsome : (!rest.isEmpty) = true := by simpa using hrest
        rw [hvalues] at hmore
        rwa [hsome]

theorem form_wire (values : List Bool) :
    Form (if values.isEmpty then none else some values) (wire values) := by
  cases values with
  | nil => exact ⟨[], nothing, by simp, by simp, by decide, rfl⟩
  | cons v values => exact form_chunks (List.cons_ne_nil v values)

/-- A list of values is read back from its bytes, but an empty one as absent. -/
theorem yields_read (values : List Bool) :
    Yields Source.buffer read (wire values) (if values.isEmpty then none else some values) :=
  yields_of_form (form_wire values)

/-! ### Where the null chunk is taken -/

/-- The byte of the absent list, the null chunk, is taken in front of everything and behind chunks
that carry no value, and turned away behind chunks of which one does. -/
theorem null_chunk_judged (hb : b.Live) :
    (∀ run x rest, (∀ c ∈ run, Chunk.more c) → Header.ofByte x = .nothing →
      b.ahead = bytesOf run ++ x :: rest →
      read b = if ∀ c ∈ run, c.Hollow then (.ok none, b.advance ((bytesOf run).length + 1))
        else (.error (Fault.malformed "bit set" "null chunk after a continuation flag" : Failure),
          b.advance (bytesOf run).length)) ∧
    (∀ b', read b = (.ok none, b') → ∃ run x, (∀ c ∈ run, Chunk.more c ∧ c.Hollow) ∧
      Header.ofByte x = .nothing ∧ b.ahead = bytesOf run ++ x :: b'.ahead) ∧
    ∀ values b', read b = (.ok (some values), b') → ∃ (run : List Chunk) (last : Chunk),
      (∀ c ∈ run, c.more) ∧ last.more = false ∧ b.ahead = bytesOf (run ++ [last]) ++ b'.ahead ∧
      values = carried (run ++ [last]) ∧ (values = [] ↔ ∀ c ∈ run ++ [last], c.Hollow) := by
  refine ⟨fun run x rest hmore hx hin => read_of_nothing hmore hb hx hin, fun b' h => ?_,
    fun values b' h => ?_⟩
  · obtain ⟨e, tail, ⟨run, x, hmore, hhollow, hx, rfl⟩, hin, rfl⟩ := form_of_read hb h
    refine ⟨run, x, fun c hc => ⟨hmore c hc, hhollow c hc⟩, hx, ?_⟩
    rw [Buffer.ahead_advance, hin, List.drop_left]
    simp
  · obtain ⟨e, tail, ⟨run, last, hmore, hlast, hvalues, rfl⟩, hin, rfl⟩ := form_of_read hb h
    have hcarried : values = carried (run ++ [last]) := by simp [hvalues, carried]
    refine ⟨run, last, hmore, hlast, ?_, hcarried, ?_⟩
    · rw [Buffer.ahead_advance, hin, List.drop_left]
      simp [bytesOf]
    · rw [hcarried, carried_eq_nil_iff]

/-- Behind a chunk with one value the null chunk is turned away. Behind one without values it is
taken. -/
theorem null_chunk_judged_second :
    read (Buffer.ofBytes [0x53, 0x40]) =
        (.error (Fault.malformed "bit set" "null chunk after a continuation flag" : Failure),
          (Buffer.ofBytes [0x53, 0x40]).advance 1) ∧
      read (Buffer.ofBytes [0x43, 0x40]) = (.ok none, (Buffer.ofBytes [0x43, 0x40]).advance 2) := by
  let carrying : Chunk := ⟨.single, [0x53], rfl, by decide⟩
  let hollow : Chunk := ⟨.single, [0x43], rfl, by decide⟩
  have hcarrying := (null_chunk_judged (Buffer.live_ofBytes [0x53, 0x40])).1 [carrying] 0x40 []
    (by decide) (by decide) (by simp [bytesOf, carrying])
  have hhollow := (null_chunk_judged (Buffer.live_ofBytes [0x43, 0x40])).1 [hollow] 0x40 []
    (by decide) (by decide) (by simp [bytesOf, hollow])
  rw [if_neg (by decide)] at hcarrying
  rw [if_pos (by decide)] at hhollow
  exact ⟨hcarrying, hhollow⟩

/-- A null chunk that follows another chunk is taken for an absent list, and a list that has been
read is present and empty. -/
theorem null_chunk_missed :
    read (Buffer.ofBytes [0x43, 0x40]) = (.ok none, (Buffer.ofBytes [0x43, 0x40]).advance 2) ∧
      read (Buffer.ofBytes [0x42]) = (.ok (some []), (Buffer.ofBytes [0x42]).advance 1) :=
  ⟨rfl, rfl⟩

end Wireform.Compact.Flags

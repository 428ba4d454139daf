import Wireform.Buffer.Basic

/-!
Live buffers, and what the two operations under all others do to them.

A buffer is live as long as its storage is present and its cursors are in
order: the reader does not pass the writer, the writer stays in the storage,
and the storage stays below the limit. Everything that a live buffer shows of
itself is said by two lists: the bytes before the writer (`written`), and the
end of that list that begins at the reader (`ahead`). A read takes from the
front of `ahead` and moves a cursor, a write appends to `written`, and neither
ever slices outside the storage.
-/

namespace Wireform.Buffer

/-- All bytes of the storage, wherever the cursors are. -/
def content (b : Buffer) : List UInt8 := (b.region.storage.map Array.toList).getD []

def written (b : Buffer) : List UInt8 := b.content.take b.writer

/-- The bytes between the cursors, which are there to be read. -/
def ahead (b : Buffer) : List UInt8 := b.written.drop b.reader

/-- The storage is present and the cursors are in order. -/
structure Live (b : Buffer) : Prop where
  present : b.region.storage.isSome
  reader_le_writer : b.reader ≤ b.writer
  writer_le_capacity : b.writer ≤ b.capacity
  capacity_le_limit : b.capacity ≤ b.limit

def advance (b : Buffer) (n : Nat) : Buffer := { b with reader := b.reader + n }

/-- `b'` is `b` after `data` has been appended at the writer. The capacity may have grown. -/
structure Appended (b : Buffer) (data : List UInt8) (b' : Buffer) : Prop where
  live : b'.Live
  reader : b'.reader = b.reader
  writer : b'.writer = b.writer + data.length
  limit : b'.limit = b.limit
  locks : b'.region.locks = b.region.locks
  written : b'.written = b.written ++ data

section Views

variable {b b' : Buffer} {n : Nat}

theorem Live.storage_eq (h : b.Live) :
    ∃ bytes, b.region.storage = some bytes ∧ b.content = bytes.toList ∧
      b.capacity = bytes.size := by
  obtain ⟨bytes, hbytes⟩ := Option.isSome_iff_exists.mp h.present
  exact ⟨bytes, hbytes, by simp [content, hbytes], by simp [capacity, Region.capacity, hbytes]⟩

theorem Live.writer_le_limit (h : b.Live) : b.writer ≤ b.limit :=
  Nat.le_trans h.writer_le_capacity h.capacity_le_limit

theorem Live.length_content (h : b.Live) : b.content.length = b.capacity := by
  obtain ⟨bytes, -, hcontent, hcapacity⟩ := h.storage_eq
  rw [hcontent, hcapacity, Array.length_toList]

theorem Live.length_written (h : b.Live) : b.written.length = b.writer := by
  have hw := h.writer_le_capacity
  rw [written, List.length_take, h.length_content]
  omega

theorem Live.length_ahead (h : b.Live) : b.ahead.length = b.readableBytes := by
  rw [ahead, List.length_drop, h.length_written, readableBytes]

theorem live_ofBytes (bytes : List UInt8) : (ofBytes bytes).Live where
  present := rfl
  reader_le_writer := Nat.zero_le _
  writer_le_capacity := Nat.le_refl _
  capacity_le_limit := Nat.le_max_right _ _

@[simp] theorem ahead_ofBytes (bytes : List UInt8) : (ofBytes bytes).ahead = bytes :=
  List.take_length

@[simp] theorem advance_zero (b : Buffer) : b.advance 0 = b := rfl

theorem advance_advance (b : Buffer) (m n : Nat) :
    (b.advance m).advance n = b.advance (m + n) := by
  simp [advance, Nat.add_assoc]

@[simp] theorem written_advance (b : Buffer) (n : Nat) : (b.advance n).written = b.written := rfl

theorem ahead_advance (b : Buffer) (n : Nat) : (b.advance n).ahead = b.ahead.drop n := by
  simp [ahead, advance, written, content, List.drop_drop]

theorem Live.advance (h : b.Live) (hn : n ≤ b.ahead.length) : (b.advance n).Live where
  present := h.present
  reader_le_writer := by
    have hr := h.reader_le_writer
    rw [h.length_ahead, readableBytes] at hn
    show b.reader + n ≤ b.writer
    omega
  writer_le_capacity := h.writer_le_capacity
  capacity_le_limit := h.capacity_le_limit

theorem Appended.refl (h : b.Live) : b.Appended [] b :=
  ⟨h, rfl, rfl, rfl, rfl, (List.append_nil _).symm⟩

theorem Appended.trans {b'' : Buffer} {x y : List UInt8} (h : b.Appended x b')
    (h' : b'.Appended y b'') : b.Appended (x ++ y) b'' where
  live := h'.live
  reader := h'.reader.trans h.reader
  writer := by rw [h'.writer, h.writer, List.length_append, Nat.add_assoc]
  limit := h'.limit.trans h.limit
  locks := h'.locks.trans h.locks
  written := by rw [h'.written, h.written, List.append_assoc]

end Views

/-! ### Slices -/

theorem slice_of_le {bytes : Array UInt8} {start stop : Nat} (hstart : start ≤ stop)
    (hstop : stop ≤ bytes.size) :
    slice bytes start stop = .ok ((bytes.toList.take stop).drop start) := by
  rw [slice, if_pos ⟨hstart, hstop⟩, Array.toList_extract, List.extract_eq_take_drop,
    List.drop_take]

theorem Live.slice_ahead {b : Buffer} {n : Nat} {bytes : Array UInt8} (h : b.Live)
    (hbytes : b.region.storage = some bytes) (hn : n ≤ b.ahead.length) :
    slice bytes b.reader (b.reader + n) = .ok (b.ahead.take n) := by
  obtain ⟨bytes', hbytes', hcontent, hcapacity⟩ := h.storage_eq
  obtain rfl : bytes' = bytes := Option.some.inj (hbytes'.symm.trans hbytes)
  have hr := h.reader_le_writer
  have hw := h.writer_le_capacity
  rw [h.length_ahead, readableBytes] at hn
  rw [slice_of_le (Nat.le_add_right b.reader n) (by omega), ahead, written, hcontent,
    List.drop_take, List.drop_take, List.take_take]
  congr 2
  omega

theorem take_of_le {b : Buffer} {n : Nat} (operation : String) (h : b.Live)
    (hn : n ≤ b.ahead.length) : take operation n b = (.ok (b.ahead.take n), b.advance n) := by
  obtain ⟨bytes, hbytes, -, -⟩ := h.storage_eq
  have hreadable : n ≤ b.readableBytes := by rwa [← h.length_ahead]
  rw [take, if_neg (Nat.not_lt.mpr hreadable)]
  simp only [hbytes, h.slice_ahead hbytes hn, advance]

theorem take_of_lt {b : Buffer} {n : Nat} (operation : String) (h : b.Live)
    (hn : b.ahead.length < n) : take operation n b = (.error (b.underflow operation n), b) := by
  rw [take, if_pos (by rwa [← h.length_ahead])]

theorem peekOctet_of_ahead {b : Buffer} {x : UInt8} {rest : List UInt8} (h : b.Live)
    (hahead : b.ahead = x :: rest) : peekOctet b = (.ok x, b) := by
  obtain ⟨bytes, hbytes, hcontent, hcapacity⟩ := h.storage_eq
  have hlen := h.length_ahead
  rw [hahead, List.length_cons, readableBytes] at hlen
  have hreadable : b.readable = true := by
    rw [readable, decide_eq_true_eq]
    omega
  have hnext : bytes[b.reader]? = some x := by
    have hx : (b.ahead)[0]? = some x := by rw [hahead]; rfl
    rw [ahead, written, hcontent, List.getElem?_drop, List.getElem?_take_of_lt (by omega),
      Array.getElem?_toList] at hx
    exact hx
  rw [peekOctet, if_pos hreadable]
  simp only [hbytes, hnext]

theorem peekOctet_of_nil {b : Buffer} (h : b.Live) (hahead : b.ahead = []) :
    peekOctet b = (.error (b.underflow "peek_byte" 1), b) := by
  have hlen := h.length_ahead
  rw [hahead, List.length_nil, readableBytes] at hlen
  have hnone : ¬ b.readable := by
    rw [readable, decide_eq_true_eq]
    omega
  rw [peekOctet, if_neg hnone]

theorem readInto_of_live {b : Buffer} (room : Nat) (h : b.Live) :
    readInto room b = (.ok (b.ahead.take room), b.advance (min b.ahead.length room)) := by
  obtain ⟨bytes, hbytes, -, -⟩ := h.storage_eq
  have hslice := h.slice_ahead hbytes (Nat.min_le_left b.ahead.length room)
  have htake : b.ahead.take (min b.ahead.length room) = b.ahead.take room :=
    List.take_eq_take_iff.mpr (by omega)
  rw [htake, h.length_ahead] at hslice
  simp only [readInto, hbytes, hslice, advance, h.length_ahead]

theorem toBytes_of_live {b : Buffer} (h : b.Live) : toBytes b = (.ok b.ahead, b) := by
  obtain ⟨bytes, hbytes, hcontent, hcapacity⟩ := h.storage_eq
  have hw := h.writer_le_capacity
  simp only [toBytes, hbytes, slice_of_le h.reader_le_writer (hcapacity ▸ hw), ahead, written,
    hcontent]

theorem reserve_of_le {b : Buffer} {n : Nat} (h : n ≤ b.readableBytes) :
    reserve n b = (.ok (), b) :=
  if_neg (Nat.not_lt.mpr h)

/-! ### Writing over a storage that is large enough -/

theorem toList_overwrite {bytes : Array UInt8} {start : Nat} {data : List UInt8}
    (h : start + data.length ≤ bytes.size) :
    (overwrite bytes start data).toList =
      bytes.toList.take start ++ data ++ bytes.toList.drop (start + data.length) := by
  induction data generalizing bytes start with
  | nil => simp [overwrite]
  | cons x data ih =>
      rw [List.length_cons] at h
      have hx : start < bytes.toList.length := by rw [Array.length_toList]; omega
      rw [overwrite, ih (by rw [Array.size_setIfInBounds]; omega), Array.toList_setIfInBounds,
        List.take_add_one, List.getElem?_set_self hx, List.take_set_of_le (Nat.le_refl start),
        List.drop_set_of_lt (by omega)]
      simp [Nat.add_assoc, Nat.add_comm 1]

/-- Growth adds zeros behind what is there, enough of them and no more than the limit allows. -/
theorem toList_grown {bytes : Array UInt8} {required limit : Nat} (hsize : bytes.size ≤ limit)
    (hrequired : required ≤ limit) :
    (∃ k, (grown bytes required limit).toList = bytes.toList ++ List.replicate k 0) ∧
      required ≤ (grown bytes required limit).size ∧
      (grown bytes required limit).size ≤ limit := by
  unfold grown
  split
  · next h => exact ⟨⟨0, by simp⟩, h, hsize⟩
  · next h =>
    refine ⟨⟨_, by rw [Array.toList_append, Array.toList_replicate]⟩, ?_, ?_⟩
    · rw [Array.size_append, Array.size_replicate]
      omega
    · rw [Array.size_append, Array.size_replicate]
      omega

/-- A write that stays below the limit appends its bytes. -/
theorem put_of_room {b : Buffer} {data : List UInt8} (operation : String) (h : b.Live)
    (room : b.writer + data.length ≤ b.limit) :
    ∃ b', put operation data b = (.ok (), b') ∧ b.Appended data b' := by
  obtain ⟨⟨storage, locks⟩, reader, writer, limit⟩ := b
  obtain ⟨bytes, hbytes, hcontent, hcapacity⟩ := h.storage_eq
  obtain rfl : storage = some bytes := hbytes
  have hr : reader ≤ writer := h.reader_le_writer
  have hw : writer ≤ bytes.size := h.writer_le_capacity
  have hc : bytes.size ≤ limit := h.capacity_le_limit
  simp only at room
  obtain ⟨⟨k, hgrown⟩, hlow, hhigh⟩ := toList_grown hc room
  refine ⟨_, by rw [put, if_neg (Nat.not_lt.mpr room)], ?_⟩
  have hover := toList_overwrite hlow
  have htake : (bytes.toList ++ List.replicate k 0).take writer = bytes.toList.take writer :=
    List.take_append_of_le_length (by rwa [Array.length_toList])
  have hlen : (bytes.toList.take writer ++ data).length = writer + data.length := by
    rw [List.length_append, List.length_take, Array.length_toList, Nat.min_eq_left hw]
  refine ⟨⟨rfl, ?_, ?_, ?_⟩, rfl, rfl, rfl, rfl, ?_⟩
  · show reader ≤ writer + data.length
    omega
  · simpa [capacity, Region.capacity] using hlow
  · simpa [capacity, Region.capacity] using hhigh
  · show ((overwrite (grown bytes _ limit) writer data).toList).take (writer + data.length) = _
    rw [hover, hgrown, htake, ← hlen, List.take_left]
    rfl

/-- A write that would pass the limit changes nothing. -/
theorem put_of_full {b : Buffer} {data : List UInt8} (operation : String) (h : b.Live)
    (hfull : b.limit < b.writer + data.length) :
    put operation data b =
      (.error (Fault.outOfBounds operation b.writer data.length b.writableBytes), b) := by
  obtain ⟨⟨storage, locks⟩, reader, writer, limit⟩ := b
  obtain ⟨bytes, hbytes, -, -⟩ := h.storage_eq
  obtain rfl : storage = some bytes := hbytes
  rw [put, if_pos hfull]
  rfl

end Wireform.Buffer

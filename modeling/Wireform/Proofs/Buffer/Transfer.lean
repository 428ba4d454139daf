import Wireform.Proofs.Buffer.Queue
import Wireform.Proofs.Buffer.Sharing

/-!
Bytes on their way from one buffer to another.

They have three ways. Between views of different regions they go one by one,
between views of one region they are copied at a stroke, and out of a source in
chunks they come chunk by chunk. All three append the front of what the source
has to offer, and for each of them this is said by `Appended`.

A copy inside a storage looks as if it had to mind where the two ranges
overlap, and where the storage grows under it. But it takes its bytes out
before it lays any down, so it is the write of a slice of the old storage
(`copyWithin_eq_put`), and what is known of writes is all that is needed.
-/

namespace Wireform

namespace Buffer

variable {b target source : Buffer} {n : Nat}

theorem take_ahead (hn : n ≤ b.readableBytes) :
    b.ahead.take n = (b.content.drop b.reader).take n := by
  rw [readableBytes] at hn
  rw [ahead, written, List.drop_take, List.take_take, Nat.min_eq_left hn]

theorem Appended.toBytes {b' : Buffer} {data : List UInt8} (h : b.Live)
    (hb : b.Appended data b') : (Buffer.toBytes b').1 = .ok (b.ahead ++ data) := by
  rw [toBytes_of_live hb.live, hb.ahead h]

/-- A buffer from which `mine` was to be read has got `n` bytes more, which are `data`. -/
structure Received (b : Buffer) (mine data : List UInt8) (n : Nat) (b' : Buffer) : Prop where
  bytes : (Buffer.toBytes b').1 = .ok (mine ++ data)
  appended : b.Appended data b'
  writer : b'.writer = b.writer + n

theorem Appended.received {b' : Buffer} {data : List UInt8} (h : b.Live)
    (hb : b.Appended data b') (hn : data.length = n) : b.Received b.ahead data n b' where
  bytes := hb.toBytes h
  appended := hb
  writer := by rw [hb.writer, hn]

/-! ### One by one -/

theorem readOctet_of_ahead {x : UInt8} {rest : List UInt8} (h : b.Live)
    (hahead : b.ahead = x :: rest) : readOctet b = (.ok x, b.advance 1) := by
  have htake := take_of_le "read_unsigned_byte" h (n := 1) (by simp [hahead])
  have hx : UInt8.ofNat (BigEndian.decode (b.ahead.take 1)) = x := by
    simp [hahead, BigEndian.decode]
  rw [readOctet, takeNumber, Action.map_of_ok _ (Action.map_of_ok _ htake), hx]

theorem writeOctet_of_room (byte : UInt8) (h : b.Live) (hroom : b.writer < b.limit) :
    ∃ b', writeOctet byte b = (.ok (), b') ∧ b.Appended [byte] b' := by
  have hbyte : BigEndian.encode 1 byte.toNat = [byte] := by
    simp [BigEndian.encode, BigEndian.span]
  rw [writeOctet, putNumber, hbyte]
  exact put_of_room "write_unsigned_byte" h hroom

theorem pump_of_live (ht : target.Live) (hs : source.Live) (hn : n ≤ source.ahead.length)
    (hroom : target.writer + n ≤ target.limit) :
    ∃ target', pump n (target, source) = (.ok (), target', source.advance n) ∧
      target.Appended (source.ahead.take n) target' := by
  induction n generalizing target source with
  | zero => exact ⟨target, rfl, .refl ht⟩
  | succ n ih =>
      cases hahead : source.ahead with
      | nil => simp [hahead] at hn
      | cons x rest =>
        have hread := readOctet_of_ahead hs hahead
        obtain ⟨middle, hwrite, happended⟩ := writeOctet_of_room x ht (by omega)
        have hrest : (source.advance 1).ahead = rest := by simp [ahead_advance, hahead]
        have hleft : n ≤ rest.length := by simpa [hahead] using hn
        have hlive : (source.advance 1).Live := hs.advance (by simp [hahead])
        have hfits : middle.writer + n ≤ middle.limit := by
          simp only [happended.writer, happended.limit, List.length_singleton]
          omega
        obtain ⟨target', hpump, happended'⟩ :=
          ih happended.live hlive (by rwa [hrest]) hfits
        rw [hrest] at happended'
        refine ⟨target', ?_, happended.trans happended'⟩
        simp only [pump, hread, hwrite, hpump, advance_advance, Nat.add_comm 1]

theorem transfer_of_live (ht : target.Live) (hs : source.Live)
    (hn : transferable target source = n) :
    ∃ target', transfer (target, source) = (.ok n, target', source.advance n) ∧
      target.Appended (source.ahead.take n) target' := by
  have hlimit := ht.writer_le_limit
  have hlength := hs.length_ahead
  rw [transferable, writableBytes] at hn
  obtain ⟨target', hpump, happended⟩ :=
    pump_of_live ht hs (n := n) (by omega) (by omega)
  refine ⟨target', ?_, happended⟩
  simp only [transfer, transferable, writableBytes, hn, hpump]

/-! ### At a stroke -/

/-- To copy inside a storage is to write what stood at the source before. -/
theorem copyWithin_eq_put {start : Nat} (h : b.Live) (hstart : start + n ≤ b.capacity) :
    copyWithin start n b = put "write_buffer" ((b.content.drop start).take n) b := by
  obtain ⟨⟨storage, locks⟩, reader, writer, limit⟩ := b
  obtain ⟨bytes, hbytes, hcontent, hcapacity⟩ := h.storage_eq
  obtain rfl : storage = some bytes := hbytes
  have hsize : bytes.size ≤ limit := hcapacity ▸ h.capacity_le_limit
  rw [hcapacity] at hstart
  rw [hcontent]
  have hlength : ((bytes.toList.drop start).take n).length = n := by simp; omega
  rw [copyWithin, put, hlength]
  split
  · rfl
  · next hroom =>
    obtain ⟨⟨k, hgrown⟩, hlow, -⟩ := toList_grown hsize (Nat.not_lt.mp hroom)
    have hle : bytes.size ≤ (grown bytes (writer + n) limit).size := by
      rw [← Array.length_toList, ← Array.length_toList, hgrown]
      simp
    have hslice : slice (grown bytes (writer + n) limit) start (start + n) =
        .ok ((bytes.toList.drop start).take n) := by
      rw [slice_of_le (Nat.le_add_right start n) (Nat.le_trans hstart hle), hgrown,
        List.take_append_of_le_length (by simpa using hstart), List.drop_take,
        Nat.add_sub_cancel_left]
    simp only [hslice]

/-- So the copy appends, wherever in the storage its source is. -/
theorem copyWithin_of_room {start : Nat} (h : b.Live) (hstart : start + n ≤ b.capacity)
    (hroom : b.writer + n ≤ b.limit) :
    ∃ b', copyWithin start n b = (.ok (), b') ∧
      b.Appended ((b.content.drop start).take n) b' := by
  have hlength : ((b.content.drop start).take n).length = n := by
    simp [h.length_content]
    omega
  rw [copyWithin_eq_put h hstart]
  exact put_of_room "write_buffer" h (by rwa [hlength])

end Buffer

namespace Shelf

variable {limit : Nat → Nat} {s : Shelf} {v w : View} {b : Buffer} {n : Nat} {name : String}

theorem store_moveReader (s : Shelf) (v : View) (r : Nat) :
    s.store v { s.load v with reader := r } = (s, { v with reader := r }) := by
  show ((s.store v (s.load v)).1, _) = _
  rw [store_load]
  rfl

theorem store_advance (s : Shelf) (v : View) (n : Nat) :
    s.store v ((s.load v).advance n) = (s, { v with reader := v.reader + n }) :=
  store_moveReader s v (v.reader + n)

/-- Between live views the bytes are appended to the one and passed over by the other, whatever the
regions are. -/
theorem transferViews_of_live (hvlive : (s.load v).Live) (hwlive : (s.load w).Live)
    (hn : Buffer.transferable (s.load v) (s.load w) = n) :
    ∃ b, s.transferViews v w =
        (.ok n, (s.store v b).1, (s.store v b).2, { w with reader := w.reader + n }) ∧
      (s.load v).Appended ((s.load w).ahead.take n) b := by
  by_cases hzero : n = 0
  · subst hzero
    refine ⟨s.load v, ?_, .refl hvlive⟩
    rw [transferViews_of_zero hn, store_load]
    rfl
  · by_cases hregion : v.region = w.region
    · have hcontent : (s.load v).content = (s.load w).content := by
        simp only [Buffer.content, load, hregion]
      have hcapacity : (s.load v).capacity = (s.load w).capacity := by
        simp only [Buffer.capacity, load, hregion]
      have hreadable : n ≤ (s.load w).readableBytes := hn ▸ Nat.min_le_left _ _
      have hwritable : n ≤ (s.load v).writableBytes := hn ▸ Nat.min_le_right _ _
      rw [Buffer.take_ahead hreadable, ← hcontent]
      rw [Buffer.readableBytes] at hreadable
      rw [Buffer.writableBytes] at hwritable
      have hreader := hwlive.reader_le_writer
      have hwriter := hwlive.writer_le_capacity
      have hlimit := hvlive.writer_le_limit
      have hstored : (s.load w).reader + n ≤ (s.load v).capacity := by omega
      have hroom : (s.load v).writer + n ≤ (s.load v).limit := by omega
      obtain ⟨b, hcopy, happended⟩ := Buffer.copyWithin_of_room hvlive hstored hroom
      exact ⟨b, transferViews_of_shared hn hzero hregion hcopy, happended⟩
    · obtain ⟨b, hmove, happended⟩ := Buffer.transfer_of_live hvlive hwlive hn
      refine ⟨b, ?_, happended⟩
      rw [transferViews_of_apart (hn ▸ hzero) hregion hmove,
        ← load_store_of_ne (v := v) (b := b) (Ne.symm hregion), store_advance]

theorem Fits.on_appears {α : Type} {act : Action Buffer α} {r : Except Failure α}
    (hv : s.Fits limit v) (hname : s.view? name = some v) (hact : act (s.load v) = (r, b))
    (hlimit : b.limit = (s.load v).limit) :
    ∃ s', s.on name act = some (r, s') ∧ s'.buffer? name = some b ∧
      ∀ other, other ≠ name → s'.view? other = s.view? other := by
  refine ⟨(s.store v b).1.setView name (s.store v b).2, ?_, ?_, fun other hother => ?_⟩
  · rw [on_of_view hname, Shelf.onView, hact]
  · rw [buffer?, view?_setView_self, Option.map_some, load_setView, load_store hv.region hlimit]
  · exact view?_setView_of_ne hother

/-! ### The three ways -/

/-- `n` bytes have moved from the buffer `c` of one view to the buffer `b` of another. -/
structure Transferred (s : Shelf) (target source : String) (b c : Buffer)
    (mine theirs : List UInt8) (n : Nat) (s' : Shelf) (b' c' : Buffer) : Prop where
  result : s.transfer target source = some (.ok n, s')
  arrives : s'.buffer? target = some b'
  leaves : s'.buffer? source = some c'
  received : b.Received mine (theirs.take n) n b'
  reader : c'.reader = c.reader + n
  writer : c'.writer = c.writer
  limit : c'.limit = c.limit
  shared : s.sharesRegion target source = some true → c'.region = b'.region
  /-- A source of another region is as it was, but for its reader. -/
  apart : s.sharesRegion target source = some false → c'.region = c.region
  others : ∀ other, other ≠ target → other ≠ source → s'.view? other = s.view? other

/-- `n` bytes have come into the buffer `b` out of a source in chunks, of which some are left. -/
structure Poured (s : Shelf) (target : String) (b : Buffer) (mine : List UInt8)
    (chunks : List (List UInt8)) (n : Nat) (rest : List (List UInt8)) (s' : Shelf) (b' : Buffer) :
    Prop where
  result : s.on target (Buffer.writeFrom chunks) = some (.ok (n, rest), s')
  unread : rest.flatten = chunks.flatten.drop n
  arrives : s'.buffer? target = some b'
  received : b.Received mine (chunks.flatten.take n) n b'
  others : ∀ other, other ≠ target → s'.view? other = s.view? other

/-- `n` bytes have gone from the buffer `c` into a window. -/
structure Drawn (s : Shelf) (source : String) (c : Buffer) (theirs : List UInt8) (room n : Nat)
    (s' : Shelf) : Prop where
  result : s.on source (Buffer.readInto room) = some (.ok (theirs.take n), s')
  length : (theirs.take n).length = n
  leaves : s'.buffer? source = some (c.advance n)
  bytes : (Buffer.toBytes (c.advance n)).1 = .ok (theirs.drop n)
  others : ∀ other, other ≠ source → s'.view? other = s.view? other

/-- Whichever way bytes go, as many move as are there and as fit. -/
structure Moves (s : Shelf) (target source : String) (b c : Buffer) (mine theirs : List UInt8) :
    Prop where
  mine_eq : (Buffer.toBytes b).1 = .ok mine
  theirs_eq : (Buffer.toBytes c).1 = .ok theirs
  transfer : ∃ s' b' c', s.Transferred target source b c mine theirs
    (min c.readableBytes b.writableBytes) s' b' c'
  chunks : ∀ chunks : List (List UInt8), ∃ rest s' b', s.Poured target b mine chunks
    (min chunks.flatten.length b.writableBytes) rest s' b'
  window : ∀ room, ∃ s', s.Drawn source c theirs room (min c.readableBytes room) s'

theorem Fits.transferred {target source : String} (hv : s.Fits limit v) (hne : target ≠ source)
    (htarget : s.view? target = some v) (hsource : s.view? source = some w)
    (hvlive : (s.load v).Live) (hwlive : (s.load w).Live)
    (hn : min (s.load w).readableBytes (s.load v).writableBytes = n) :
    ∃ s' b' c', s.Transferred target source (s.load v) (s.load w) (s.load v).ahead
      (s.load w).ahead n s' b' c' := by
  have hlength := hwlive.length_ahead
  obtain ⟨b', hmoves, happended⟩ := transferViews_of_live hvlive hwlive hn
  have hshares : s.sharesRegion target source = some (v.region == w.region) := by
    rw [sharesRegion, htarget, hsource]
    rfl
  refine ⟨_, b', (s.store v b').1.load { w with reader := w.reader + n }, {
    result := transfer_of_views htarget hsource hmoves
    arrives := ?_
    leaves := ?_
    received := happended.received hvlive (by rw [List.length_take]; omega)
    reader := rfl
    writer := rfl
    limit := rfl
    shared := fun h => ?_
    apart := fun h => ?_
    others := fun other htarget hsource => ?_ }⟩
  · rw [buffer?, view?_setView_of_ne hne, view?_setView_self, Option.map_some, load_setView,
      load_setView, load_store hv.region happended.limit]
  · rw [buffer?, view?_setView_self, Option.map_some, load_setView, load_setView]
  · have hregion : v.region = w.region := by simpa [hshares] using h
    show (s.store v b').1.region w.region = b'.region
    rw [← hregion, region_store_self hv.region]
  · have hregion : v.region ≠ w.region := by simpa [hshares] using h
    exact region_store_of_ne (Ne.symm hregion)
  · rw [view?_setView_of_ne hsource, view?_setView_of_ne htarget]
    rfl

theorem Fits.poured {target : String} (hv : s.Fits limit v) (htarget : s.view? target = some v)
    (hvlive : (s.load v).Live) (chunks : List (List UInt8)) :
    ∃ rest s' b', s.Poured target (s.load v) (s.load v).ahead chunks
      (min chunks.flatten.length (s.load v).writableBytes) rest s' b' := by
  obtain ⟨b', hwrite, happended⟩ := Buffer.writeFrom_of_live chunks hvlive
  obtain ⟨s', hon, hb', hothers⟩ := hv.on_appears htarget hwrite happended.limit
  exact ⟨_, s', b', {
    result := hon
    unread := flatten_unread _ chunks
    arrives := hb'
    received := happended.received hvlive (by rw [List.length_take]; omega)
    others := hothers }⟩

theorem Fits.drawn {source : String} (hw : s.Fits limit w) (hsource : s.view? source = some w)
    (hwlive : (s.load w).Live) (room : Nat) :
    ∃ s', s.Drawn source (s.load w) (s.load w).ahead room
      (min (s.load w).readableBytes room) s' := by
  have hlength := hwlive.length_ahead
  have hread := Buffer.readInto_of_live room hwlive
  have htake : (s.load w).ahead.take (min (s.load w).readableBytes room) =
      (s.load w).ahead.take room := List.take_eq_take_iff.mpr (by omega)
  rw [hlength, ← htake] at hread
  obtain ⟨s', hon, hc', hothers⟩ := hw.on_appears hsource hread rfl
  have hlive := hwlive.advance (n := min (s.load w).readableBytes room) (by omega)
  exact ⟨s', {
    result := hon
    length := by rw [List.length_take]; omega
    leaves := hc'
    bytes := by rw [Buffer.toBytes_of_live hlive, Buffer.ahead_advance]
    others := hothers }⟩

/-- Bytes move between live buffers of any run, wherever in one region their places are and also
if its storage has to grow, and they are the first of those that the source had before. -/
theorem transfer_moves (steps : List Step) {target source : String} {b c : Buffer}
    (hne : target ≠ source) (hb : (after {} steps).buffer? target = some b)
    (hc : (after {} steps).buffer? source = some c) (hblive : b.region.storage.isSome)
    (hclive : c.region.storage.isSome) :
    ∃ mine theirs, (after {} steps).Moves target source b c mine theirs := by
  obtain ⟨limit, hs⟩ := (sound_empty.after steps).1
  obtain ⟨v, hv, rfl⟩ := Option.map_eq_some_iff.mp hb
  obtain ⟨w, hw, rfl⟩ := Option.map_eq_some_iff.mp hc
  have hvfits := hs target v hv
  have hwfits := hs source w hw
  have hvlive := hvfits.valid.live_of_isSome hblive
  have hwlive := hwfits.valid.live_of_isSome hclive
  exact ⟨_, _, {
    mine_eq := by rw [Buffer.toBytes_of_live hvlive]
    theirs_eq := by rw [Buffer.toBytes_of_live hwlive]
    transfer := hvfits.transferred hne hv hw hvlive hwlive rfl
    chunks := hvfits.poured hv hvlive
    window := hwfits.drawn hw hwlive }⟩

/-- Three bytes are copied to where the last of them stands, in a storage of four bytes that grows
under the copy. -/
theorem transfer_moves_overlapping :
    let steps : List Step := [.create "a" 4 8, .access "a" (.writeBytes [1, 2, 3]),
      .duplicate "a" "b", .access "b" (.setWriter 2)]
    let b : Buffer := ⟨⟨some #[1, 2, 3, 0], 0⟩, 0, 2, 8⟩
    let c : Buffer := ⟨⟨some #[1, 2, 3, 0], 0⟩, 0, 3, 8⟩
    "b" ≠ "a" ∧ (after {} steps).buffer? "b" = some b ∧ (after {} steps).buffer? "a" = some c ∧
      b.region.storage.isSome ∧ c.region.storage.isSome ∧
      ∃ s' b', (after {} steps).transfer "b" "a" = some (.ok 3, s') ∧
        s'.buffer? "b" = some b' ∧ (Buffer.toBytes b').1 = .ok [1, 2, 1, 2, 3] := by
  intro steps b c
  have hb : (after {} steps).buffer? "b" = some b := by decide
  have hc : (after {} steps).buffer? "a" = some c := by decide
  obtain ⟨mine, theirs, hmoves⟩ := transfer_moves steps (by decide) hb hc rfl rfl
  obtain rfl : [1, 2] = mine := Except.ok.inj hmoves.mine_eq
  obtain rfl : [1, 2, 3] = theirs := Except.ok.inj hmoves.theirs_eq
  obtain ⟨s', b', c', htransferred⟩ := hmoves.transfer
  exact ⟨by decide, hb, hc, rfl, rfl, s', b', htransferred.result, htransferred.arrives,
    htransferred.received.bytes⟩

end Shelf

end Wireform

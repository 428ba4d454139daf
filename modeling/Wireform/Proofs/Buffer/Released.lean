import Wireform.Proofs.Buffer.Locks
import Wireform.Proofs.Buffer.Transfer

/-!
What comes of a buffer whose storage has been given up.

Its cursors are still there, and there are accesses that look at them before
they look for the storage. So a read that wants more bytes than lie between the
cursors complains of that, and where no byte is to be moved the storage is not
missed. All other accesses are denied, and none changes anything: this is the
judgment `Denies`, with the number of bytes that an access wants to find ahead.

A transfer is denied if there is a byte to be moved and a storage is missing on
either side. Between different regions it is the target's storage that is
missed late: by then the first byte has been taken from the source, and it is
not put back.
-/

namespace Wireform

/-- The accesses to what a storage holds, which are all but those that move cursors or count. -/
def Access.touches : Access → Bool
  | setReader _ | setWriter _ | clear | lock | release => false
  | _ => true

/-- How many bytes an access wants to find ahead, before it looks for the storage. -/
def Access.wants : Access → Nat
  | readBool | readByte | readOctet | peekOctet | readCompactInt | readCompactLong | readFlags => 1
  | readShort | readUnit => 2
  | readInt | readFloat => 4
  | readLong | readDouble => 8
  | readBytes n => n
  | _ => 0

/-- The access is a transfer out of chunks, and there is no byte to be moved. -/
def Access.idle : Access → Buffer → Bool
  | writeFrom chunks, b => min chunks.flatten.length b.writableBytes == 0
  | _, _ => false

namespace Buffer

variable {α β : Type} {b target source : Buffer} {wanted n : Nat} {act : Action Buffer α}

/-- How an access complains that wants some bytes ahead and finds the storage gone. -/
def denial (b : Buffer) (operation : String) (wanted : Nat) : Failure :=
  if b.readableBytes < wanted then b.underflow operation wanted else Fault.released

/-- Where the storage is gone the action complains, and does nothing else. -/
def Denies (wanted : Nat) (act : Action Buffer α) : Prop :=
  ∃ operation, ∀ b : Buffer, b.region.storage = none →
    act b = (.error (b.denial operation wanted), b)

theorem denial_of_lt (operation : String) (h : b.readableBytes < wanted) :
    b.denial operation wanted = (b.underflow operation wanted : Failure) :=
  if_pos h

theorem denial_of_le (operation : String) (h : wanted ≤ b.readableBytes) :
    b.denial operation wanted = (Fault.released : Failure) :=
  if_neg (Nat.not_lt.mpr h)

theorem denial_eq_released {operation : String} :
    b.denial operation wanted = (Fault.released : Failure) ↔ wanted ≤ b.readableBytes := by
  refine ⟨fun h => Nat.not_lt.mp fun hlt => ?_, denial_of_le operation⟩
  rw [denial_of_lt operation hlt] at h
  cases h

theorem Denies.bind (h : Denies wanted act) (f : α → Action Buffer β) :
    Denies wanted (act >>= f) := by
  obtain ⟨operation, h⟩ := h
  exact ⟨operation, fun b hgone => Action.bind_of_error (h b hgone)⟩

theorem Denies.map (h : Denies wanted act) (f : α → β) : Denies wanted (f <$> act) := by
  obtain ⟨operation, h⟩ := h
  exact ⟨operation, fun b hgone => Action.map_of_error f (h b hgone)⟩

theorem denies_take (operation : String) (n : Nat) : Denies n (take operation n) := by
  refine ⟨operation, fun b hgone => ?_⟩
  unfold take denial
  split
  · rfl
  · rw [hgone]

theorem denies_takeNumber (operation : String) (width : Nat) :
    Denies width (takeNumber operation width) :=
  (denies_take operation width).map _

theorem denies_peekOctet : Denies 1 peekOctet := by
  refine ⟨"peek_byte", fun b hgone => ?_⟩
  unfold peekOctet
  split
  · next hreadable =>
    have hle : 1 ≤ b.readableBytes := by
      simp only [readable, decide_eq_true_eq] at hreadable
      rw [readableBytes]
      omega
    rw [hgone, denial_of_le _ hle]
  · next hreadable =>
    have hlt : b.readableBytes < 1 := by
      simp only [readable, decide_eq_true_eq] at hreadable
      rw [readableBytes]
      omega
    rw [denial_of_lt _ hlt]

theorem denies_of_gone (h : ∀ b : Buffer, b.region.storage = none →
    act b = (.error Fault.released, b)) : Denies 0 act :=
  ⟨"", fun b hgone => by rw [denial_of_le _ (Nat.zero_le _), h b hgone]⟩

theorem put_of_gone (operation : String) (data : List UInt8) (h : b.region.storage = none) :
    put operation data b = (.error Fault.released, b) := by
  obtain ⟨⟨storage, locks⟩, reader, writer, limit⟩ := b
  obtain rfl : storage = none := h
  rfl

theorem copyWithin_of_gone (start count : Nat) (h : b.region.storage = none) :
    copyWithin start count b = (.error Fault.released, b) := by
  obtain ⟨⟨storage, locks⟩, reader, writer, limit⟩ := b
  obtain rfl : storage = none := h
  rfl

theorem denies_put (operation : String) (data : List UInt8) : Denies 0 (put operation data) :=
  denies_of_gone fun _ => put_of_gone operation data

theorem denies_readInto (room : Nat) : Denies 0 (readInto room) :=
  denies_of_gone fun b hgone => by simp only [readInto, hgone]

theorem denies_toBytes : Denies 0 toBytes :=
  denies_of_gone fun b hgone => by simp only [toBytes, hgone]

end Buffer

namespace Compact

open Buffer

theorem Marker.denies_read (format : String) (full : Nat) : Denies 1 (Marker.read format full) :=
  ((denies_takeNumber _ 1).map _).bind _

theorem Flags.denies_read : Denies 1 Flags.read := by
  obtain ⟨operation, h⟩ := denies_peekOctet
  refine ⟨operation, fun b hgone => ?_⟩
  rw [Flags.read, Action.bind_of_ok (Action.get_apply b)]
  exact Action.bind_of_error (h b hgone)

/-- Even a list without values has a byte to be written. -/
theorem Flags.denies_write (values : Option (List Bool)) : Denies 0 (Flags.write values) := by
  unfold Flags.write
  cases values.getD [] with
  | nil => exact denies_put _ _
  | cons value values =>
      have hlength : (value :: values).length ≠ 0 := nofun
      simp only
      rw [Flags.chunks, dif_neg hlength]
      exact (denies_put _ _).bind _

end Compact

namespace Buffer

variable {b target source : Buffer} {n : Nat}

/-- Apart from a transfer out of chunks, all accesses to content are denied. -/
theorem denies_run {a : Access} (ha : a.touches) (hpour : ∀ chunks, a ≠ .writeFrom chunks) :
    Denies a.wants a.run := by
  cases a with
  | setReader | setWriter | clear | lock | release => cases ha
  | writeFrom chunks => exact absurd rfl (hpour chunks)
  | writeFlags values => exact Compact.Flags.denies_write values
  | readBool => exact (denies_takeNumber _ 1).bind _
  | peekOctet => exact denies_peekOctet
  | readBytes n => exact denies_take _ n
  | readCompactInt => exact (Compact.Marker.denies_read _ 4).bind _
  | readCompactLong => exact (Compact.Marker.denies_read _ 8).bind _
  | readFlags => exact Compact.Flags.denies_read
  | readInto room => exact denies_readInto room
  | toBytes => exact denies_toBytes
  | readByte | readOctet | readShort | readUnit | readInt | readLong | readFloat | readDouble =>
      exact (denies_takeNumber _ _).map _
  | _ => exact denies_put _ _

theorem writeChunks_of_gone {chunks : List (List UInt8)} (h : b.region.storage = none)
    (hpos : n ≠ 0) (hn : n ≤ chunks.flatten.length) :
    writeChunks chunks n b = (.error Fault.released, b) := by
  induction chunks with
  | nil => exact absurd (Nat.le_zero.mp hn) hpos
  | cons chunk chunks ih =>
      rw [writeChunks, if_neg hpos]
      split
      · next hempty =>
        obtain rfl := List.isEmpty_iff.mp hempty
        exact ih hn
      · exact Action.bind_of_error (put_of_gone _ _ h)

theorem writeChunks_zero (chunks : List (List UInt8)) (b : Buffer) :
    writeChunks chunks 0 b = (.ok chunks, b) := by
  cases chunks <;> rfl

theorem writeFrom_of_gone (chunks : List (List UInt8)) (h : b.region.storage = none) :
    writeFrom chunks b = (if (Access.writeFrom chunks).idle b then .ok (0, chunks)
      else .error Fault.released, b) := by
  rw [writeFrom, Action.bind_of_ok (Action.get_apply b), Access.idle]
  simp only [beq_iff_eq]
  split
  · next hzero =>
    rw [hzero, Action.bind_of_ok (writeChunks_zero chunks b)]
    rfl
  · next hpos => exact Action.bind_of_error (writeChunks_of_gone h hpos (Nat.min_le_left _ _))

theorem run_of_gone {a : Access} (ha : a.touches) (hgone : b.region.storage = none) :
    ∃ r, a.run b = (r, b) ∧
      (r = .error (Fault.released : Failure) ↔ a.wants ≤ b.readableBytes ∧ a.idle b = false) ∧
      (b.readableBytes < a.wants →
        ∃ operation, r = .error (b.underflow operation a.wants : Failure)) ∧
      (a.idle b → r.isOk) := by
  by_cases hpour : ∃ chunks, a = .writeFrom chunks
  · obtain ⟨chunks, rfl⟩ := hpour
    refine ⟨_, writeFrom_of_gone chunks hgone, ?_, fun hlt => absurd hlt (Nat.not_lt_zero _), ?_⟩
    · cases (Access.writeFrom chunks).idle b with
      | true => exact iff_of_false nofun nofun
      | false => exact iff_of_true rfl ⟨Nat.zero_le _, rfl⟩
    · intro hidle
      rw [if_pos hidle]
      rfl
  · have hidle : a.idle b = false := by
      cases a with
      | writeFrom chunks => exact absurd ⟨chunks, rfl⟩ hpour
      | _ => rfl
    obtain ⟨operation, hrun⟩ := denies_run ha fun chunks h => hpour ⟨chunks, h⟩
    refine ⟨_, hrun b hgone, ?_, fun hlt => ⟨operation, ?_⟩, ?_⟩
    · rw [Except.error.injEq, denial_eq_released]
      simp [hidle]
    · rw [denial_of_lt operation hlt]
    · simp [hidle]

/-- Bytes are moved one by one, and the first of them is not put back. -/
theorem transfer_of_gone (hs : source.Valid) (hpos : transferable target source ≠ 0)
    (hgone : target.region.storage = none ∨ source.region.storage = none) :
    transfer (target, source) = (.error Fault.released, target,
      source.advance source.region.storage.isSome.toNat) := by
  obtain ⟨count, hcount⟩ := Nat.exists_eq_succ_of_ne_zero hpos
  have hle : 1 ≤ source.readableBytes := by
    rw [transferable] at hcount
    omega
  simp only [transfer, hcount, pump]
  rcases hs.cases with hnone | hlive
  · obtain ⟨operation, hread⟩ : Denies 1 readOctet := (denies_takeNumber _ 1).map _
    simp [hread source hnone, denial_of_le operation hle, hnone]
  · have hnone : target.region.storage = none :=
      hgone.resolve_right (Option.isSome_iff_ne_none.mp hlive.present)
    cases hahead : source.ahead with
    | nil =>
        have hlength := hlive.length_ahead
        simp [hahead] at hlength
        omega
    | cons x rest =>
        have hwrite : writeOctet x target = (.error Fault.released, target) :=
          put_of_gone _ _ hnone
        simp [readOctet_of_ahead hlive hahead, hwrite, hlive.present]

end Buffer

/-! ### On a shelf -/

namespace Shelf

variable {limit : Nat → Nat} {s : Shelf} {v w : View} {target source : String}

theorem Counts.released_iff (hc : s.Counts) (hv : v.region < s.regions.size) :
    (s.load v).region.released ↔ (s.load v).region.storage = none := by
  rw [Region.released, decide_eq_true_eq]
  exact (hc v.region hv).gone_iff.symm

/-- A transfer that misses a storage changes no region, and at most the reader of the source. -/
theorem Fits.transferViews_of_gone (hw : s.Fits limit w)
    (hpos : Buffer.transferable (s.load v) (s.load w) ≠ 0)
    (hgone : (s.load v).region.storage = none ∨ (s.load w).region.storage = none) :
    s.transferViews v w = (.error Fault.released, s, v,
      { w with reader := w.reader + (s.load w).region.storage.isSome.toNat }) := by
  by_cases hregion : v.region = w.region
  · have hsame : (s.load v).region = (s.load w).region := by simp only [load, hregion]
    have hnone : (s.load w).region.storage = none := by simpa [hsame] using hgone
    have hcopy := Buffer.copyWithin_of_gone w.reader
      (Buffer.transferable (s.load v) (s.load w)) (hsame ▸ hnone)
    rw [transferViews_of_shared rfl hpos hregion hcopy, store_load, hnone]
    rfl
  · have hmove := Buffer.transfer_of_gone hw.valid hpos hgone
    rw [transferViews_of_apart hpos hregion hmove, store_load, store_advance]

/-- Where a reader has moved on, and nothing else has changed, the shelf is not the same. -/
theorem same_moveReader_iff {s' : Shelf} {n : Nat} (hsource : s.view? source = some w)
    (hothers : ∀ other, other ≠ source → s'.view? other = s.view? other)
    (hreader : s'.view? source = some { w with reader := w.reader + n })
    (hregions : s'.regions = s.regions) : s.Same s' ↔ n = 0 := by
  constructor
  · intro hsame
    have hview := hsame.views source
    rw [hreader, hsource, Option.some.injEq] at hview
    have hmoved : w.reader + n = w.reader := congrArg View.reader hview
    omega
  · rintro rfl
    refine ⟨hregions, fun other => ?_⟩
    by_cases hother : other = source
    · rw [hother, hreader, hsource]
      rfl
    · exact hothers other hother

theorem Fits.transfer_of_gone (hw : s.Fits limit w) (htarget : s.view? target = some v)
    (hsource : s.view? source = some w) (hpos : Buffer.transferable (s.load v) (s.load w) ≠ 0)
    (hgone : (s.load v).region.storage = none ∨ (s.load w).region.storage = none) :
    ∃ s', s.transfer target source = some (.error Fault.released, s') ∧
      s'.regions = s.regions ∧ (∀ other, other ≠ source → s'.view? other = s.view? other) ∧
      s'.buffer? source =
        some ((s.load w).advance (s.load w).region.storage.isSome.toNat) ∧
      (s.Same s' ↔ (s.load w).region.storage = none) := by
  have hviews := hw.transferViews_of_gone hpos hgone
  have hothers : ∀ other, other ≠ source →
      ((s.setView target v).setView source
        { w with reader := w.reader + (s.load w).region.storage.isSome.toNat }).view? other =
        s.view? other := by
    intro other hother
    rw [view?_setView_of_ne hother]
    exact (same_setView htarget).views other
  refine ⟨_, transfer_of_views htarget hsource hviews, rfl, hothers, ?_, ?_⟩
  · rw [buffer?, view?_setView_self]
    rfl
  · rw [same_moveReader_iff hsource hothers (view?_setView_self _ _ _) rfl]
    cases (s.load w).region.storage <;> simp

theorem transfer_of_zero (htarget : s.view? target = some v) (hsource : s.view? source = some w)
    (hzero : Buffer.transferable (s.load v) (s.load w) = 0) :
    ∃ s', s.transfer target source = some (.ok 0, s') ∧ s.Same s' := by
  have htarget' := same_setView htarget
  have hsource' := same_setView ((htarget'.views source).trans hsource)
  exact ⟨_, transfer_of_views htarget hsource (transferViews_of_zero hzero), rfl,
    fun other => (hsource'.views other).trans (htarget'.views other)⟩

theorem Fits.transfer_denied (hw : s.Fits limit w) (htarget : s.view? target = some v)
    (hsource : s.view? source = some w)
    (hgone : (s.load v).region.storage = none ∨ (s.load w).region.storage = none) :
    ∃ r s', s.transfer target source = some (r, s') ∧
      (r = .error (Fault.released : Failure) ↔
        Buffer.transferable (s.load v) (s.load w) ≠ 0) ∧
      (Buffer.transferable (s.load v) (s.load w) = 0 → r = .ok 0 ∧ s.Same s') := by
  by_cases hzero : Buffer.transferable (s.load v) (s.load w) = 0
  · obtain ⟨s', htransfer, hsame⟩ := transfer_of_zero htarget hsource hzero
    exact ⟨_, s', htransfer, iff_of_false nofun (not_not_intro hzero), fun _ => ⟨rfl, hsame⟩⟩
  · obtain ⟨s', htransfer, -⟩ := hw.transfer_of_gone htarget hsource hzero hgone
    exact ⟨_, s', htransfer, iff_of_true rfl hzero, fun h => absurd h hzero⟩

/-- Through a view of a region that has been given up an access to content is denied, unless it
wants more bytes than lie between the cursors or has no byte to move. -/
theorem released_content (steps : List Step) {name : String} {b : Buffer}
    (hb : (after {} steps).buffer? name = some b) (hreleased : b.region.released) :
    let s := after {} steps
    (∀ a : Access, a.touches → ∃ r s', s.on name a.run = some (r, s') ∧ s.Same s' ∧
      (r = .error (Fault.released : Failure) ↔ a.wants ≤ b.readableBytes ∧ a.idle b = false) ∧
      (b.readableBytes < a.wants →
        ∃ operation, r = .error (b.underflow operation a.wants : Failure)) ∧
      (a.idle b → r.isOk)) ∧
    ∀ other c, s.buffer? other = some c →
      (∃ r s', s.transfer name other = some (r, s') ∧
        (r = .error (Fault.released : Failure) ↔ Buffer.transferable b c ≠ 0) ∧
        (Buffer.transferable b c = 0 → r = .ok 0 ∧ s.Same s')) ∧
      ∃ r s', s.transfer other name = some (r, s') ∧
        (r = .error (Fault.released : Failure) ↔ Buffer.transferable c b ≠ 0) ∧
        (Buffer.transferable c b = 0 → r = .ok 0 ∧ s.Same s') := by
  intro s
  have hsound : s.Sound := (sound_empty.after steps).1
  have hcounts : s.Counts := counts_after steps
  change s.buffer? name = some b at hb
  clear_value s
  obtain ⟨limit, hs⟩ := hsound
  obtain ⟨v, hv, rfl⟩ := Option.map_eq_some_iff.mp hb
  have hgone := (hcounts.released_iff (hs name v hv).region).mp hreleased
  refine ⟨fun a ha => ?_, fun other c hc => ?_⟩
  · obtain ⟨r, hrun, hr⟩ := Buffer.run_of_gone ha hgone
    exact ⟨r, _, on_of_same hv hrun, same_setView hv, hr⟩
  · obtain ⟨w, hw, rfl⟩ := Option.map_eq_some_iff.mp hc
    exact ⟨(hs other w hw).transfer_denied hv hw (.inl hgone),
      (hs name v hv).transfer_denied hw hv (.inr hgone)⟩

/-- With two bytes between the cursors a number of two bytes is denied, and one of four is too
long. -/
theorem released_content_two :
    let steps : List Step := [.ofBytes "a" [1, 2], .access "a" .release]
    let b : Buffer := ⟨⟨none, -1⟩, 0, 2, Buffer.maxLimit⟩
    (after {} steps).buffer? "a" = some b ∧ b.region.released ∧
      (∃ s', (after {} steps).on "a" Buffer.readShort =
        some (.error (Fault.released : Failure), s')) ∧
      ∃ operation s', (after {} steps).on "a" Buffer.readInt =
        some (.error (b.underflow operation 4 : Failure), s') := by
  intro steps b
  have hb : (after {} steps).buffer? "a" = some b := by decide
  obtain ⟨haccess, -⟩ := released_content steps hb rfl
  obtain ⟨r, s', hshort, -, hr, -⟩ := haccess .readShort rfl
  obtain ⟨r', s'', hint, -, -, hr', -⟩ := haccess .readInt rfl
  obtain rfl := hr.mpr ⟨by decide, rfl⟩
  obtain ⟨operation, rfl⟩ := hr' (by decide)
  exact ⟨hb, rfl, ⟨s', hshort⟩, operation, s'', hint⟩

/-- That a region has been given up goes unsaid where a number is longer than what is between the
cursors, and unnoticed where there is nothing to be appended. -/
theorem released_content_missed :
    let s := after {} [.ofBytes "a" [1], .access "a" .release]
    (s.buffer? "a").map (·.region.released) = some true ∧
      (s.on "a" Buffer.readInt).map Prod.fst =
        some (.error (Fault.outOfBounds "read_int" 0 4 1 : Failure)) ∧
      (s.on "a" (Buffer.writeFrom [])).map Prod.fst = some (.ok (0, [])) :=
  ⟨rfl, rfl, rfl⟩

/-- A transfer that fails changes no region and no cursor but the reader of the source. A live
source has lost a byte. -/
theorem failed_transfer (steps : List Step) {target source : String} {b c : Buffer}
    (hb : (after {} steps).buffer? target = some b)
    (hc : (after {} steps).buffer? source = some c) :
    let s := after {} steps
    ∃ r s', s.transfer target source = some (r, s') ∧
      ((∃ f, r = .error f) ↔
        Buffer.transferable b c ≠ 0 ∧ (b.region.released ∨ c.region.released)) ∧
      ∀ f, r = .error f → f = Fault.released ∧ s'.regions = s.regions ∧
        (∀ other, other ≠ source → s'.view? other = s.view? other) ∧
        s'.buffer? source = some (if c.region.released then c else c.advance 1) ∧
        (s.Same s' ↔ c.region.released) := by
  intro s
  have hsound : s.Sound := (sound_empty.after steps).1
  have hcounts : s.Counts := counts_after steps
  change s.buffer? target = some b at hb
  change s.buffer? source = some c at hc
  clear_value s
  obtain ⟨limit, hs⟩ := hsound
  obtain ⟨v, hv, rfl⟩ := Option.map_eq_some_iff.mp hb
  obtain ⟨w, hw, rfl⟩ := Option.map_eq_some_iff.mp hc
  have hvfits := hs target v hv
  have hwfits := hs source w hw
  have htarget := hcounts.released_iff hvfits.region
  have hsource := hcounts.released_iff hwfits.region
  by_cases hzero : Buffer.transferable (s.load v) (s.load w) = 0
  · obtain ⟨s', htransfer, -⟩ := transfer_of_zero hv hw hzero
    exact ⟨_, s', htransfer, iff_of_false (by simp) fun h => h.1 hzero, fun f hf => by cases hf⟩
  · by_cases hgone : (s.load v).region.storage = none ∨ (s.load w).region.storage = none
    · obtain ⟨s', htransfer, hregions, hothers, hreader, hsame⟩ :=
        hwfits.transfer_of_gone hv hw hzero hgone
      refine ⟨_, s', htransfer, iff_of_true ⟨_, rfl⟩ ⟨hzero, ?_⟩, fun f hf => ?_⟩
      · rwa [htarget, hsource]
      · cases hf
        refine ⟨rfl, hregions, hothers, ?_, hsame.trans hsource.symm⟩
        rw [hreader]
        split
        · next hreleased => rw [hsource.mp hreleased]; rfl
        · next hreleased =>
          have hpresent := Option.isSome_iff_ne_none.mpr (mt hsource.mpr hreleased)
          rw [hpresent]
          rfl
    · rw [not_or] at hgone
      have hvlive := hvfits.valid.cases.resolve_left hgone.1
      have hwlive := hwfits.valid.cases.resolve_left hgone.2
      obtain ⟨b, htransfer, -⟩ := transferViews_of_live hvlive hwlive rfl
      refine ⟨_, _, transfer_of_views hv hw htransfer, iff_of_false (by simp) ?_,
        fun f hf => by cases hf⟩
      rw [htarget, hsource]
      exact fun h => h.2.elim hgone.1 hgone.2

/-- Inside a region that has been given up a transfer fails and takes nothing. -/
theorem failed_transfer_within :
    let steps : List Step := [.ofBytes "a" [1, 2], .duplicate "a" "b", .access "b" .clear,
      .access "a" .release]
    let b : Buffer := ⟨⟨none, -1⟩, 0, 0, Buffer.maxLimit⟩
    let c : Buffer := ⟨⟨none, -1⟩, 0, 2, Buffer.maxLimit⟩
    (after {} steps).buffer? "b" = some b ∧ (after {} steps).buffer? "a" = some c ∧
      ∃ s', (after {} steps).transfer "b" "a" = some (.error (Fault.released : Failure), s') ∧
        (after {} steps).Same s' := by
  intro steps b c
  have hb : (after {} steps).buffer? "b" = some b := by decide
  have hc : (after {} steps).buffer? "a" = some c := by decide
  obtain ⟨r, s', htransfer, hfails, hafter⟩ := failed_transfer steps hb hc
  obtain ⟨f, rfl⟩ := hfails.mpr ⟨by decide, .inl rfl⟩
  obtain ⟨rfl, -, -, -, hsame⟩ := hafter f rfl
  exact ⟨hb, hc, s', htransfer, hsame.mpr rfl⟩

/-- Of two bytes that are to go to a region that has been given up only the second is left. -/
theorem failed_transfer_takes :
    let s := after {} [.ofBytes "a" [1, 2], .create "b" 4 4, .access "b" .release]
    (s.transfer "b" "a").map Prod.fst = some (.error (Fault.released : Failure)) ∧
      (s.buffer? "a").map (fun c => (Buffer.toBytes c).1) = some (.ok [1, 2]) ∧
      ((s.transfer "b" "a").bind fun out => out.2.buffer? "a").map
        (fun c => (Buffer.toBytes c).1) = some (.ok [2]) :=
  ⟨rfl, rfl, rfl⟩

end Shelf

end Wireform

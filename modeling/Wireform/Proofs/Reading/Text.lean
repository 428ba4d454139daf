import Wireform.Proofs.Reading.Fields
import Wireform.Proofs.Text.Form
import Wireform.Proofs.Length

/-!
The reader of texts parses their forms, whatever the size of the scratch area.
The loop over pieces is invisible: a chunk is read as itself. The loop over
chunks is an induction on the form in one direction and on the bytes that are
still to come in the other. The look at the declared length in front of both
loops refuses nothing that they would accept, as chunks take more room than the
bytes that they carry.
-/

namespace Wireform

/-- A buffer with a scratch area of the given size beside it, as a source of bytes. -/
def Source.desk (size : Nat) : Source (Buffer × List UInt8) where
  Ready p := p.1.Live ∧ p.2.length = size
  input p := p.1.ahead
  Moved p n q := Source.buffer.Moved p.1 n q.1 ∧ q.2.length = p.2.length
  ready_of_moved := by
    rintro p n q ⟨hp, hsize⟩ ⟨hq, hlen⟩
    exact ⟨Source.buffer.ready_of_moved hp hq, hlen.trans hsize⟩
  moved_zero := fun h => ⟨Source.buffer.moved_zero h.1, rfl⟩
  moved_add := fun h h' => ⟨Source.buffer.moved_add h.1 h'.1, h'.2.trans h.2⟩
  input_of_moved := fun h => Source.buffer.input_of_moved h.1

namespace Text

variable {α : Type} {size : Nat}

theorem parses_onBuffer {act : Action Buffer α} {W : α → List UInt8 → Prop}
    (h : Parses Source.buffer act W) : Parses (Source.desk size) (onBuffer act) W where
  reads := by
    rintro ⟨b, scratch⟩ ⟨hb, hsize⟩
    obtain ⟨e, rest, b', hin, hb', ⟨a, ha, hw⟩ | ⟨f, hf, hfatal⟩⟩ := h.reads hb
    · exact ⟨e, rest, (b', scratch), hin, ⟨hb', rfl⟩, .inl ⟨a, by simp only [onBuffer, ha], hw⟩⟩
    · exact ⟨e, rest, (b', scratch), hin, ⟨hb', rfl⟩,
        .inr ⟨f, by simp only [onBuffer, hf], hfatal⟩⟩
  spells := by
    intro a e ha
    have hspells := h.spells a e ha
    constructor
    · rintro ⟨b, scratch⟩ rest ⟨hb, hsize⟩ hin
      obtain ⟨b', hact, hb'⟩ := hspells.yields hb hin
      exact ⟨(b', scratch), by simp only [onBuffer, hact], hb', rfl⟩
    · rintro front missing he hm ⟨b, scratch⟩ ⟨hb, hsize⟩ hin
      obtain ⟨f, b', hact, hf⟩ := hspells.starves he hm hb hin
      exact ⟨f, (b', scratch), by simp only [onBuffer, hact], hf⟩

theorem parses_stage {piece : List UInt8} (h : piece.length ≤ size) :
    Parses (Source.desk size) (stage piece) fun data e => data = piece ∧ e = [] := by
  refine Parses.still ?_
  rintro ⟨b, scratch⟩ ⟨hb, hsize⟩
  refine ⟨(b, piece ++ scratch.drop piece.length), ?_, Source.buffer.moved_zero hb, ?_⟩
  · simp only [stage, List.take_left]
  · simp only [List.length_append, List.length_drop] at hsize ⊢
    omega

/-- What is copied out of the scratch area is what was read into it. -/
theorem parses_readPiece {n : Nat} (hn : n ≤ size) :
    Parses (Source.desk size) (readPiece n) fun data e => data = e ∧ e.length = n := by
  have hstaged : Parses (Source.desk size) (onBuffer (Buffer.readBytes n) >>= stage) _ :=
    (parses_onBuffer (Buffer.parses_take "read_bytes" n)).bind_still (g := id)
      fun piece e h => parses_stage (by rw [h.1, h.2]; exact hn)
  refine Parses.of_eq (hstaged.congr fun data e => by simp) fun p hp => ?_
  have hroom : ¬ p.2.length < n := by
    rw [hp.2]
    omega
  show (Action.get >>= _) p = _
  rw [Action.bind_of_ok (Action.get_apply p)]
  simp only [if_neg hroom]

/-- Reading in pieces is not to be seen from outside. -/
theorem parses_readPieces (hsize : 0 < size) (n : Nat) :
    Parses (Source.desk size) (readPieces size n) fun data e => data = e ∧ e.length = n := by
  induction n using Nat.strongRecOn with
  | ind n ih =>
      rw [readPieces]
      split
      · next hn =>
        subst hn
        refine (Parses.pure (Source.desk size) []).congr fun data e => ?_
        rw [List.length_eq_zero_iff]
        constructor
        · rintro ⟨rfl, rfl⟩
          exact ⟨rfl, rfl⟩
        · rintro ⟨rfl, rfl⟩
          exact ⟨rfl, rfl⟩
      · next hn =>
        -- a piece is never empty, so less is left to read after it
        have hstep : min n (max 1 size) ≤ size := by omega
        have hrest := ih (n - min n (max 1 size)) (by omega)
        refine ((parses_readPiece hstep).bind fun piece _ _ => hrest.map).congr fun data e => ?_
        constructor
        · rintro ⟨_, x, y, ⟨rfl, hx⟩, ⟨_, rfl, rfl, hy⟩, rfl⟩
          refine ⟨rfl, ?_⟩
          rw [List.length_append, hx, hy]
          omega
        · rintro ⟨rfl, hdata⟩
          refine ⟨_, data.take (min n (max 1 size)), data.drop (min n (max 1 size)), ⟨rfl, ?_⟩,
            ⟨_, (List.take_append_drop _ data).symm, rfl, ?_⟩, (List.take_append_drop _ data).symm⟩
          · rw [List.length_take]
            omega
          · rw [List.length_drop, hdata]

theorem parses_readChunks (hsize : 0 < size) (length offset : Nat) (hoffset : offset ≤ length) :
    Parses (Source.desk size) (readChunks size length offset)
      fun data e => Chunked data e ∧ data.length = length - offset := by
  induction hk : length - offset using Nat.strongRecOn generalizing offset with
  | ind k ih =>
      rw [readChunks]
      split
      · next hlt =>
        refine ((parses_onBuffer Buffer.parses_readShort).bind fun v e _ =>
          Parses.unless rfl fun hv =>
            (parses_readPieces hsize v.toUInt16.toNat).bind fun _ _ _ =>
              (ih (length - (offset + v.toUInt16.toNat)) (by omega)
                (offset + v.toUInt16.toNat) (by omega) rfl).map).congr fun data e => ?_
        constructor
        · rintro ⟨v, _, _, rfl, ⟨hlegal, chunk, _, wire, ⟨rfl, hchunk⟩, ⟨rest, rfl, hrest, hlen⟩,
            rfl⟩, rfl⟩
          -- an empty chunk would have been turned away
          have hne : chunk ≠ [] := by
            rintro rfl
            rw [List.length_nil] at hchunk
            omega
          rw [← hchunk, List.length_append]
          exact ⟨.cons hne (by omega) hrest, by omega⟩
        · rintro ⟨hdata, hlen⟩
          cases hdata with
          | nil =>
              rw [List.length_nil] at hlen
              omega
          | @cons chunk rest wire hne hle hrest =>
              have hpos := List.length_pos_iff.mpr hne
              rw [List.length_append] at hlen
              have hlimit : chunkLimit < UInt16.size := by decide
              have hv : (Int16.ofNat chunk.length).toUInt16.toNat = chunk.length :=
                Length.toUInt16_ofNat (by omega)
              refine ⟨Int16.ofNat chunk.length, _, _, rfl, ?_, by rw [hv]⟩
              rw [hv]
              exact ⟨by omega, chunk, chunk, wire, ⟨rfl, rfl⟩, ⟨rest, rfl, hrest, by omega⟩, rfl⟩
      · next hge =>
        have hzero : k = 0 := by omega
        refine (Parses.pure (Source.desk size) []).congr fun data e => ?_
        rw [hzero]
        exact chunked_and_length_zero.symm

theorem parses_decoded (hsize : 0 < size) (length : Nat) :
    Parses (Source.desk size) (readChunks size length 0 >>= fun data =>
        match ofBytes? data with
        | some s => pure s
        | none => Action.fail Fault.invalidText)
      fun s e => Chunked (bytes s) e ∧ (bytes s).length = length where
  reads := by
    refine (parses_readChunks hsize length 0 (Nat.zero_le _)).reads.bind fun data e hdata => ?_
    split
    · next s hs =>
      refine Reads.pure ?_
      rw [bytes_of_ofBytes? hs, List.append_nil]
      exact hdata
    · exact Reads.fail rfl
  spells := by
    rintro s e hs
    refine ((parses_readChunks hsize length 0 (Nat.zero_le _)).spells _ e hs).bind_nil ?_
    rw [ofBytes?_bytes]
    exact Spells.pure _ s

/-- Behind its length words a text is read after one look at how much is there. Past that look
memory is asked for only as far as there are bytes. -/
theorem read_body_eq (v : Int32) {p : Buffer × List UInt8} (hsize : p.2.length = size) :
    (Action.get >>= fun q : Buffer × List UInt8 =>
      if q.1.readableBytes < v.toInt.toNat then
        Action.fail (Fault.shortText v.toInt q.1.readableBytes)
      else do
        onBuffer (Buffer.reserve v.toInt.toNat)
        let data ← readChunks q.2.length v.toInt.toNat 0
        match ofBytes? data with
        | some s => return s
        | none => Action.fail Fault.invalidText) p =
      if p.1.readableBytes < v.toInt.toNat then
        (.error (Fault.shortText v.toInt p.1.readableBytes), p)
      else (readChunks size v.toInt.toNat 0 >>= fun data =>
        match ofBytes? data with
        | some s => pure s
        | none => Action.fail Fault.invalidText) p := by
  subst hsize
  rw [Action.bind_of_ok (Action.get_apply p)]
  split
  · rfl
  · next hfew =>
    have hreserve := Buffer.reserve_of_le (Nat.not_lt.mp hfew)
    have hreserved : onBuffer (Buffer.reserve v.toInt.toNat) p = (.ok (), p) := by
      simp only [onBuffer, hreserve]
    exact Action.bind_of_ok hreserved

/-- The look at the declared length turns away no text: chunks are not shorter than what they
carry. -/
theorem parses_read (hsize : 0 < size) : Parses (Source.desk size) read Form := by
  unfold read
  simp only [Action.fail_bind]
  refine ((parses_onBuffer Buffer.parses_readInt).bind fun v _ _ =>
    (parses_onBuffer Buffer.parses_readInt).bind fun w _ _ =>
      Parses.unless rfl fun _ => Parses.unless rfl fun _ =>
        Parses.of_eq (Parses.guard (parses_decoded hsize v.toInt.toNat)
          (c := fun p => p.1.readableBytes < v.toInt.toNat)
          (g := fun p => Fault.shortText v.toInt p.1.readableBytes) ?_ ?_)
          fun p hp => read_body_eq v hp.2).congr fun s e => ?_
  -- if too few bytes are there for the text, too few are there for its chunks
  · rintro ⟨b, scratch⟩ s e ⟨hb, -⟩ ⟨hchunked, hlen⟩ hfew
    have hle := hchunked.length_le
    show b.ahead.length < e.length
    rw [hb.length_ahead]
    exact Nat.lt_of_lt_of_le hfew (hlen ▸ hle)
  · exact fun _ => ⟨.inr rfl, rfl⟩
  · constructor
    · rintro ⟨v, _, _, rfl, ⟨w, _, wire, rfl, ⟨heq, hpos, hchunked, hlen⟩, rfl⟩, rfl⟩
      have hw : v = w := Int32.toInt_inj.mp (Decidable.not_not.mp heq)
      have hfits := Length.toNat_toInt_le v
      rw [← hlen] at hfits
      rw [Length.toNat_toInt (Int.not_lt.mp hpos)] at hlen
      exact ⟨hfits, wire, hchunked, by rw [← hw, hlen]⟩
    · rintro ⟨hfits, wire, hchunked, rfl⟩
      have hv := Length.toInt_ofNat hfits
      have hn := Length.toUInt32_ofNat hfits
      refine ⟨Int32.ofNat (bytes s).length, _, _, by rw [hn],
        ⟨Int32.ofNat (bytes s).length, _, wire, by rw [hn],
          ⟨not_not_intro rfl, by rw [hv]; omega, hchunked, by rw [hv]; rfl⟩, rfl⟩, rfl⟩

end Text

end Wireform

import Wireform.Proofs.Reading.Rejection
import Wireform.Proofs.Reading.Text
import Wireform.Proofs.Text.Defect
import Wireform.Proofs.Twin.Judgment

/-!
The reader of texts takes the forms of texts and nothing else, and rejects
everything else with the code of its defect. The size of the scratch area has a
part in neither: it decides in how many pieces a chunk is fetched, and so how
far the reader has come when a piece is not there any more, but a chunk that is
cut off is cut off in one piece as in many.

Bytes that are missing at the end are mostly reported as missing. The reader
makes sure in advance that there are as many bytes as the text is long. It does
not count the lengths of the chunks among them, for which there may then be too
few.
-/

namespace Wireform.Text

variable {α : Type} {size : Nat}

theorem rejects_onBuffer {act : Action Buffer α} {D : Code → List UInt8 → Prop}
    (h : Rejects Source.buffer act D) : Rejects (Source.desk size) (onBuffer act) D := by
  rintro ⟨b, scratch⟩ ⟨hb, -⟩ c
  refine Iff.trans ?_ (h hb c)
  constructor
  · rintro ⟨f, t, hf, hc⟩
    have hact : (act b).1 = .error f := congrArg Prod.fst hf
    exact ⟨f, (act b).2, Prod.ext hact rfl, hc⟩
  · rintro ⟨f, b', hf, hc⟩
    exact ⟨f, (b', scratch), by simp only [onBuffer, hf], hc⟩

theorem rejects_readPiece {n : Nat} (hn : n ≤ size) :
    Rejects (Source.desk size) (readPiece n) fun c i => c = .outOfBounds ∧ i.length < n := by
  have hstaged : Rejects (Source.desk size) (onBuffer (Buffer.readBytes n) >>= stage) _ :=
    (rejects_onBuffer (Buffer.rejects_take "read_bytes" n)).bind
      (parses_onBuffer (Buffer.parses_take "read_bytes" n)) fun piece _ _ =>
        .of_ok fun p _ => ⟨_, _, rfl⟩
  refine Rejects.of_eq (hstaged.congr fun c i => by simp) fun p hp => ?_
  have hroom : ¬ p.2.length < n := by
    rw [hp.2]
    omega
  show (Action.get >>= _) p = _
  rw [Action.bind_of_ok (Action.get_apply p)]
  simp only [if_neg hroom]

theorem rejects_readPieces (hsize : 0 < size) (n : Nat) :
    Rejects (Source.desk size) (readPieces size n) fun c i => c = .outOfBounds ∧ i.length < n := by
  induction n using Nat.strongRecOn with
  | ind n ih =>
      rw [readPieces]
      split
      · next hn =>
        subst hn
        exact (Rejects.pure _ _).congr fun c i => by simp
      · next hn =>
        have hstep : min n (max 1 size) ≤ size := by omega
        have hrest := ih (n - min n (max 1 size)) (by omega)
        refine ((rejects_readPiece hstep).bind (parses_readPiece hstep) fun piece _ _ =>
          hrest.map (parses_readPieces hsize _) (piece ++ ·)).congr fun c i => ?_
        constructor
        · rintro (⟨hc, hfew⟩ | ⟨_, piece, rest, rfl, ⟨rfl, hpiece⟩, hc, hfew⟩)
          · exact ⟨hc, by omega⟩
          · exact ⟨hc, by rw [List.length_append]; omega⟩
        · rintro ⟨hc, hfew⟩
          by_cases hpiece : i.length < min n (max 1 size)
          · exact .inl ⟨hc, hpiece⟩
          · refine .inr ⟨_, i.take (min n (max 1 size)), i.drop (min n (max 1 size)),
              (List.take_append_drop _ i).symm, ⟨rfl, ?_⟩, hc, ?_⟩
            · exact List.length_take_of_le (Nat.not_lt.mp hpiece)
            · rw [List.length_drop]
              omega

theorem rejects_readChunks (hsize : 0 < size) (length offset : Nat) (hoffset : offset ≤ length) :
    Rejects (Source.desk size) (readChunks size length offset) (Breaks (length - offset)) := by
  induction hk : length - offset using Nat.strongRecOn generalizing offset with
  | ind k ih =>
      rw [readChunks]
      split
      · next hlt =>
        refine ((rejects_onBuffer Buffer.rejects_readShort).bind
          (parses_onBuffer Buffer.parses_readShort) fun v _ _ =>
            Rejects.ite (fun _ => Rejects.fail _ _) fun hv =>
              (rejects_readPieces hsize v.toUInt16.toNat).bind
                (parses_readPieces hsize v.toUInt16.toNat) fun _ _ _ =>
                  (ih (length - (offset + v.toUInt16.toNat)) (by omega)
                    (offset + v.toUInt16.toNat) (by omega) rfl).map
                      (parses_readChunks hsize length _ (by omega)) _).congr fun c i => ?_
        have hillegal (n : Nat) :
            (n = 0 ∨ chunkLimit < n ∨ length < offset + n) ↔ Illegal k n := by
          unfold Illegal
          omega
        have hleft (n : Nat) : length - (offset + n) = k - n := by omega
        simp only [hillegal, hleft]
        rw [breaks_iff (by omega)]
        refine or_congr Iff.rfl ?_
        constructor
        · rintro ⟨v, _, rest, rfl, rfl, h⟩
          refine ⟨v.toUInt16.toNat, rest, v.toUInt16.toNat_lt, rfl, ?_⟩
          rcases h with hbad | ⟨hlegal, hfew | ⟨_, chunk, behind, hrest, ⟨rfl, hlen⟩, hbehind⟩⟩
          · exact .inl hbad
          · exact .inr ⟨hlegal, .inl hfew⟩
          · exact .inr ⟨hlegal, .inr ⟨_, behind, hrest, hlen, hbehind⟩⟩
        · rintro ⟨n, rest, hword, rfl, h⟩
          have hv : (Int16.ofNat n).toUInt16.toNat = n := Length.toUInt16_ofNat hword
          refine ⟨Int16.ofNat n, _, rest, rfl, by rw [hv], ?_⟩
          rw [hv]
          rcases h with hbad | ⟨hlegal, hfew | ⟨chunk, behind, hrest, hlen, hbehind⟩⟩
          · exact .inl hbad
          · exact .inr ⟨hlegal, .inl hfew⟩
          · exact .inr ⟨hlegal, .inr ⟨chunk, chunk, behind, hrest, ⟨rfl, hlen⟩, hbehind⟩⟩
      · next hge =>
        refine (Rejects.pure _ _).congr fun c i => iff_of_false not_false ?_
        rintro ⟨data, wire, tail, -, -, hless, -⟩
        omega

theorem rejects_decoded (hsize : 0 < size) (length : Nat) :
    Rejects (Source.desk size) (readChunks size length 0 >>= fun data =>
        match ofBytes? data with
        | some s => pure s
        | none => Action.fail Fault.invalidText)
      fun c i => Breaks length c i ∨ ∃ data wire rest, i = wire ++ rest ∧
        (Chunked data wire ∧ data.length = length) ∧ ofBytes? data = none ∧ c = .malformedText := by
  refine (rejects_readChunks hsize length 0 (Nat.zero_le _)).bind
    (parses_readChunks hsize length 0 (Nat.zero_le _)) fun data wire _ => ?_
  split
  · next s hs => exact (Rejects.pure _ s).congr fun c i => by simp [hs]
  · next hs => exact (Rejects.fail _ _).congr fun c i => by simp [hs]; rfl

theorem exists_word {e : List UInt8} (h : e.length = 4) :
    ∃ v : Int32, e = BigEndian.encode 4 v.toUInt32.toNat := by
  have hspan : BigEndian.span 4 = UInt32.size := rfl
  have hlt : BigEndian.decode e < UInt32.size := by
    rw [← hspan, ← h]
    exact BigEndian.decode_lt e
  refine ⟨(UInt32.ofNat (BigEndian.decode e)).toInt32, ?_⟩
  rw [UInt32.toUInt32_toInt32, UInt32.toNat_ofNat_of_lt' hlt, ← h]
  exact (BigEndian.encode_decode e).symm

/-- What is not a form of a text is rejected for its defect. -/
theorem rejects_read (hsize : 0 < size) : Rejects (Source.desk size) read Corrupt := by
  unfold read
  simp only [Action.fail_bind]
  have hword : Rejects (Source.desk size) (onBuffer Buffer.readInt) _ :=
    rejects_onBuffer Buffer.rejects_readInt
  refine (hword.bind (parses_onBuffer Buffer.parses_readInt) fun v _ _ =>
    hword.bind (parses_onBuffer Buffer.parses_readInt) fun w _ _ =>
      Rejects.ite (fun _ => Rejects.fail _ _) fun _ =>
        Rejects.ite (fun _ => Rejects.fail _ _) fun _ =>
          Rejects.of_eq (Rejects.guard (rejects_decoded hsize v.toInt.toNat)
            (p := fun p => p.1.readableBytes < v.toInt.toNat)
            (P := fun i => i.length < v.toInt.toNat)
            (g := fun p => Fault.shortText v.toInt p.1.readableBytes) ?_ fun _ => rfl)
            fun p hp => read_body_eq v hp.2).congr fun c i => ?_
  · rintro p ⟨hp, -⟩
    rw [← hp.length_ahead]
    rfl
  · constructor
    · rintro (⟨rfl, hfew⟩ | ⟨v, _, rest, rfl, rfl, h⟩)
      · exact .lengths (by omega)
      · rcases h with ⟨rfl, hfew⟩ | ⟨w, _, rest, rfl, rfl, h⟩
        · refine .lengths ?_
          rw [List.length_append, BigEndian.length_encode]
          omega
        · rcases h with ⟨hne, rfl⟩ | ⟨heq, h⟩
          · exact .copy rest fun hvw => hne (by rw [hvw])
          · have hvw : v = w := Int32.toInt_inj.mp (Decidable.not_not.mp heq)
            subst hvw
            rw [← List.append_assoc]
            rcases h with ⟨hneg, rfl⟩ | ⟨hpos, h⟩
            · exact .negative rest hneg
            · have hpos := Int.not_lt.mp hpos
              rcases h with ⟨hfew, rfl⟩ | ⟨henough, hbreaks | ⟨data, wire, rest, rfl, hdata, h⟩⟩
              · exact .short hpos hfew
              · exact .chunks hpos (Nat.not_lt.mp henough) hbreaks
              · obtain ⟨hnone, rfl⟩ := h
                exact .invalid rest hpos hdata.1 hdata.2 hnone
    · intro h
      cases h with
      | lengths h =>
          by_cases hfour : i.length < 4
          · exact .inl ⟨rfl, hfour⟩
          · obtain ⟨v, hv⟩ := exists_word (List.length_take_of_le (Nat.not_lt.mp hfour))
            refine .inr ⟨v, i.take 4, i.drop 4, (List.take_append_drop 4 i).symm, hv,
              .inl ⟨rfl, ?_⟩⟩
            rw [List.length_drop]
            omega
      | @copy v w rest h =>
          have hne : v.toInt ≠ w.toInt := fun hvw => h (Int32.toInt_inj.mp hvw)
          exact .inr ⟨v, _, _, rfl, rfl, .inr ⟨w, _, rest, rfl, rfl, .inl ⟨hne, rfl⟩⟩⟩
      | negative rest h =>
          exact .inr ⟨_, _, _, List.append_assoc .., rfl, .inr ⟨_, _, rest, rfl, rfl,
            .inr ⟨not_not_intro rfl, .inl ⟨h, rfl⟩⟩⟩⟩
      | short hpos h =>
          exact .inr ⟨_, _, _, List.append_assoc .., rfl, .inr ⟨_, _, _, rfl, rfl,
            .inr ⟨not_not_intro rfl, .inr ⟨Int.not_lt.mpr hpos, .inl ⟨h, rfl⟩⟩⟩⟩⟩
      | chunks hpos hlen h =>
          exact .inr ⟨_, _, _, List.append_assoc .., rfl, .inr ⟨_, _, _, rfl, rfl,
            .inr ⟨not_not_intro rfl, .inr ⟨Int.not_lt.mpr hpos,
              .inr ⟨Nat.not_lt.mpr hlen, .inl h⟩⟩⟩⟩⟩
      | @invalid v data wire rest hpos hchunked hlen h =>
          -- chunks are at least as long as what they carry
          have henough : ¬ (wire ++ rest).length < v.toInt.toNat := by
            have hle := hchunked.length_le
            rw [List.length_append]
            omega
          exact .inr ⟨_, _, _, List.append_assoc .., rfl, .inr ⟨_, _, _, rfl, rfl,
            .inr ⟨not_not_intro rfl, .inr ⟨Int.not_lt.mpr hpos,
              .inr ⟨henough, .inr ⟨data, wire, rest, rfl, ⟨hchunked, hlen⟩, h, rfl⟩⟩⟩⟩⟩⟩

/-! ### What becomes of a text -/

section Verdict

variable {b : Buffer} {scratch : List UInt8} {s : String}

theorem read_of_form (hb : b.Live) (hscratch : scratch ≠ []) {e rest : List UInt8}
    (hahead : b.ahead = e ++ rest) (h : Form s e) :
    (read (b, scratch)).1 = .ok s ∧ (read (b, scratch)).2.1 = b.advance e.length := by
  have hsize := List.length_pos_iff.mpr hscratch
  obtain ⟨t, hread, ⟨-, ht⟩, -⟩ :=
    ((parses_read hsize).spells s e h).yields (s := (b, scratch)) ⟨hb, rfl⟩ hahead
  exact ⟨congrArg Prod.fst hread, by rw [hread, ht]⟩

theorem form_of_read (hb : b.Live) (hscratch : scratch ≠ []) (h : (read (b, scratch)).1 = .ok s) :
    ∃ e rest, b.ahead = e ++ rest ∧ Form s e := by
  have hsize := List.length_pos_iff.mpr hscratch
  obtain ⟨e, rest, t, hahead, -, ⟨s', hread, hform⟩ | ⟨f, hread, -⟩⟩ :=
    (parses_read hsize).reads (s := (b, scratch)) ⟨hb, rfl⟩
  · rw [hread] at h
    cases h
    exact ⟨e, rest, hahead, hform⟩
  · rw [hread] at h
    cases h

theorem read_error_iff (hb : b.Live) (hscratch : scratch ≠ []) (c : Code) :
    (∃ f, (read (b, scratch)).1 = .error f ∧ f.code = c) ↔ Corrupt c b.ahead := by
  refine Iff.trans ?_
    (rejects_read (List.length_pos_iff.mpr hscratch) (s := (b, scratch)) ⟨hb, rfl⟩ c)
  constructor
  · rintro ⟨f, hf, hc⟩
    exact ⟨f, _, Prod.ext hf rfl, hc⟩
  · rintro ⟨f, t, hf, hc⟩
    exact ⟨f, congrArg Prod.fst hf, hc⟩

/-- A text is read, as `s` and with `k` bytes consumed, exactly if a form of `s` that is `k` bytes
long stands ahead. Any two scratch areas that are not empty come to the same. -/
theorem read_iff_form (hb : b.Live) (hscratch : scratch ≠ []) :
    (∀ s k, ((read (b, scratch)).1 = .ok s ∧ (read (b, scratch)).2.1 = b.advance k) ↔
      ∃ e rest, b.ahead = e ++ rest ∧ Form s e ∧ e.length = k) ∧
    ∀ scratch', scratch' ≠ [] →
      Agree (fun f g => g.code = f.code) (read (b, scratch)).1 (read (b, scratch')).1 ∧
      ((read (b, scratch)).1.isOk → (read (b, scratch')).2.1 = (read (b, scratch)).2.1) := by
  constructor
  · intro s k
    constructor
    · rintro ⟨hread, hk⟩
      obtain ⟨e, rest, hahead, hform⟩ := form_of_read hb hscratch hread
      have hmoved := (read_of_form hb hscratch hahead hform).2.symm.trans hk
      have hlength := Nat.add_left_cancel (congrArg Buffer.reader hmoved)
      exact ⟨e, rest, hahead, hform, hlength⟩
    · rintro ⟨e, rest, hahead, hform, rfl⟩
      exact read_of_form hb hscratch hahead hform
  · intro scratch' hscratch'
    cases hread : (read (b, scratch)).1 with
    | ok s =>
        obtain ⟨e, rest, hahead, hform⟩ := form_of_read hb hscratch hread
        have hread' := read_of_form hb hscratch' hahead hform
        rw [hread'.1, hread'.2, (read_of_form hb hscratch hahead hform).2]
        exact ⟨.ok s, fun _ => rfl⟩
    | error f =>
        have hcorrupt := (read_error_iff hb hscratch f.code).mp ⟨f, hread, rfl⟩
        obtain ⟨g, hg, hcode⟩ := (read_error_iff hb hscratch' f.code).mpr hcorrupt
        rw [hg]
        exact ⟨.error hcode, nofun⟩

/-- The bytes of one character stand in two chunks, and of three bytes of scratch area two are left
as they were. -/
theorem read_iff_form_split :
    let b := Buffer.ofBytes [0, 0, 0, 2, 0, 0, 0, 2, 0, 1, 0xC3, 0, 1, 0xA9, 7]
    b.Live ∧ ([0] : List UInt8) ≠ [] ∧
      ((read (b, [0])).1 = .ok "é" ∧ (read (b, [0])).2.1 = b.advance 14) ∧
      Agree (fun f g => g.code = f.code) (read (b, [0])).1 (read (b, [9, 9, 9])).1 := by
  intro b
  have hb : b.Live := Buffer.live_ofBytes _
  have hbytes : bytes "é" = [0xC3] ++ ([0xA9] ++ []) := by decide
  have hchunked : Chunked (bytes "é") ([0, 1] ++ ([0xC3] ++ ([0, 1] ++ ([0xA9] ++ [])))) := by
    rw [hbytes]
    exact .cons (by decide) (by decide) (.cons (by decide) (by decide) .nil)
  have hform : Form "é" [0, 0, 0, 2, 0, 0, 0, 2, 0, 1, 0xC3, 0, 1, 0xA9] :=
    ⟨by decide, _, hchunked, by decide⟩
  have hscratch : ([0] : List UInt8) ≠ [] := by decide
  have hread := read_iff_form hb hscratch
  exact ⟨hb, hscratch, (hread.1 "é" 14).mpr ⟨_, [7], by simp [b], hform, rfl⟩,
    (hread.2 [9, 9, 9] (by decide)).1⟩

/-- Behind both length words a failure says that the bytes are wrong, unless there are as many bytes
as the text is long and a chunk is cut off nevertheless. Then it says that bytes are missing. -/
theorem read_failure_judged (hb : b.Live) (hscratch : scratch ≠ []) (hwords : 8 ≤ b.ahead.length) :
    (∀ f, (read (b, scratch)).1 = .error f → f.code = .malformedText ∨ f.code = .outOfBounds) ∧
    ((∃ f, (read (b, scratch)).1 = .error f ∧ f.code = .malformedText) ↔
      Corrupt .malformedText b.ahead) ∧
    ((∃ f, (read (b, scratch)).1 = .error f ∧ f.code = .outOfBounds) ↔
      ∃ v data wire tail, b.ahead = announced v ++ (wire ++ tail) ∧ 0 ≤ v.toInt ∧
        v.toInt.toNat ≤ (wire ++ tail).length ∧ Chunked data wire ∧
        data.length < v.toInt.toNat ∧
        (tail.length < 2 ∨ ∃ n rest, tail = BigEndian.encode 2 n ++ rest ∧
          ¬ Illegal (v.toInt.toNat - data.length) n ∧ rest.length < n)) := by
  refine ⟨fun f hf => ?_, read_error_iff hb hscratch _, ?_⟩
  · exact ((read_error_iff hb hscratch f.code).mp ⟨f, hf, rfl⟩).code_eq
  · rw [read_error_iff hb hscratch, corrupt_outOfBounds_iff hwords]
    simp only [Breaks, stop_outOfBounds_iff]
    constructor
    · rintro ⟨v, _, hahead, hpos, hlen, data, wire, tail, rfl, hchunked, hless, hstop⟩
      exact ⟨v, data, wire, tail, hahead, hpos, hlen, hchunked, hless, hstop⟩
    · rintro ⟨v, data, wire, tail, hahead, hpos, hlen, hchunked, hless, hstop⟩
      exact ⟨v, _, hahead, hpos, hlen, data, wire, tail, rfl, hchunked, hless, hstop⟩

/-- The second of two chunks is cut off. -/
theorem read_failure_judged_second :
    let b := Buffer.ofBytes [0, 0, 0, 3, 0, 0, 0, 3, 0, 1, 0x61, 0, 2, 0x62]
    b.Live ∧ ([0] : List UInt8) ≠ [] ∧ 8 ≤ b.ahead.length ∧
      ∃ f, (read (b, [0])).1 = .error f ∧ f.code = .outOfBounds := by
  intro b
  have hb : b.Live := Buffer.live_ofBytes _
  have hscratch : ([0] : List UInt8) ≠ [] := by decide
  have hwords : 8 ≤ b.ahead.length := by simp [b]
  have hchunked : Chunked ([0x61] ++ []) ([0, 1] ++ ([0x61] ++ [])) :=
    .cons (by decide) (by decide) .nil
  refine ⟨hb, hscratch, hwords, (read_failure_judged hb hscratch hwords).2.2.mpr
    ⟨3, [0x61], _, [0, 2, 0x62], by simp [b]; rfl, by decide, by decide, hchunked, by decide, ?_⟩⟩
  exact .inr ⟨2, [0x62], by decide, by simp [Illegal, chunkLimit], by decide⟩

/-- A chunk is announced that is as long as the text and longer than what is left. The bytes are not
called wrong, but missing. -/
theorem read_cut_chunk :
    let b := Buffer.ofBytes [0, 0, 0, 3, 0, 0, 0, 3, 0, 3, 0x61]
    b.Live ∧ 8 ≤ b.ahead.length ∧ ∃ f, (read (b, List.replicate 8 0)).1 = .error f ∧
      f.code = .outOfBounds ∧ f.code ≠ .malformedText := by
  intro b
  have hb : b.Live := Buffer.live_ofBytes _
  have hscratch : (List.replicate 8 0 : List UInt8) ≠ [] := by decide
  have hahead : b.ahead = announced 3 ++ [0, 3, 0x61] := by
    simp [b]
    rfl
  have hstop : Stop 3 .outOfBounds (BigEndian.encode 2 3 ++ [0x61]) :=
    .body (by simp [Illegal, chunkLimit]) (by decide)
  have hcorrupt : Corrupt .outOfBounds b.ahead := by
    rw [hahead]
    exact .chunks (by decide) (by decide) ⟨[], [], _, rfl, .nil, by decide, hstop⟩
  obtain ⟨f, hf, hcode⟩ := (read_error_iff hb hscratch _).mpr hcorrupt
  exact ⟨hb, by simp [b], f, hf, hcode, by rw [hcode]; decide⟩

end Verdict

end Wireform.Text

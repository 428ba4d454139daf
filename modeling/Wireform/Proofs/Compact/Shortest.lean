import Mathlib.Algebra.Group.Nat.Defs
import Mathlib.Data.Nat.Size
import Mathlib.Order.Monotone.Basic
import Wireform.Proofs.Compact.Chunks
import Wireform.Proofs.Compact.Numbers

/-!
How short compact forms are. Readers take more forms than writers make, so that
a writer makes the shortest ones is a statement about everything that is taken.

Of a number the forms of one width are told apart by their payloads, and two
payloads of one width never stand for the same number. So what has to be shown
is that no width below the one that is chosen has a payload for it. Truth
values have many forms of equal length. There the bytes of any chunks are
compared with the most values that so many bytes can carry at all (`reach`): a
chunk added to others never carries more than its bytes add to that, and the
choice of chunks that a writer makes loses nothing against it.
-/

namespace Wireform

section Codes

variable {α : Type}

/-- The bytes `e` are what `write` appends wherever there is room for them, and what `read` takes as
`a`, whatever stands behind them. -/
structure Codes (write : Action Buffer Unit) (read : Action Buffer α) (a : α) (e : List UInt8) :
    Prop where
  appended : ∀ ⦃b : Buffer⦄, b.Live → b.writer + e.length ≤ b.limit →
    ∃ b', write b = (.ok (), b') ∧ b.Appended e b'
  taken : ∀ ⦃b : Buffer⦄ ⦃rest⦄, b.Live → b.ahead = e ++ rest →
    read b = (.ok a, b.advance e.length)

/-- Somewhere `read` takes just the bytes `e`, and takes them as `a`. -/
def Takes (read : Action Buffer α) (e : List UInt8) (a : α) : Prop :=
  ∃ (b : Buffer) (rest : List UInt8), b.Live ∧ b.ahead = e ++ rest ∧
    read b = (.ok a, b.advance e.length)

variable {write : Action Buffer Unit} {read : Action Buffer α} {a : α} {e : List UInt8}

theorem Appends.codes (hwrite : Appends Sink.buffer write e)
    (hread : Yields Source.buffer read e a) : Codes write read a e where
  appended := fun b hb hroom => hwrite.emits hb (Nat.le_sub_of_add_le' hroom)
  taken := fun b rest hb hin => by
    obtain ⟨t, hact, -, rfl⟩ := hread hb hin
    exact hact

theorem eq_of_advance_eq {b : Buffer} {e' rest rest' : List UInt8} (hin : b.ahead = e ++ rest)
    (hin' : b.ahead = e' ++ rest') (h : b.advance e.length = b.advance e'.length) : e = e' := by
  have hreader : b.reader + e.length = b.reader + e'.length := congrArg Buffer.reader h
  exact List.append_inj_left (hin.symm.trans hin') (Nat.add_left_cancel hreader)

theorem Parses.of_takes {W : α → List UInt8 → Prop} (h : Parses Source.buffer read W)
    (ht : Takes read e a) : W a e := by
  obtain ⟨b, rest, hb, hin, hread⟩ := ht
  obtain ⟨e', rest', t, hin', ⟨-, rfl⟩, ⟨a', ha, hw⟩ | ⟨f, hf, -⟩⟩ := h.reads hb
  · rw [hread] at ha
    have hstate := congrArg Prod.snd ha
    cases congrArg Prod.fst ha
    rwa [eq_of_advance_eq hin hin' hstate]
  · rw [hread] at hf
    cases hf

end Codes

namespace Compact

namespace Marker

variable {α : Type} {full width : Nat} {g : Nat → Nat → α} {v : α} {e : List UInt8}

/-- A width has one marker, and only three widths below the full one have any. -/
theorem width?_eq_some {marker : UInt8} (hfull : 3 < full)
    (h : width? full marker = some width) :
    marker = encode width ∧ 0 < width ∧ (width ≤ 3 ∨ width = full) := by
  unfold width? at h
  split at h
  · next hone =>
    obtain rfl : full = width := Option.some.inj h
    exact ⟨by rw [hone, encode, if_neg (by omega)], by omega, .inr rfl⟩
  · split at h
    · next hsmall =>
      have hlow : 2 ≤ marker.toNat := hsmall.1
      have hhigh : marker.toNat ≤ 4 := hsmall.2
      obtain rfl : marker.toNat - 1 = width := Option.some.inj h
      refine ⟨?_, by omega, .inl (by omega)⟩
      rw [encode, if_pos (by omega), Nat.sub_add_cancel (by omega), UInt8.ofNat_toNat]
    · cases h

/-- A form of the width `w` with the payload `p` is the only one of its length, and there are none
that are shorter, if payloads that stand for the same are of no lesser width, and of that width only
`p`. -/
theorem Form.eq_or_lt {w p : Nat} (h : Form full g v e) (hfull : 3 < full)
    (hleast : ∀ width n, 0 < width → (width ≤ 3 ∨ width = full) → n < BigEndian.span width →
      g width n = v → w ≤ width ∧ (w = width → n = p)) :
    e = encode w :: BigEndian.encode w p ∨ 1 + w < e.length := by
  obtain ⟨marker, payload, rfl, hmarker, hv⟩ := h
  obtain ⟨rfl, hpos, hwidth⟩ := width?_eq_some hfull hmarker
  obtain ⟨hle, hsame⟩ := hleast _ _ hpos hwidth (BigEndian.decode_lt payload) hv.symm
  rcases Nat.eq_or_lt_of_le hle with heq | hlt
  · left
    rw [← hsame heq, heq, BigEndian.encode_decode]
  · right
    rw [List.length_cons]
    omega

end Marker

/-! ### Numbers of 32 bits -/

namespace Int32

variable {v : Int32} {w n : Nat}

theorem signBit_le (hw : w ≤ 3) : signBit w ≤ 0x800000 := by
  obtain rfl | rfl | rfl | rfl : w = 0 ∨ w = 1 ∨ w = 2 ∨ w = 3 := by omega
  all_goals decide

/-- In a payload of fewer than four bytes the sign bit stands for the complement. -/
theorem toInt_ofPayload (hpos : 0 < w) (hw : w ≤ 3) (hn : n < BigEndian.span w) :
    (ofPayload w n).toInt =
      if n < signBit w then (n : Int) else -((n : Int) - signBit w) - 1 := by
  have hspan := span_eq hpos
  have hsign := signBit_le hw
  rw [ofPayload, if_neg (by omega)]
  split
  · exact Int32.toInt_ofInt_of_le (by omega) (by omega)
  · rw [Int32.toInt_ofInt_of_le (by omega) (by omega)]
    omega

theorem width_le (hpos : 0 < w) (hw : w ≤ 3) (hlow : -(signBit w : Int) ≤ v.toInt)
    (hhigh : v.toInt < signBit w) : width v ≤ w := by
  obtain rfl | rfl | rfl : w = 1 ∨ w = 2 ∨ w = 3 := by omega
  all_goals
    simp only [signBit, BigEndian.span] at hlow hhigh
    simp only [width]
    split
    · omega
    · split
      · omega
      · split
        · omega
        · omega

theorem width_ofPayload_le (hpos : 0 < w) (hw : w ≤ 3 ∨ w = 4) (hn : n < BigEndian.span w) :
    width (ofPayload w n) ≤ w := by
  rcases hw with hw | rfl
  · have hspan := span_eq hpos
    have hvalue := toInt_ofPayload hpos hw hn
    apply width_le hpos hw
    · rw [hvalue]
      split <;> omega
    · rw [hvalue]
      split <;> omega
  · have hbounds := width_bounds (ofPayload 4 n)
    omega

/-- No other payload of the width that a number is written with stands for it. -/
theorem payload_ofPayload (hpos : 0 < w) (hw : w ≤ 3 ∨ w = 4) (hn : n < BigEndian.span w)
    (hwidth : width (ofPayload w n) = w) : payload (ofPayload w n) = n := by
  rw [payload, hwidth]
  rcases hw with hw | rfl
  · have hspan := span_eq hpos
    rw [if_neg (by omega), toInt_ofPayload hpos hw hn]
    split <;> split <;> omega
  · rw [if_pos rfl, ofPayload, if_pos rfl, UInt32.toUInt32_toInt32]
    exact UInt32.toNat_ofNat_of_lt' hn

/-- The bytes that are written for a number are read as it, and all others that are read as it are
more. -/
theorem compactInt_shortest (v : Int32) :
    (encode v).length = encodedLength v ∧ Codes (write v) read v (encode v) ∧
      ∀ e, Takes read e v → e ≠ encode v → encodedLength v < e.length := by
  refine ⟨?_, ?_, fun e htakes hne => ?_⟩
  · rw [encode, List.length_cons, BigEndian.length_encode, encodedLength, Nat.add_comm]
  · exact (appends_write v).codes (parses_read.spells v _ (form_encode v)).yields
  · have hform := parses_read.of_takes htakes
    refine (hform.eq_or_lt (by decide) fun w n hpos hw hn hv => ?_).resolve_left hne
    subst hv
    exact ⟨width_ofPayload_le hpos hw hn, fun hwidth => (payload_ofPayload hpos hw hn hwidth).symm⟩

/-- The least number that does not fit into one byte on its side, in one byte more than it needs. -/
theorem compactInt_shortest_edge :
    Takes read [4, 0x80, 0x00, 0x80] (-0x81) ∧ [4, 0x80, 0x00, 0x80] ≠ encode (-0x81) ∧
      encodedLength (-0x81) < 4 := by
  have htakes : Takes read [4, 0x80, 0x00, 0x80] (-0x81) :=
    ⟨Buffer.ofBytes [4, 0x80, 0x00, 0x80], [], Buffer.live_ofBytes _, by simp, rfl⟩
  have hne : [4, 0x80, 0x00, 0x80] ≠ encode (-0x81) := by decide
  exact ⟨htakes, hne, (compactInt_shortest (-0x81)).2.2 _ htakes hne⟩

end Int32

/-! ### Numbers of 64 bits -/

namespace Int64

variable {v : Int64} {p : Parts} {w n : Nat}

theorem flagUnit_pos (hpos : 0 < w) : 0 < flagUnit w := by
  have hspan := span_eq hpos
  have hlarge := BigEndian.span_pos w
  omega

theorem flagUnit_le (hw : w ≤ 3 ∨ w = 8) : flagUnit w ≤ flagUnit 8 := by
  obtain rfl | rfl | rfl | rfl | rfl : w = 0 ∨ w = 1 ∨ w = 2 ∨ w = 3 ∨ w = 8 := by omega
  all_goals decide

theorem split_join (h : p.magnitude < flagUnit 8) : split (join p) = p := by
  obtain ⟨sign, inverted, magnitude⟩ := p
  have hmodulus : modulus = 2 ^ 63 := rfl
  have hunit : flagUnit 8 = 2 ^ 62 := rfl
  simp only [hunit] at h
  obtain ⟨low, hlow⟩ : ∃ low, low = if inverted then modulus - 1 - magnitude else magnitude :=
    ⟨_, rfl⟩
  have hbound : low < modulus := by
    rw [hlow]
    split <;> omega
  -- with the sign above them the low bits are all of the number
  have hraw : (join ⟨sign, inverted, magnitude⟩).toUInt64.toNat =
      if sign then modulus + low else low := by
    rw [join, UInt64.toUInt64_toInt64, ← hlow]
    refine UInt64.toNat_ofNat_of_lt' ?_
    rw [UInt64.size]
    split <;> omega
  have hsign : modulus ≤ (if sign then modulus + low else low) ↔ sign := by
    cases sign
    · simpa using hbound
    · simp
  have hplain : (if sign then modulus + low else low) % modulus = low := by
    cases sign
    · exact Nat.mod_eq_of_lt hbound
    · rw [if_pos rfl, Nat.add_mod_left, Nat.mod_eq_of_lt hbound]
  have hinverted : modulus - 1 - low < low ↔ inverted := by
    cases inverted
    · simp only [Bool.false_eq_true, if_false, iff_false] at hlow ⊢
      omega
    · simp only [if_true, iff_true] at hlow ⊢
      omega
  have hmagnitude : (if inverted then modulus - 1 - low else low) = magnitude := by
    cases inverted
    · simpa using hlow
    · simp only [if_true] at hlow ⊢
      omega
  simp only [split, hraw, hplain, hsign, hinverted, hmagnitude, Bool.decide_eq_true]

theorem payload_ofPayload (hpos : 0 < w) (hn : n < BigEndian.span w) :
    payload w (ofPayload w n) = n := by
  have hflags : n / flagUnit w < 4 :=
    Nat.div_lt_of_lt_mul (by rw [Nat.mul_comm, ← span_eq hpos]; exact hn)
  have hbits : 2 * (n / flagUnit w / 2 % 2 == 1).toNat + (n / flagUnit w % 2 == 1).toNat =
      n / flagUnit w := by
    generalize n / flagUnit w = flags at hflags
    obtain rfl | rfl | rfl | rfl : flags = 0 ∨ flags = 1 ∨ flags = 2 ∨ flags = 3 := by omega
    all_goals rfl
  rw [payload, ofPayload, hbits, Nat.div_add_mod']

theorem magnitude_ofPayload (hpos : 0 < w) : (ofPayload w n).magnitude < flagUnit w :=
  Nat.mod_lt _ (flagUnit_pos hpos)

theorem width_le {magnitude : Nat} (hpos : 0 < w) (hw : w ≤ 3 ∨ w = 8)
    (h : magnitude < flagUnit w) : width magnitude ≤ w := by
  unfold width
  obtain rfl | rfl | rfl | rfl : w = 1 ∨ w = 2 ∨ w = 3 ∨ w = 8 := by omega
  · exact Nat.le_of_eq (if_pos h)
  · rw [if_pos h]
    split <;> omega
  · rw [if_pos h]
    split
    · omega
    · split <;> omega
  · split
    · omega
    · split
      · omega
      · split <;> omega

/-- The magnitude of a number leaves room for the flags at the width that it is written with. The
bytes that are written are read as it, and all others that are read as it are more. -/
theorem compactLong_shortest (v : Int64) :
    (split v).magnitude < 2 ^ 62 ∧
      (split v).magnitude < flagUnit (width (split v).magnitude) ∧
      (encode v).length = encodedLength v ∧ Codes (write v) read v (encode v) ∧
      ∀ e, Takes read e v → e ≠ encode v → encodedLength v < e.length := by
  have hmagnitude := magnitude_lt v
  refine ⟨hmagnitude, magnitude_lt_flagUnit hmagnitude, ?_, ?_, fun e htakes hne => ?_⟩
  · rw [encode, List.length_cons, BigEndian.length_encode, encodedLength, Nat.add_comm]
  · exact (appends_write v).codes (parses_read.spells v _ (form_encode v)).yields
  · have hform := parses_read.of_takes htakes
    refine (hform.eq_or_lt (by decide) fun w n hpos hw hn hv => ?_).resolve_left hne
    -- the parts that are read from a payload are those that the number is taken apart into
    have hroom := magnitude_ofPayload (n := n) hpos
    have hsplit : split v = ofPayload w n := by
      rw [← hv]
      exact split_join (Nat.lt_of_lt_of_le hroom (flagUnit_le hw))
    rw [hsplit]
    refine ⟨width_le hpos hw hroom, fun hwidth => ?_⟩
    rw [hwidth, payload_ofPayload hpos hn]

/-- The least number of all, in one byte more than it needs. -/
theorem compactLong_shortest_edge :
    Takes read [3, 0x80, 0x00] Int64.minValue ∧ [3, 0x80, 0x00] ≠ encode Int64.minValue ∧
      encodedLength Int64.minValue < 3 := by
  have htakes : Takes read [3, 0x80, 0x00] Int64.minValue :=
    ⟨Buffer.ofBytes [3, 0x80, 0x00], [], Buffer.live_ofBytes _, by simp, rfl⟩
  have hne : [3, 0x80, 0x00] ≠ encode Int64.minValue := by decide
  obtain ⟨-, -, -, -, hlonger⟩ := compactLong_shortest Int64.minValue
  exact ⟨htakes, hne, hlonger _ htakes hne⟩

end Int64

/-! ### Truth values -/

namespace Flags

/-- The most values that chunks of `n` bytes together carry. -/
def reach : (n : Nat) → Nat
  | 0 => 0
  | 1 => 3
  | 2 => 10
  | 3 => 13
  | n + 4 => reach n + 25

/-- A chunk adds no more than its bytes are good for. -/
theorem most_add_reach_le (s : Shape) (n : Nat) : s.most + reach n ≤ reach (s.width + n) := by
  fun_induction reach n with
  | case1 => cases s <;> decide
  | case2 => cases s <;> decide
  | case3 => cases s <;> decide
  | case4 => cases s <;> decide
  | case5 n ih =>
      change s.most + (reach n + 25) ≤ reach (s.width + n) + 25
      omega

theorem length_carried_le (run : List Chunk) :
    (carried run).length ≤ reach (bytesOf run).length := by
  induction run with
  | nil => exact Nat.le_refl 0
  | cons c run ih =>
      have hvalues := c.length_values_le
      have hadd := most_add_reach_le c.shape (bytesOf run).length
      simp only [carried, bytesOf, List.flatMap_cons, List.length_append, c.length_bytes]
        at ih hadd ⊢
      omega

theorem reach_mono : Monotone reach :=
  monotone_nat_of_le_succ fun n => by
    have hadd := most_add_reach_le .single n
    rw [Nat.add_comm n 1]
    exact Nat.le_trans (Nat.le_add_left _ _) hadd

/-- The shape that is chosen for `n` values is no longer than any bytes that can carry them, and
what is left of these bytes can carry what is left of the values. -/
theorem select_le_of_le_reach {n k : Nat} (hne : n ≠ 0) (h : n ≤ reach k) :
    (Shape.select n).width ≤ k ∧ n - (Shape.select n).most ≤ reach (k - (Shape.select n).width) := by
  have hlonger (m : Nat) (hm : reach m < n) : m < k :=
    reach_mono.reflect_lt (Nat.lt_of_lt_of_le hm h)
  unfold Shape.select
  split
  · next hsmall =>
    have hrest : n - 3 = 0 := Nat.sub_eq_zero_of_le hsmall
    exact ⟨hlonger 0 (Nat.pos_of_ne_zero hne), Nat.le_trans (Nat.le_of_eq hrest) (Nat.zero_le _)⟩
  · next hlarge =>
    split
    · next hmiddle =>
      refine ⟨hlonger 1 (Nat.not_le.mp hlarge), ?_⟩
      -- the values beyond the tenth are at most four: they need one byte more, or two
      simp only [Shape.most, Shape.width]
      by_cases hten : n ≤ 10
      · omega
      · by_cases hthirteen : n ≤ 13
        · have hk : 2 < k := hlonger 2 (Nat.not_le.mp hten)
          have hrest : n - 10 ≤ reach 1 := Nat.sub_le_of_le_add hthirteen
          exact Nat.le_trans hrest (reach_mono (by omega))
        · have hk : 3 < k := hlonger 3 (Nat.not_le.mp hthirteen)
          have hrest : n - 10 ≤ reach 2 := Nat.le_trans (Nat.sub_le_of_le_add hmiddle) (by decide)
          exact Nat.le_trans hrest (reach_mono (by omega))
    · next hmost =>
      have hk : 4 ≤ k := hlonger 3 (Nat.lt_trans (by decide) (Nat.not_le.mp hmost))
      obtain ⟨k, rfl⟩ := Nat.exists_eq_add_of_le' hk
      exact ⟨Nat.le_add_left _ _, Nat.sub_le_of_le_add h⟩

/-- The choice of chunks for `n` values gets by with any number of bytes that can carry them at
all. -/
theorem encodedLength_le {n k : Nat} (hne : n ≠ 0) (h : n ≤ reach k) : encodedLength n ≤ k := by
  fun_induction encodedLength n generalizing k with
  | case1 => exact absurd rfl hne
  | case2 n _ s => exact (select_le_of_le_reach hne h).1
  | case3 n _ s hgt =>
      rename_i ih
      obtain ⟨hwidth, hrest⟩ := select_le_of_le_reach hne h
      have hle := ih (Nat.sub_ne_zero_of_lt (Nat.not_le.mp hgt)) hrest
      exact Nat.add_le_of_le_sub' hwidth hle

theorem length_wire {values : List Bool} (hne : values ≠ []) :
    (wire values).length = encodedLength values.length := by
  rw [wire, if_neg (by simpa using hne)]
  fun_induction chunks values with
  | case1 values hnil => exact absurd (List.length_eq_zero_iff.mp hnil) hne
  | case2 values hlen s rest ih =>
      have hchunk := length_chunk (Shape.holds_select hne) (!rest.isEmpty)
      rw [List.flatten_cons, List.length_append, ← chunk, hchunk, encodedLength, if_neg hlen]
      by_cases hrest : rest = []
      · have hle : values.length ≤ s.most := List.drop_eq_nil_iff.mp hrest
        rw [hrest, chunks, dif_pos List.length_nil, if_pos hle]
        rfl
      · have hgt : ¬ values.length ≤ s.most := fun hle => hrest (List.drop_eq_nil_of_le hle)
        rw [if_neg hgt, ih hrest, List.length_drop]

/-- The bytes that are written for a list of values are read as it, and whatever else is read as it
is as long at least. -/
theorem flags_shortest {values : List Bool} (hne : values ≠ []) :
    (wire values).length = encodedLength values.length ∧
      Codes (write (some values)) read (some values) (wire values) ∧
      ∀ e, Takes read e (some values) → encodedLength values.length ≤ e.length := by
  refine ⟨length_wire hne, ?_, ?_⟩
  · have hread := yields_read values
    rw [if_neg (by simpa using hne)] at hread
    exact (appends_write (some values)).codes hread
  · rintro e ⟨b, rest, hb, hin, hread⟩
    obtain ⟨e', rest', ⟨run, last, -, -, hvalues, hform⟩, hin', hstate⟩ := form_of_read hb hread
    have he : e = bytesOf (run ++ [last]) := by
      rw [eq_of_advance_eq hin hin' hstate, hform]
      simp [bytesOf]
    have hcarried : values = carried (run ++ [last]) := by
      rw [hvalues]
      simp [carried]
    apply encodedLength_le (by simpa using hne)
    rw [he, hcarried]
    exact length_carried_le _

/-- Four values in two chunks of one byte, which is not how they are written, but as short. -/
theorem flags_shortest_four :
    [true, true, true, true] ≠ [] ∧ Takes read [0x7F, 0x58] (some [true, true, true, true]) ∧
      wire [true, true, true, true] = [0x8F, 0x80] ∧ encodedLength 4 ≤ 2 := by
  have hne : [true, true, true, true] ≠ [] := List.cons_ne_nil _ _
  have htakes : Takes read [0x7F, 0x58] (some [true, true, true, true]) :=
    ⟨Buffer.ofBytes [0x7F, 0x58], [], Buffer.live_ofBytes _, by simp, rfl⟩
  have hwire : wire [true, true, true, true] = [0x8F, 0x80] := by decide +kernel
  exact ⟨hne, htakes, hwire, (flags_shortest hne).2.2 _ htakes⟩

end Flags

end Compact

end Wireform

import Wireform.Compact.Flags
import Wireform.Proofs.Writing.Fields

/-!
Lists of truth values as a writer makes them, chunk by chunk. A chunk that
carries as many values as its shape is for fills its bytes, its first byte
announces its shape, and its bits say which values it carries and whether more
follow.
-/

namespace Wireform

namespace Bits

def span : (width : Nat) → Nat
  | 0 => 1
  | width + 1 => 2 * span width

theorem toNat_ofNat {width n : Nat} (h : n < span width) : toNat (ofNat width n) = n := by
  induction width generalizing n with
  | zero =>
      obtain rfl : n = 0 := by simpa [span] using h
      rfl
  | succ width ih =>
      have hhalf : n / 2 < span width := by
        rw [span] at h
        omega
      have hbit : (n % 2 == 1).toNat = n % 2 := by
        rcases Nat.mod_two_eq_zero_or_one n with hn | hn <;> rw [hn] <;> rfl
      rw [ofNat, toNat_concat, ih hhalf, hbit]
      omega

theorem toNat_lt_span (bits : List Bool) : toNat bits < span bits.length := by
  generalize h : bits.length = width
  induction width generalizing bits with
  | zero =>
      rw [List.length_eq_zero_iff.mp h]
      decide
  | succ width ih =>
      rcases List.eq_nil_or_concat bits with rfl | ⟨front, b, rfl⟩
      · cases h
      · have hfront := ih front (by simpa using h)
        have hb := b.toNat_le
        rw [List.concat_eq_append, toNat_concat, span]
        omega

theorem ofBytes_append (x y : List UInt8) : ofBytes (x ++ y) = ofBytes x ++ ofBytes y :=
  List.flatMap_append

end Bits

namespace Compact.Flags

variable {s : Shape} {values : List Bool}

/-- The list is one that the shape is for. -/
structure Shape.Holds (s : Shape) (values : List Bool) : Prop where
  least : s.least ≤ values.length
  most : values.length ≤ s.most

theorem Shape.holds_select (h : values ≠ []) :
    (select values.length).Holds (values.take (select values.length).most) := by
  have hpos := List.length_pos_iff.mpr h
  constructor
  · rw [List.length_take]
    unfold select
    split
    · exact Nat.le_min.mpr ⟨by decide, hpos⟩
    · split
      · exact Nat.le_min.mpr ⟨by decide, by simp only [least]; omega⟩
      · exact Nat.le_min.mpr ⟨by decide, by simp only [least]; omega⟩
  · exact List.length_take_le _ _

theorem length_chunkBits (h : s.Holds values) (more : Bool) :
    (chunkBits s values more).length = 8 * s.width := by
  have hmost := h.most
  simp only [chunkBits, List.length_append, Bits.length_ofNat, List.length_replicate,
    List.length_singleton]
  cases s
  · simp only [Shape.mark, Shape.countBits, Shape.most, Shape.width, List.length_cons,
      List.length_nil] at hmost ⊢
    omega
  · simp only [Shape.mark, Shape.countBits, Shape.most, Shape.width, List.length_cons,
      List.length_nil] at hmost ⊢
    omega
  · simp only [Shape.mark, Shape.countBits, Shape.most, Shape.width, List.length_cons,
      List.length_nil] at hmost ⊢
    omega

theorem count_bounds (h : s.Holds values) :
    0 < values.length + 1 - s.least ∧ values.length + 1 - s.least < Bits.span s.countBits := by
  obtain ⟨hleast, hmost⟩ := h
  cases s
  · simp only [Shape.least, Shape.most, Shape.countBits, Bits.span] at *
    omega
  · simp only [Shape.least, Shape.most, Shape.countBits, Bits.span] at *
    omega
  · simp only [Shape.least, Shape.most, Shape.countBits, Bits.span] at *
    omega

theorem chunkContent_chunkBits (h : s.Holds values) (more : Bool) :
    chunkContent s (chunkBits s values more) = (values, more) := by
  have hmost := h.most
  have hcount : Bits.toNat (Bits.ofNat s.countBits (values.length + 1 - s.least)) + s.least - 1 =
      values.length := by
    rw [Bits.toNat_ofNat (count_bounds h).2]
    have hleast := h.least
    omega
  have hslots : (values ++ List.replicate (s.most - values.length) false).length = s.most := by
    rw [List.length_append, List.length_replicate]
    omega
  have hbits : chunkBits s values more =
      s.mark ++ (Bits.ofNat s.countBits (values.length + 1 - s.least) ++
        ((values ++ List.replicate (s.most - values.length) false) ++ [more])) := by
    simp only [chunkBits, List.append_assoc]
  have hlast : (((values ++ List.replicate (s.most - values.length) false) ++ [more]).drop
      s.most).contains true = more := by
    rw [List.drop_left' hslots]
    cases more <;> rfl
  rw [chunkContent, hbits, List.drop_left]
  simp only [List.take_left' (Bits.length_ofNat _ _), List.drop_left' (Bits.length_ofNat _ _),
    hcount, hlast]
  rw [List.append_assoc, List.take_left]

theorem header_chunkBits (h : s.Holds values) (more : Bool) :
    Header.ofBits ((chunkBits s values more).take 8) = .chunk s := by
  cases s with
  | single =>
      have hfull : (chunkBits .single values more).take 8 = chunkBits .single values more :=
        List.take_of_length_le (Nat.le_of_eq (length_chunkBits h more))
      -- a chunk of one byte differs from the absent list in its count
      have hcount : true ∈ Bits.ofNat 2 (values.length + 1 - Shape.single.least) := by
        obtain ⟨hleast, hmost⟩ := h
        simp only [Shape.least, Shape.most] at hleast hmost ⊢
        obtain hv | hv | hv : values.length = 1 ∨ values.length = 2 ∨ values.length = 3 := by omega
        all_goals rw [hv]; decide
      have hmarked : ((Bits.ofNat 2 (values.length + 1 - Shape.single.least) ++ values ++
          List.replicate (Shape.single.most - values.length) false ++ [more]).dropLast).contains
            true := by
        rw [List.dropLast_concat, List.contains_iff_mem]
        exact List.mem_append_left _ (List.mem_append_left _ hcount)
      rw [hfull]
      exact if_pos hmarked
  | double => rfl
  | quad => rfl

/-! ### Chunks as bytes -/

def chunk (s : Shape) (values : List Bool) (more : Bool) : List UInt8 :=
  Bits.toBytes (chunkBits s values more)

theorem ofBytes_chunk (h : s.Holds values) (more : Bool) :
    Bits.ofBytes (chunk s values more) = chunkBits s values more :=
  Bits.ofBytes_toBytes (by rw [length_chunkBits h, Nat.mul_mod_right])

theorem length_chunk (h : s.Holds values) (more : Bool) :
    (chunk s values more).length = s.width := by
  have hbits := congrArg List.length (ofBytes_chunk h more)
  rw [Bits.length_ofBytes, length_chunkBits h] at hbits
  omega

theorem Shape.width_pos (s : Shape) : 0 < s.width := by cases s <;> decide

theorem exists_header (h : s.Holds values) (more : Bool) : ∃ header rest,
    chunk s values more = header :: rest ∧ Header.ofBits (Bits.ofBytes [header]) = .chunk s := by
  obtain ⟨header, rest, hchunk⟩ : ∃ header rest, chunk s values more = header :: rest := by
    refine List.exists_cons_of_length_pos ?_
    rw [length_chunk h]
    exact s.width_pos
  refine ⟨header, rest, hchunk, ?_⟩
  have hbits := ofBytes_chunk h more
  rw [hchunk, ← List.singleton_append, Bits.ofBytes_append] at hbits
  have hfirst : (Bits.ofBytes [header] ++ Bits.ofBytes rest).take 8 = Bits.ofBytes [header] :=
    List.take_left' (Bits.length_ofBytes [header])
  rw [← header_chunkBits h more, ← hbits, hfirst]

/-! ### Lists in chunks -/

def wire (values : List Bool) : List UInt8 :=
  if values.isEmpty then [nothing] else (chunks values).flatten

theorem appends_writeChunks (chunks : List (List UInt8)) :
    Appends Sink.buffer (writeChunks chunks) chunks.flatten := by
  induction chunks with
  | nil => exact Appends.pure Sink.buffer
  | cons chunk rest ih => exact (Buffer.appends_writeBytes chunk).bind ih

/-- The absent list is written like the empty one. -/
theorem appends_write (values : Option (List Bool)) :
    Appends Sink.buffer (write values) (wire (values.getD [])) := by
  unfold write wire
  cases values.getD [] with
  | nil => exact Buffer.appends_writeOctet nothing
  | cons v values => exact appends_writeChunks _

end Compact.Flags

end Wireform

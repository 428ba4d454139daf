import Mathlib.Data.String.Basic
import Mathlib.Tactic.SplitIfs
import Wireform.Text.Chunk

/-!
Texts are in the order of their bytes.

Of two characters the one with the smaller code point has the smaller bytes. A
longer form begins with a greater byte than a shorter one does, and within forms
of one length the digits stand with the highest in front. As the two forms differ
in some byte that both of them have, what comes behind them does not matter any
more. So the order of texts by their characters, in which a packet keeps its
keys, is the order of their bytes on the wire.
-/

namespace Wireform.Text

theorem ofNat_lt_ofNat {m n : Nat} (hm : m < 256) (hn : n < 256) :
    UInt8.ofNat m < UInt8.ofNat n ↔ m < n := by
  rw [UInt8.lt_iff_toNat_lt, UInt8.toNat_ofNat_of_lt' hm, UInt8.toNat_ofNat_of_lt' hn]

theorem ofNat_eq_ofNat {m n : Nat} (hm : m < 256) (hn : n < 256) :
    UInt8.ofNat m = UInt8.ofNat n ↔ m = n := by
  rw [← UInt8.toNat_inj, UInt8.toNat_ofNat_of_lt' hm, UInt8.toNat_ofNat_of_lt' hn]

/-- The form of a character decides before it ends. -/
theorem utf8EncodeChar_append_lt {c c' : Char} (h : c < c') (x y : List UInt8) :
    String.utf8EncodeChar c ++ x < String.utf8EncodeChar c' ++ y := by
  have hlt : c.val.toNat < c'.val.toNat := h
  have hmax : c'.val.toNat < 0x110000 := by rcases c'.valid with hlow | hhigh <;> omega
  -- the digits to base 64 as they follow from each other
  have hdigits (n : Nat) : n / 4096 = n / 64 / 64 ∧ n / 262144 = n / 64 / 64 / 64 := by omega
  unfold String.utf8EncodeChar
  generalize c.val.toNat = m at hlt ⊢
  generalize c'.val.toNat = n at hlt hmax ⊢
  simp only [(hdigits m).1, (hdigits m).2, (hdigits n).1, (hdigits n).2]
  clear hdigits
  -- a case for each pair of lengths, of which those contradict `hlt` where the second is shorter
  split_ifs
  all_goals try omega
  all_goals
    simp only [List.cons_append, List.cons_lt_cons_iff]
    simp (disch := omega) only [ofNat_lt_ofNat, ofNat_eq_ofNat]
    omega

theorem bytesOf_lt_bytesOf {cs cs' : List Char} (h : cs < cs') : bytesOf cs < bytesOf cs' := by
  induction cs generalizing cs' with
  | nil =>
      cases cs' with
      | nil => exact absurd h (List.lt_irrefl _)
      | cons c' cs' =>
        have hpos : 0 < (bytesOf (c' :: cs')).length := by
          rw [bytesOf, List.flatMap_cons, List.length_append, String.length_utf8EncodeChar]
          exact Nat.add_pos_left c'.utf8Size_pos _
        obtain ⟨byte, rest, hbytes⟩ := List.exists_cons_of_length_pos hpos
        rw [hbytes]
        exact List.nil_lt_cons byte rest
  | cons c cs ih =>
      cases cs' with
      | nil => exact absurd h (List.not_lt_nil _)
      | cons c' cs' =>
        simp only [bytesOf, List.flatMap_cons]
        rcases List.cons_lt_cons_iff.mp h with hlt | ⟨rfl, hrest⟩
        · exact utf8EncodeChar_append_lt hlt _ _
        · exact List.append_left_lt (ih hrest)

theorem bytes_lt_bytes {s t : String} : bytes s < bytes t ↔ s < t := by
  have hmono {s t : String} (h : s < t) : bytes s < bytes t :=
    bytesOf_lt_bytesOf (String.lt_iff_toList_lt.mp h)
  refine ⟨fun hbytes => ?_, hmono⟩
  rcases lt_trichotomy s t with hlt | rfl | hgt
  · exact hlt
  · exact absurd hbytes (List.lt_irrefl _)
  · exact absurd (hmono hgt) (List.lt_asymm hbytes)

end Wireform.Text

import Mathlib.Data.List.Chain
import Wireform.Proofs.Writing.Text

/-!
Where a writer cuts a text. A chunk is the longest front of the text that keeps
below the limit and ends between two characters. There are two ways to it: from
the front, character by character as long as there is room, and from the limit
backwards, byte by byte up to a place between two characters. The writer is
defined by the first way and is shown to take the second as well, which never
goes back to where it came from, as no character is longer than the limit.

The facts about all chunks of a text are inductions along `chunks`, with one
fact about `cut` for each.
-/

namespace Wireform.Text

def parts (s : String) : List String := (chunks s.toList).map String.ofList

/-- The last place between characters that is not behind `i`. -/
def backOff (s : String) : Nat → Nat
  | 0 => 0
  | i + 1 => if String.Pos.Raw.isValid s ⟨i + 1⟩ then i + 1 else backOff s i

/-- A text in parts of which each ends where the search from the limit backwards comes to a stop. -/
inductive Divided : String → List String → Prop where
  | nil : Divided "" []
  | cons {part rest : String} {parts : List String} (hne : part ≠ "")
      (hend : (bytes part).length =
        backOff (part ++ rest) (min (bytes (part ++ rest)).length chunkLimit))
      (hrest : Divided rest parts) : Divided (part ++ rest) (part :: parts)

/-- Not even the next character has room behind the first part. -/
def Full (part next : String) : Prop :=
  ∃ c rest, next.toList = c :: rest ∧ chunkLimit < (bytes part).length + c.utf8Size

variable {s : String}

@[simp] theorem bytes_ofList (cs : List Char) : bytes (String.ofList cs) = bytesOf cs := by
  rw [bytes, String.toList_ofList]

theorem bytesOf_cons (c : Char) (cs : List Char) :
    bytesOf (c :: cs) = String.utf8EncodeChar c ++ bytesOf cs :=
  List.flatMap_cons

theorem length_bytesOf_cons (c : Char) (cs : List Char) :
    (bytesOf (c :: cs)).length = c.utf8Size + (bytesOf cs).length := by
  rw [bytesOf_cons, List.length_append, String.length_utf8EncodeChar]

theorem length_bytesOf_replicate (n : Nat) (c : Char) :
    (bytesOf (List.replicate n c)).length = n * c.utf8Size := by
  induction n with
  | zero => exact (Nat.zero_mul _).symm
  | succ n ih => rw [List.replicate_succ, length_bytesOf_cons, ih, Nat.succ_mul, Nat.add_comm]

theorem utf8ByteSize_ofList (cs : List Char) :
    (String.ofList cs).utf8ByteSize = (bytesOf cs).length := by
  rw [← bytes_ofList, ← String.size_toByteArray, ← toByteArray_bytes, List.size_toByteArray]

/-! ### One chunk -/

theorem cut_ne_nil (c : Char) (cs : List Char) : (cut chunkLimit (c :: cs)).1 ≠ [] := by
  intro h
  exact bytesOf_cut_ne_nil c cs (by rw [h]; rfl)

/-- The first character that is left out had no room. -/
theorem cut_full {room : Nat} {cs rest : List Char} {d : Char} (h : (cut room cs).2 = d :: rest) :
    room < (bytesOf (cut room cs).1).length + d.utf8Size := by
  induction cs generalizing room with
  | nil => cases h
  | cons c cs ih =>
      unfold cut at h ⊢
      split at h
      · next hc =>
        have hrest := ih h
        rw [if_pos hc, length_bytesOf_cons]
        omega
      · next hc =>
        cases h
        rw [if_neg hc]
        show room < 0 + d.utf8Size
        omega

/-- No front that keeps to the room is longer than the one that is cut off. -/
theorem length_bytesOf_take_le {room : Nat} {cs : List Char} (i : Nat)
    (h : (bytesOf (cs.take i)).length ≤ room) :
    (bytesOf (cs.take i)).length ≤ (bytesOf (cut room cs).1).length := by
  induction cs generalizing room i with
  | nil =>
      rw [List.take_nil]
      exact Nat.zero_le _
  | cons c cs ih =>
      cases i with
      | zero => exact Nat.zero_le _
      | succ i =>
          rw [List.take_succ_cons, length_bytesOf_cons] at h ⊢
          have hc : c.utf8Size ≤ room := by omega
          have hrest := @ih (room - c.utf8Size) i (by omega)
          unfold cut
          rw [if_pos hc, length_bytesOf_cons]
          omega

theorem backOff_eq {i k : Nat} (hki : k ≤ i) (hk : String.Pos.Raw.IsValid s ⟨k⟩)
    (hlast : ∀ j ≤ i, String.Pos.Raw.IsValid s ⟨j⟩ → j ≤ k) : backOff s i = k := by
  induction i with
  | zero => exact (Nat.le_zero.mp hki).symm
  | succ i ih =>
      unfold backOff
      split
      · next hvalid =>
        have hle := hlast _ (Nat.le_refl _) (String.Pos.Raw.isValid_eq_true_iff.mp hvalid)
        exact Nat.le_antisymm hle hki
      · next hvalid =>
        have hne : k ≠ i + 1 := by
          rintro rfl
          exact hvalid (String.Pos.Raw.isValid_eq_true_iff.mpr hk)
        exact ih (by omega) fun j hj => hlast j (by omega)

/-- The search from the limit backwards finds the end of the first chunk. -/
theorem backOff_cut (cs : List Char) :
    backOff (String.ofList cs) (min (bytesOf cs).length chunkLimit) =
      (bytesOf (cut chunkLimit cs).1).length := by
  have hsplit := congrArg bytesOf (cut_append chunkLimit cs)
  rw [bytesOf_append] at hsplit
  refine backOff_eq ?_ ?_ ?_
  · rw [← hsplit, List.length_append]
    have hle := length_bytesOf_cut chunkLimit cs
    omega
  · refine String.Pos.Raw.isValid_iff_exists_append.mpr
      ⟨String.ofList (cut chunkLimit cs).1, String.ofList (cut chunkLimit cs).2, ?_, ?_⟩
    · rw [← String.ofList_append, cut_append]
    · rw [String.rawEndPos, utf8ByteSize_ofList]
  · intro j hj hvalid
    obtain ⟨i, rfl⟩ := String.Pos.Raw.isValid_ofList.mp hvalid
    rw [utf8ByteSize_ofList] at hj ⊢
    exact length_bytesOf_take_le i (by omega)

/-! ### All chunks -/

theorem divided_chunks (cs : List Char) :
    Divided (String.ofList cs) ((chunks cs).map String.ofList) := by
  induction cs using chunks.induct with
  | case1 =>
      rw [chunks]
      exact .nil
  | case2 c cs ih =>
      rw [chunks, List.map_cons]
      have hsplit : String.ofList (cut chunkLimit (c :: cs)).1 ++
          String.ofList (cut chunkLimit (c :: cs)).2 = String.ofList (c :: cs) := by
        rw [← String.ofList_append, cut_append]
      have hne : String.ofList (cut chunkLimit (c :: cs)).1 ≠ "" :=
        mt String.ofList_eq_empty_iff.mp (cut_ne_nil c cs)
      have hend := (backOff_cut (c :: cs)).symm
      rw [← bytes_ofList, ← bytes_ofList, ← hsplit] at hend
      rw [← hsplit]
      exact .cons hne hend ih

theorem Divided.join {parts : List String} (h : Divided s parts) : String.join parts = s := by
  induction h with
  | nil => rfl
  | cons hne hend hrest ih =>
      rw [String.join_cons, ih]

theorem Divided.eq_nil_iff {parts : List String} (h : Divided s parts) :
    parts = [] ↔ s = "" := by
  cases h with
  | nil => exact iff_of_true rfl rfl
  | cons hne hend hrest =>
      exact iff_of_false (List.cons_ne_nil _ _) fun h => hne (String.append_eq_empty_iff.mp h).1

theorem Divided.ne_empty {part : String} {parts : List String} (h : Divided s parts)
    (hpart : part ∈ parts) : part ≠ "" := by
  induction h with
  | nil => cases hpart
  | cons hne hend hrest ih =>
      rcases List.mem_cons.mp hpart with rfl | hpart
      · exact hne
      · exact ih hpart

theorem isChain_chunks (cs : List Char) :
    ((chunks cs).map String.ofList).IsChain Full := by
  induction cs using chunks.induct with
  | case1 =>
      rw [chunks]
      exact .nil
  | case2 c cs ih =>
      rw [chunks, List.map_cons]
      refine List.isChain_cons.mpr ⟨?_, ih⟩
      cases hrest : (cut chunkLimit (c :: cs)).2 with
      | nil =>
          rw [chunks]
          intro _ hnext
          cases hnext
      | cons d rest =>
          have hfull := cut_full hrest
          rintro _ hnext
          rw [chunks] at hnext
          obtain rfl := Option.some.inj hnext
          have hd : d.utf8Size ≤ chunkLimit := Nat.le_trans d.utf8Size_le_four (by decide)
          have hfirst : ∃ more, (cut chunkLimit (d :: rest)).1 = d :: more := by
            unfold cut
            rw [if_pos hd]
            exact ⟨_, rfl⟩
          obtain ⟨more, hmore⟩ := hfirst
          refine ⟨d, more, by rw [String.toList_ofList, hmore], ?_⟩
          rw [bytes_ofList]
          exact hfull

theorem flatten_chunks (cs : List Char) : (chunks cs).flatten = cs := by
  induction cs using chunks.induct with
  | case1 => rw [chunks, List.flatten_nil]
  | case2 c cs ih => rw [chunks, List.flatten_cons, ih, cut_append]

theorem length_wireOf (chunks : List (List Char)) :
    (wireOf chunks).length = (bytesOf chunks.flatten).length + 2 * chunks.length := by
  induction chunks with
  | nil => rfl
  | cons chunk rest ih =>
      simp only [wireOf, List.length_append, BigEndian.length_encode, List.flatten_cons,
        bytesOf_append, List.length_cons, ih]
      omega

theorem wireOf_eq_flatMap (chunks : List (List Char)) :
    wireOf chunks = (chunks.map String.ofList).flatMap fun part =>
      BigEndian.encode 2 (bytes part).length ++ bytes part := by
  induction chunks with
  | nil => rfl
  | cons chunk rest ih =>
      simp only [wireOf, List.map_cons, List.flatMap_cons, bytes_ofList, ih, List.append_assoc]

theorem wire_eq (s : String) : wire s = BigEndian.encode 4 (bytes s).length ++
    (BigEndian.encode 4 (bytes s).length ++
      (parts s).flatMap fun part => BigEndian.encode 2 (bytes part).length ++ bytes part) := by
  rw [wire, wireOf_eq_flatMap, parts]

theorem length_wire (s : String) :
    (wire s).length = 8 + (bytes s).length + 2 * (parts s).length := by
  rw [wire, List.length_append, List.length_append, length_wireOf, flatten_chunks,
    BigEndian.length_encode, parts, List.length_map, bytes]
  omega

theorem divided_parts (s : String) : Divided s (parts s) := by
  have h := divided_chunks s.toList
  rwa [String.ofList_toList] at h

theorem of_mem_parts {part : String} (h : part ∈ parts s) :
    part ≠ "" ∧ (bytes part).length ≤ chunkLimit := by
  refine ⟨(divided_parts s).ne_empty h, ?_⟩
  obtain ⟨chunk, hchunk, rfl⟩ := List.mem_map.mp h
  rw [bytes_ofList]
  exact length_bytesOf_of_mem_chunks hchunk

/-- A text is written as its number of bytes, twice, and then in parts, each behind its own number
of bytes. None is empty, none is longer than the limit, and none but the last has room for the next
character. -/
theorem write_parts (h : (bytes s).length ≤ maxLength) :
    ∃ e, Appends Sink.buffer (write s) e ∧
      e = BigEndian.encode 4 (bytes s).length ++ (BigEndian.encode 4 (bytes s).length ++
        (parts s).flatMap fun part => BigEndian.encode 2 (bytes part).length ++ bytes part) ∧
      e.length = 8 + (bytes s).length + 2 * (parts s).length ∧
      String.join (parts s) = s ∧
      (parts s = [] ↔ s = "") ∧
      (∀ part ∈ parts s, part ≠ "" ∧ (bytes part).length ≤ chunkLimit) ∧
      (parts s).IsChain Full ∧
      Divided s (parts s) :=
  ⟨wire s, appends_write h, wire_eq s, length_wire s, (divided_parts s).join,
    (divided_parts s).eq_nil_iff, fun _ => of_mem_parts, isChain_chunks s.toList, divided_parts s⟩

/-- The limit is inside the last character, which is left to a second part. -/
theorem write_parts_straddling :
    let s := String.ofList (List.replicate 16383 'a' ++ ['é'])
    (bytes s).length ≤ maxLength ∧ ∃ e, Appends Sink.buffer (write s) e ∧
      e.length = 8 + 16385 + 2 * (parts s).length ∧ 2 ≤ (parts s).length := by
  intro s
  have hlength : (bytes s).length = 16385 := by
    rw [bytes_ofList, bytesOf_append, List.length_append, length_bytesOf_replicate]
    rfl
  have hfits : (bytes s).length ≤ maxLength := by
    rw [hlength]
    decide
  obtain ⟨e, happends, -, hbytes, hjoin, hnil, hparts, -⟩ := write_parts hfits
  rw [hlength] at hbytes
  refine ⟨hfits, e, happends, hbytes, ?_⟩
  rcases hsplit : parts s with _ | ⟨part, _ | ⟨next, rest⟩⟩
  · rw [hnil.mp hsplit] at hlength
    cases hlength
  · have hle := (hparts part (by rw [hsplit]; exact List.mem_singleton_self part)).2
    rw [hsplit, String.join_cons, String.join_nil, String.append_empty] at hjoin
    rw [hjoin, hlength] at hle
    exact absurd hle (by decide)
  · exact Nat.le_add_left 2 _

end Wireform.Text

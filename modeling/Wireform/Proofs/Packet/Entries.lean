import Mathlib.Data.List.Induction
import Mathlib.Data.String.Basic
import Wireform.Value

/-!
The entries of a packet are a map. They stand in the order of their keys, each
key once, and insertion and removal keep them so. Two lists in this order under
whose keys the same is found are the same list. So of all that has been done to
a packet no more is left than what is found in it, and what is found under a key
is decided by the last edit that had to do with this key.
-/

namespace Wireform

namespace Entries

variable {key : String} {v : Value} {entries entries' : Entries}

/-! ### Insertion -/

theorem insert_of_forall_lt (h : ∀ k ∈ entries.keys, k < key) :
    entries.insert key v = entries ++ [(key, v)] := by
  induction entries with
  | nil => rfl
  | cons entry entries ih =>
      obtain ⟨k, w⟩ := entry
      obtain ⟨hk, hrest⟩ := List.forall_mem_cons.mp h
      have hnot : ¬ key < k := String.lt_asymm hk
      have hne : k ≠ key := String.ne_of_lt hk
      rw [insert, if_neg hnot, if_neg hne, ih hrest]
      rfl

theorem insertAll_of_sorted (more : Entries) (h : Sorted (entries ++ more)) :
    entries.insertAll more = entries ++ more := by
  induction more generalizing entries with
  | nil => exact (List.append_nil entries).symm
  | cons entry more ih =>
      obtain ⟨key, v⟩ := entry
      -- in ascending order the place of an entry is the end
      have hlast : ∀ k ∈ entries.keys, k < key := by
        intro k hk
        rw [Sorted, keys, List.map_append, List.pairwise_append] at h
        exact h.2.2 k hk key List.mem_cons_self
      rw [insertAll, insert_of_forall_lt hlast, ih (by rwa [List.append_assoc]), List.append_assoc]
      rfl

theorem ofList_of_sorted (h : Sorted entries) : ofList entries = entries :=
  insertAll_of_sorted entries h

theorem mem_insert {entry : String × Value} (h : entry ∈ entries.insert key v) :
    entry = (key, v) ∨ entry ∈ entries := by
  induction entries with
  | nil => exact .inl (List.mem_singleton.mp h)
  | cons first entries ih =>
      obtain ⟨k, w⟩ := first
      unfold insert at h
      split at h
      · exact List.mem_cons.mp h
      · split at h
        · exact (List.mem_cons.mp h).imp id (List.mem_cons_of_mem _)
        · rcases List.mem_cons.mp h with rfl | hmem
          · exact .inr List.mem_cons_self
          · exact (ih hmem).imp id (List.mem_cons_of_mem _)

theorem length_insert (key : String) (v : Value) (entries : Entries) :
    (entries.insert key v).length ≤ entries.length + 1 := by
  induction entries with
  | nil => exact Nat.le_refl _
  | cons first entries ih =>
      obtain ⟨k, w⟩ := first
      unfold insert
      split
      · exact Nat.le_refl _
      · split
        · exact Nat.le_succ _
        · exact Nat.succ_le_succ ih

theorem sorted_nil : Sorted [] := List.Pairwise.nil

theorem Sorted.insert (h : Sorted entries) (key : String) (v : Value) :
    Sorted (entries.insert key v) := by
  induction entries with
  | nil => exact List.pairwise_singleton _ _
  | cons first entries ih =>
      obtain ⟨k, w⟩ := first
      obtain ⟨hfirst, hrest⟩ := List.pairwise_cons.mp h
      unfold Entries.insert
      split
      -- in front of the first entry
      · next hlt =>
        refine List.pairwise_cons.mpr ⟨fun k' hk' => ?_, h⟩
        rcases List.mem_cons.mp hk' with rfl | hmem
        · exact hlt
        · exact String.lt_trans hlt (hfirst k' hmem)
      · next hnot =>
        split
        -- in the place of the first entry, or behind it
        · next heq =>
          subst heq
          exact h
        · next hne =>
          refine List.pairwise_cons.mpr ⟨fun k' hk' => ?_, ih hrest⟩
          obtain ⟨entry, hentry, rfl⟩ := List.mem_map.mp hk'
          rcases mem_insert hentry with rfl | hmem
          · exact Std.lt_of_le_of_ne (String.not_lt.mp hnot) hne
          · exact hfirst _ (List.mem_map_of_mem hmem)

/-! ### Removal -/

theorem erase_sublist (key : String) (entries : Entries) : (entries.erase key).Sublist entries := by
  induction entries with
  | nil => exact .slnil
  | cons first entries ih =>
      obtain ⟨k, w⟩ := first
      unfold erase
      split
      · exact List.sublist_cons_self _ entries
      · exact ih.cons_cons (k, w)

theorem Sorted.erase (h : Sorted entries) (key : String) : Sorted (entries.erase key) :=
  List.Pairwise.sublist ((erase_sublist key entries).map _) h

/-! ### What is found -/

theorem find?_cons_self (key : String) (v : Value) (entries : Entries) :
    find? key ((key, v) :: entries) = some v :=
  if_pos rfl

theorem find?_cons_of_ne {k : String} {w : Value} (h : k ≠ key) :
    find? key ((k, w) :: entries) = entries.find? key :=
  if_neg h

theorem isSome_find? : (entries.find? key).isSome ↔ key ∈ entries.keys := by
  induction entries with
  | nil => exact iff_of_false Bool.false_ne_true List.not_mem_nil
  | cons first entries ih =>
      obtain ⟨k, w⟩ := first
      unfold find?
      split
      · next heq => exact iff_of_true rfl (heq ▸ List.mem_cons_self)
      · next hne =>
        rw [ih]
        exact ⟨List.mem_cons_of_mem k, fun h => (List.mem_cons.mp h).resolve_left (Ne.symm hne)⟩

theorem mem_keys_congr (h : ∀ key, entries.find? key = entries'.find? key) (key : String) :
    key ∈ entries.keys ↔ key ∈ entries'.keys := by
  rw [← isSome_find?, h key, isSome_find?]

theorem find?_eq_none : entries.find? key = none ↔ key ∉ entries.keys := by
  rw [← isSome_find?, Option.not_isSome_iff_eq_none]

theorem find?_of_forall_lt (h : ∀ k ∈ entries.keys, key < k) : entries.find? key = none :=
  find?_eq_none.mpr fun hmem => String.lt_irrefl key (h key hmem)

theorem mem_of_find? (h : entries.find? key = some v) : (key, v) ∈ entries := by
  induction entries with
  | nil => cases h
  | cons first entries ih =>
      obtain ⟨k, w⟩ := first
      by_cases heq : k = key
      · subst heq
        rw [find?_cons_self] at h
        cases h
        exact List.mem_cons_self
      · rw [find?_cons_of_ne heq] at h
        exact List.mem_cons_of_mem _ (ih h)

theorem Sorted.find?_of_mem (h : Sorted entries) (hmem : (key, v) ∈ entries) :
    entries.find? key = some v := by
  induction entries with
  | nil => cases hmem
  | cons first entries ih =>
      obtain ⟨k, w⟩ := first
      obtain ⟨hfirst, hrest⟩ := List.pairwise_cons.mp h
      rcases List.mem_cons.mp hmem with heq | hmem
      · cases heq
        exact find?_cons_self key v entries
      · have hlt : k < key := hfirst key (List.mem_map_of_mem hmem)
        rw [find?_cons_of_ne (String.ne_of_lt hlt), ih hrest hmem]

theorem find?_insert (key : String) (v : Value) (entries : Entries) (k : String) :
    (entries.insert key v).find? k = if key = k then some v else entries.find? k := by
  induction entries with
  | nil => rfl
  | cons first entries ih =>
      obtain ⟨k', w⟩ := first
      unfold insert
      split
      · rfl
      · split
        · next heq =>
          subst heq
          simp only [find?]
          split <;> rfl
        · next hne =>
          simp only [find?, ih]
          by_cases hk : k' = k
          · rw [if_pos hk, if_pos hk, if_neg fun heq => hne (hk.trans heq.symm)]
          · rw [if_neg hk, if_neg hk]

theorem Sorted.find?_erase (h : Sorted entries) (key k : String) :
    (entries.erase key).find? k = if key = k then none else entries.find? k := by
  induction entries with
  | nil => exact (ite_self none).symm
  | cons first entries ih =>
      obtain ⟨k', w⟩ := first
      obtain ⟨hfirst, hrest⟩ := List.pairwise_cons.mp h
      unfold Entries.erase
      split
      · next heq =>
        subst heq
        by_cases hk : k' = k
        · subst hk
          rw [if_pos rfl, find?_of_forall_lt hfirst]
        · rw [if_neg hk, find?, if_neg hk]
      · next hne =>
        simp only [find?, ih hrest]
        by_cases hk : k' = k
        · rw [if_pos hk, if_pos hk, if_neg fun heq => hne (hk.trans heq.symm)]
        · rw [if_neg hk, if_neg hk]

theorem Sorted.not_lt_first {k : String} {w : Value} {rest : Entries} (h : Sorted ((k, w) :: rest))
    (hmem : key ∈ keys ((k, w) :: rest)) : ¬ key < k := by
  rcases List.mem_cons.mp hmem with rfl | hmem
  · exact String.lt_irrefl key
  · exact String.lt_asymm ((List.pairwise_cons.mp h).1 key hmem)

theorem Sorted.ext (h : Sorted entries) (h' : Sorted entries')
    (hfind : ∀ key, entries.find? key = entries'.find? key) : entries = entries' := by
  induction entries generalizing entries' with
  | nil =>
      cases entries' with
      | nil => rfl
      | cons first' rest' =>
        exact absurd ((mem_keys_congr hfind first'.1).mpr List.mem_cons_self) List.not_mem_nil
  | cons first rest ih =>
      obtain ⟨k, w⟩ := first
      cases entries' with
      | nil => exact absurd ((mem_keys_congr hfind k).mp List.mem_cons_self) List.not_mem_nil
      | cons first' rest' =>
        obtain ⟨k', w'⟩ := first'
        obtain ⟨hfirst, hrest⟩ := List.pairwise_cons.mp h
        obtain ⟨hfirst', hrest'⟩ := List.pairwise_cons.mp h'
        -- each first key is one of the other list as well, where no key is smaller than the first
        have hk := (mem_keys_congr hfind k).mp List.mem_cons_self
        have hk' := (mem_keys_congr hfind k').mpr List.mem_cons_self
        obtain rfl : k = k' :=
          String.le_antisymm (String.not_lt.mp (h.not_lt_first hk'))
            (String.not_lt.mp (h'.not_lt_first hk))
        obtain rfl : w = w' := by
          have hvalue := hfind k
          rw [find?_cons_self, find?_cons_self] at hvalue
          exact Option.some.inj hvalue
        have htail (key : String) : find? key rest = find? key rest' := by
          by_cases heq : k = key
          · rw [← heq, find?_of_forall_lt hfirst, find?_of_forall_lt hfirst']
          · have hfind := hfind key
            rwa [find?_cons_of_ne heq, find?_cons_of_ne heq] at hfind
        rw [ih hrest hrest' htail]

end Entries

/-! ### Histories -/

inductive Edit where
  | insert (key : String) (v : Value)
  | remove (key : String)

namespace Edit

def key : Edit → String
  | insert key _ => key
  | remove key => key

def value? : Edit → Option Value
  | insert _ v => some v
  | remove _ => none

def apply (entries : Entries) : Edit → Entries
  | insert key v => entries.insert key v
  | remove key => entries.erase key

/-- What is left under a key is what the last edit with this key left there. -/
def left (edits : List Edit) (key : String) : Option Value :=
  (edits.reverse.find? (·.key = key)).bind value?

theorem left_concat (edits : List Edit) (edit : Edit) (key : String) :
    left (edits ++ [edit]) key = if edit.key = key then edit.value? else left edits key := by
  simp only [left, List.reverse_append, List.reverse_singleton, List.singleton_append,
    List.find?_cons]
  by_cases hkey : edit.key = key <;> simp [hkey]

end Edit

namespace Entries

def edited (edits : List Edit) : Entries := edits.foldl Edit.apply []

theorem edited_concat (edits : List Edit) (edit : Edit) :
    edited (edits ++ [edit]) = edit.apply (edited edits) := by
  rw [edited, List.foldl_append]
  rfl

theorem Sorted.apply {entries : Entries} (h : Sorted entries) (edit : Edit) :
    Sorted (edit.apply entries) := by
  cases edit with
  | insert key v => exact h.insert key v
  | remove key => exact h.erase key

theorem Sorted.find?_apply {entries : Entries} (h : Sorted entries) (edit : Edit) (key : String) :
    (edit.apply entries).find? key = if edit.key = key then edit.value? else entries.find? key := by
  cases edit with
  | insert k v => exact find?_insert k v entries key
  | remove k => exact h.find?_erase k key

theorem sorted_edited (edits : List Edit) : Sorted (edited edits) := by
  induction edits using List.reverseRecOn with
  | nil => exact sorted_nil
  | append_singleton edits edit ih =>
      rw [edited_concat]
      exact ih.apply edit

theorem find?_edited (edits : List Edit) (key : String) :
    (edited edits).find? key = Edit.left edits key := by
  induction edits using List.reverseRecOn with
  | nil => rfl
  | append_singleton edits edit ih =>
      rw [edited_concat, (sorted_edited edits).find?_apply, Edit.left_concat, ih]

/-- However different two histories are, what they leave is all that there is to see of them. -/
theorem edited_eq_edited {edits edits' : List Edit} :
    edited edits = edited edits' ↔ Edit.left edits = Edit.left edits' := by
  constructor
  · intro h
    funext key
    rw [← find?_edited, h, find?_edited]
  · intro h
    refine (sorted_edited edits).ext (sorted_edited edits') fun key => ?_
    rw [find?_edited, h, find?_edited]

theorem mem_edited {edits : List Edit} {key : String} {v : Value} :
    (key, v) ∈ edited edits ↔ Edit.left edits key = some v := by
  rw [← find?_edited]
  exact ⟨(sorted_edited edits).find?_of_mem, mem_of_find?⟩

end Entries

end Wireform

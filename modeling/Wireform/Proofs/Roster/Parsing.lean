import Mathlib.Data.List.DropRight
import Mathlib.Data.List.Forall2
import Mathlib.Tactic.Common
import Wireform.Proofs.Roster.Order

/-!
Rosters as text. Line feeds cut a text into rows, and each row names something or
nothing. What a row names is said by `Names` as a layout: white space, the name,
white space, a comment. A carriage return in front of a line feed is white space
at the end of a row, so it makes no difference how lines end.

The roster that a text spells has what its rows name, and so texts put below
each other spell a roster extended by another one. What a row names is a row
that names itself, so a roster can be written as the rows of its names.
-/

namespace Wireform

namespace Text

structure Bare (cs : List Char) : Prop where
  first : ∀ h : cs ≠ [], isBlank (cs.head h) = false
  last : ∀ h : cs ≠ [], isBlank (cs.getLast h) = false

variable {left core right : List Char}

theorem trim_of_padded (hleft : ∀ c ∈ left, isBlank c) (hright : ∀ c ∈ right, isBlank c)
    (hcore : Bare core) : trim (left ++ core ++ right) = core := by
  show ((left ++ core ++ right).dropWhile isBlank).rdropWhile isBlank = core
  rw [List.append_assoc, List.dropWhile_append_of_pos hleft]
  by_cases hempty : core = []
  · have hgone : right.dropWhile isBlank = [] := List.dropWhile_eq_nil_iff.mpr hright
    rw [hempty, List.nil_append, hgone, List.rdropWhile_nil]
  · have hstop : (core ++ right).dropWhile isBlank = core ++ right := by
      obtain ⟨c, cs, rfl⟩ := List.exists_cons_of_ne_nil hempty
      have hc : isBlank c = false := hcore.first hempty
      rw [List.cons_append, List.dropWhile_cons, hc]
      rfl
    have hback : (core ++ right).rdropWhile isBlank = core.rdropWhile isBlank := by
      rw [List.rdropWhile, List.reverse_append, List.dropWhile_append_of_pos]
      · rfl
      · simpa using hright
    rw [hstop, hback, List.rdropWhile_eq_self_iff]
    intro h
    rw [hcore.last h]
    exact Bool.false_ne_true

theorem exists_padded (cs : List Char) : ∃ left right, cs = left ++ trim cs ++ right ∧
    (∀ c ∈ left, isBlank c) ∧ (∀ c ∈ right, isBlank c) ∧ Bare (trim cs) := by
  have htrim : trim cs = (cs.dropWhile isBlank).rdropWhile isBlank := rfl
  have hsplit : cs.dropWhile isBlank = trim cs ++ (cs.dropWhile isBlank).rtakeWhile isBlank := by
    rw [htrim, List.rdropWhile_append_rtakeWhile]
  refine ⟨cs.takeWhile isBlank, (cs.dropWhile isBlank).rtakeWhile isBlank, ?_,
    fun c hc => List.mem_takeWhile_imp hc, fun c hc => List.mem_rtakeWhile_imp hc, ?_, ?_⟩
  · rw [List.append_assoc, ← hsplit, List.takeWhile_append_dropWhile]
  · intro h
    have hstart : trim cs <+: cs.dropWhile isBlank := List.rdropWhile_prefix isBlank _
    rw [hstart.head h]
    exact List.head_dropWhile_not isBlank (hstart.ne_nil h)
  · intro h
    exact Bool.eq_false_iff.mpr (List.rdropWhile_last_not isBlank _ h)

end Text

namespace Roster

open Text

/-- The row has the name in it, with white space around it and perhaps a comment behind. A row that
is empty but for these has the empty name. -/
def Names (row name : List Char) : Prop :=
  ∃ left right comment, row = left ++ name ++ right ++ comment ∧
    (∀ c ∈ left, isBlank c) ∧ (∀ c ∈ right, isBlank c) ∧ Bare name ∧
    '#' ∉ left ++ name ++ right ∧ ∀ h : comment ≠ [], comment.head h = '#'

variable {row name : List Char}

theorem nameOf_of_names (h : Names row name) : nameOf row = name := by
  obtain ⟨left, right, comment, rfl, hleft, hright, hname, hmark, hcomment⟩ := h
  have hkept : (left ++ name ++ right ++ comment).takeWhile (· ≠ '#') = left ++ name ++ right := by
    have hall : ∀ c ∈ left ++ name ++ right, decide (c ≠ '#') = true := fun c hc =>
      decide_eq_true fun hsame => hmark (hsame ▸ hc)
    rw [List.takeWhile_append_of_pos hall]
    cases comment with
    | nil => rw [List.takeWhile_nil, List.append_nil]
    | cons c cs =>
        have hc : c = '#' := hcomment (List.cons_ne_nil c cs)
        rw [hc, List.takeWhile_cons_of_neg (by decide), List.append_nil]
  rw [nameOf, hkept, trim_of_padded hleft hright hname]

theorem names_nameOf (row : List Char) : Names row (nameOf row) := by
  obtain ⟨left, right, hsplit, hleft, hright, hname⟩ := exists_padded (row.takeWhile (· ≠ '#'))
  refine ⟨left, right, row.dropWhile (· ≠ '#'), ?_, hleft, hright, hname, ?_, fun h => ?_⟩
  · rw [nameOf, ← hsplit, List.takeWhile_append_dropWhile]
  · rw [nameOf, ← hsplit]
    intro hmem
    simpa using List.mem_takeWhile_imp hmem
  · simpa using List.head_dropWhile_not (fun c => decide (c ≠ '#')) h

/-- A carriage return at the end of a row is white space or part of a comment. -/
theorem nameOf_concat_return (row : List Char) : nameOf (row ++ ['\r']) = nameOf row := by
  obtain ⟨left, right, comment, hrow, hleft, hright, hname, hmark, hcomment⟩ := names_nameOf row
  refine nameOf_of_names ?_
  cases comment with
  | nil =>
      refine ⟨left, right ++ ['\r'], [], ?_, hleft, ?_, hname, ?_, fun h => absurd rfl h⟩
      · conv_lhs => rw [hrow]
        simp only [List.append_assoc, List.append_nil]
      · intro c hc
        rcases List.mem_append.mp hc with hc | hc
        · exact hright c hc
        · rw [List.mem_singleton.mp hc]
          decide
      · rw [← List.append_assoc, List.mem_append, List.mem_singleton]
        exact fun h => h.elim hmark (by decide)
  | cons c cs =>
      refine ⟨left, right, c :: (cs ++ ['\r']), ?_, hleft, hright, hname, hmark, fun _ => ?_⟩
      · conv_lhs => rw [hrow]
        simp only [List.append_assoc, List.cons_append]
      · exact hcomment (List.cons_ne_nil c cs)

structure Plain (row : List Char) : Prop where
  ne_nil : row ≠ []
  bare : Bare row
  mark : '#' ∉ row
  feed : '\n' ∉ row

theorem Plain.nameOf_eq (h : Plain row) : nameOf row = row := by
  refine nameOf_of_names ⟨[], [], [], by simp, by simp, by simp, h.bare, ?_, fun h => absurd rfl h⟩
  simpa using h.mark

/-- What a row names, if it names something, is a row that is its own name. -/
theorem plain_nameOf (hfeed : '\n' ∉ row) (hname : nameOf row ≠ []) : Plain (nameOf row) := by
  obtain ⟨left, right, comment, hrow, -, -, hbare, hmark, -⟩ := names_nameOf row
  refine ⟨hname, hbare, fun h => hmark ?_, fun h => hfeed ?_⟩
  · simp [h]
  · rw [hrow]
    simp [h]

/-! ### Rows -/

/-- The lines of a text are its rows, without the last one if nothing stands in it. -/
theorem splitOn_eq_lines (text : List Char) :
    text.splitOn '\n' = lines text ∨ text.splitOn '\n' = lines text ++ [[]] := by
  induction text with
  | nil => exact .inr rfl
  | cons c text ih =>
      rw [List.splitOn_cons_eq_if_modifyHead, lines]
      by_cases hc : c = '\n'
      · rw [if_pos (beq_iff_eq.mpr hc), if_pos hc]
        exact ih.imp (congrArg _) (congrArg _)
      · rw [if_neg (beq_iff_eq.not.mpr hc), if_neg hc]
        have hsome := List.splitOn_ne_nil '\n' text
        rcases ih with ih | ih
        · rw [ih] at hsome ⊢
          obtain ⟨line, rest, hlines⟩ := List.exists_cons_of_ne_nil hsome
          rw [hlines]
          exact .inl rfl
        · rw [ih]
          cases hlines : lines text with
          | nil => exact .inl rfl
          | cons line rest => exact .inr rfl

/-- The names that the rows of a text have, of which the empty ones do not count. -/
def spelled (text : List Char) : List (List Char) :=
  ((text.splitOn '\n').map nameOf).filter (! ·.isEmpty)

theorem parse_eq (text : String) :
    parse text = ofList ((spelled text.toList).map String.ofList) := by
  have hlines : spelled text.toList =
      ((lines text.toList).map nameOf).filter (! ·.isEmpty) := by
    unfold spelled
    rcases splitOn_eq_lines text.toList with h | h
    · rw [h]
    · have hlast : nameOf [] = [] := rfl
      simp [h, hlast]
  rw [hlines]
  rfl

theorem spelled_append_feed (text more : List Char) :
    spelled (text ++ '\n' :: more) = spelled text ++ spelled more := by
  rw [spelled, List.splitOn_append_cons_self, List.map_append, List.filter_append]
  rfl

theorem splitOn_concat {c : Char} (hc : c ≠ '\n') (text : List Char) : ∃ front last,
    text.splitOn '\n' = front ++ [last] ∧ (text ++ [c]).splitOn '\n' = front ++ [last ++ [c]] := by
  induction text with
  | nil =>
      refine ⟨[], [], rfl, ?_⟩
      rw [List.nil_append, List.splitOn_eq_singleton]
      · rfl
      · simpa using hc.symm
  | cons first text ih =>
      obtain ⟨front, last, hrows, hmore⟩ := ih
      rw [List.cons_append, List.splitOn_cons_eq_if_modifyHead, List.splitOn_cons_eq_if_modifyHead,
        hrows, hmore]
      split
      · exact ⟨[] :: front, last, rfl, rfl⟩
      · cases front with
        | nil => exact ⟨[], first :: last, rfl, rfl⟩
        | cons row front => exact ⟨(first :: row) :: front, last, rfl, rfl⟩

theorem spelled_concat_return (text : List Char) : spelled (text ++ ['\r']) = spelled text := by
  obtain ⟨front, last, hrows, hmore⟩ := splitOn_concat (c := '\r') (by decide) text
  rw [spelled, spelled, hrows, hmore, List.map_append, List.map_append, List.map_singleton,
    List.map_singleton, nameOf_concat_return]

/-- Rows are cut at the line feeds, so none is left in a row. -/
theorem feed_not_mem_row {text : List Char} (h : row ∈ text.splitOn '\n') : '\n' ∉ row := by
  induction text generalizing row with
  | nil =>
      rw [List.splitOn_nil, List.mem_singleton] at h
      simp [h]
  | cons c text ih =>
      rw [List.splitOn_cons_eq_if_modifyHead] at h
      split at h
      next =>
        rcases List.mem_cons.mp h with rfl | h
        · exact List.not_mem_nil
        · exact ih h
      next hc =>
        obtain ⟨first, rest, hrows⟩ := List.exists_cons_of_ne_nil (List.splitOn_ne_nil '\n' text)
        rw [hrows, List.modifyHead_cons] at h
        rw [hrows] at ih
        rcases List.mem_cons.mp h with rfl | h
        · have hfirst : '\n' ∉ first := ih List.mem_cons_self
          have hapart : '\n' ≠ c := fun hsame => hc (beq_iff_eq.mpr hsame.symm)
          rw [List.mem_cons, not_or]
          exact ⟨hapart, hfirst⟩
        · exact ih (List.mem_cons_of_mem _ h)

theorem plain_of_mem_spelled {text : List Char} (h : name ∈ spelled text) : Plain name := by
  obtain ⟨hmem, hsome⟩ := List.mem_filter.mp h
  obtain ⟨row, hrow, rfl⟩ := List.mem_map.mp hmem
  exact plain_nameOf (feed_not_mem_row hrow) (by simpa using hsome)

theorem spelled_intercalate {names : List (List Char)} (h : ∀ name ∈ names, Plain name) :
    spelled (['\n'].intercalate names) = names := by
  cases names with
  | nil => rfl
  | cons first rest =>
      rw [spelled, List.splitOn_intercalate '\n' (fun name hname => (h name hname).feed)
        (List.cons_ne_nil first rest)]
      have hsame : (first :: rest).map nameOf = first :: rest :=
        (List.map_congr_left fun name hname => (h name hname).nameOf_eq).trans (List.map_id _)
      rw [hsame, List.filter_eq_self]
      intro name hname
      simpa using (h name hname).ne_nil

/-! ### The roster of a text -/

theorem parse_append_feed (a b : String) :
    parse (a ++ "\n" ++ b) = (parse a).extend (parse b) := by
  have htext : (a ++ "\n" ++ b).toList = a.toList ++ '\n' :: b.toList := by
    simp [String.toList_append]
  rw [parse_eq, htext, spelled_append_feed, List.map_append, ofList_append, parse_eq, parse_eq]

theorem parse_append_return (a : String) : parse (a ++ "\r") = parse a := by
  have htext : (a ++ "\r").toList = a.toList ++ ['\r'] := by
    simp [String.toList_append]
  rw [parse_eq, htext, spelled_concat_return, parse_eq]

/-- What is on the rows of a text, told by the layout of each of them. -/
theorem parse_firsts (text : String) : ∃ spelled,
    List.Forall₂ Names (text.toList.splitOn '\n') spelled ∧
    FirstsOf ((spelled.filter (! ·.isEmpty)).map String.ofList) (parse text).names := by
  refine ⟨(text.toList.splitOn '\n').map nameOf, ?_, ?_⟩
  · rw [List.forall₂_map_right_iff, List.forall₂_same]
    exact fun row _ => names_nameOf row
  · rw [parse_eq]
    exact firstsOf_ofList _

/-- The names of a roster that was read are rows that name themselves. -/
theorem plain_of_mem_parse {text name : String} (h : name ∈ (parse text).names) :
    Plain name.toList := by
  rw [parse_eq] at h
  obtain ⟨row, hrow, rfl⟩ := List.mem_map.mp (((firstsOf_ofList _).mem_iff name).mp h)
  rw [String.toList_ofList]
  exact plain_of_mem_spelled hrow

theorem parse_intercalate {names : List String} (h : ∀ name ∈ names, Plain name.toList) :
    parse ("\n".intercalate names) = ofList names := by
  have hplain : ∀ row ∈ names.map String.toList, Plain row := by
    simpa using h
  rw [parse_eq, String.toList_intercalate]
  have hfeed : "\n".toList = ['\n'] := rfl
  rw [hfeed, spelled_intercalate hplain, List.map_map]
  congr 1
  exact (List.map_congr_left fun name _ => String.ofList_toList).trans (List.map_id _)

/-- Texts spell rosters as ordered sets of the names on their rows, and a roster written down is
read back as it is. -/
theorem parse_ordered (a b : String) (r s t : Roster) :
    (∀ ending ∈ ["\n", "\r\n"], parse (a ++ ending ++ b) = (parse a).extend (parse b)) ∧
    (parse a).names.Nodup ∧
    (∃ spelled, List.Forall₂ Names (a.toList.splitOn '\n') spelled ∧
      FirstsOf ((spelled.filter (! ·.isEmpty)).map String.ofList) (parse a).names) ∧
    (r.extend s).extend t = r.extend (s.extend t) ∧
    r.extend r = r ∧
    parse ("\n".intercalate (parse a).names) = parse a := by
  have hnodup : (parse a).names.Nodup := nodup_ofList _
  refine ⟨?_, hnodup, parse_firsts a, extend_assoc r s t, extend_self r, ?_⟩
  · intro ending hending
    rcases List.mem_pair.mp hending with rfl | rfl
    · exact parse_append_feed a b
    · have hending : "\r\n" = "\r" ++ "\n" := rfl
      rw [hending, ← String.append_assoc, parse_append_feed, parse_append_return]
  · rw [parse_intercalate fun name hname => plain_of_mem_parse hname, ofList_of_nodup hnodup]

example : (parse "a.B # first\r\n\u3000c.D\t\n\n#x\n a.B\n").names = ["a.B", "c.D"] := by
  decide +kernel

end Roster

end Wireform

import Mathlib.Data.List.Basic
import Mathlib.Data.List.Induction
import Wireform.Roster

/-!
A roster as an ordered set. The names that are given to it one after the other
are kept in the order in which each of them comes up for the first time, which
`FirstsOf` says without regard to how the roster is made.

To extend a roster by another is to give it the names that the other one was
given. So it makes no difference in which order rosters are put together, as
long as their own order stays the same, and nothing is added twice.
-/

namespace Wireform.Roster

variable {r s t : Roster} {given names : List String} {name : String}

theorem push_of_mem (h : name ∈ r.names) : r.push name = r := if_pos h

theorem push_of_not_mem (h : name ∉ r.names) : r.push name = ⟨r.names ++ [name]⟩ := if_neg h

def pushAll (r : Roster) (names : List String) : Roster := names.foldl push r

theorem pushAll_cons (r : Roster) (name : String) (names : List String) :
    r.pushAll (name :: names) = (r.push name).pushAll names := rfl

theorem pushAll_append (r : Roster) (names more : List String) :
    r.pushAll (names ++ more) = (r.pushAll names).pushAll more :=
  List.foldl_append

theorem ofList_eq_pushAll (names : List String) : ofList names = pushAll {} names := rfl

theorem extend_eq_pushAll (r s : Roster) : r.extend s = r.pushAll s.names := rfl

/-! ### Which names there are -/

theorem mem_push {other : String} :
    other ∈ (r.push name).names ↔ other ∈ r.names ∨ other = name := by
  by_cases h : name ∈ r.names
  · rw [push_of_mem h]
    exact ⟨.inl, fun hother => hother.elim id fun hsame => hsame ▸ h⟩
  · rw [push_of_not_mem h, List.mem_append, List.mem_singleton]

theorem mem_pushAll : name ∈ (r.pushAll names).names ↔ name ∈ r.names ∨ name ∈ names := by
  induction names generalizing r with
  | nil => simp [pushAll]
  | cons first rest ih => rw [pushAll_cons, ih, mem_push, List.mem_cons, or_assoc]

theorem nodup_push (h : r.names.Nodup) (name : String) : (r.push name).names.Nodup := by
  by_cases hmem : name ∈ r.names
  · rw [push_of_mem hmem]
    exact h
  · have hapart : ∀ other ∈ r.names, other ≠ name := fun other hother hsame => hmem (hsame ▸ hother)
    rw [push_of_not_mem hmem]
    simpa [List.nodup_append] using ⟨h, hapart⟩

theorem nodup_pushAll (h : r.names.Nodup) (names : List String) : (r.pushAll names).names.Nodup := by
  induction names generalizing r with
  | nil => exact h
  | cons name names ih => exact ih (nodup_push h name)

theorem nodup_ofList (names : List String) : (ofList names).names.Nodup :=
  nodup_pushAll List.nodup_nil names

/-! ### In which order they are -/

/-- Of the names that were given these are all, in the order in which they first came up. -/
structure FirstsOf (given names : List String) : Prop where
  mem_iff : ∀ name, name ∈ names ↔ name ∈ given
  ordered : names.Pairwise fun x y => given.idxOf x < given.idxOf y

theorem FirstsOf.push (h : FirstsOf given r.names) (name : String) :
    FirstsOf (given ++ [name]) (r.push name).names := by
  have hold : ∀ x ∈ r.names, (given ++ [name]).idxOf x = given.idxOf x := fun x hx =>
    List.idxOf_append_of_mem ((h.mem_iff x).mp hx)
  have hordered : r.names.Pairwise fun x y =>
      (given ++ [name]).idxOf x < (given ++ [name]).idxOf y := by
    refine h.ordered.imp_of_mem fun {x y} hx hy hlt => ?_
    rw [hold x hx, hold y hy]
    exact hlt
  constructor
  · intro other
    rw [mem_push, List.mem_append, List.mem_singleton, h.mem_iff]
  · by_cases hmem : name ∈ r.names
    · rw [push_of_mem hmem]
      exact hordered
    · have hlast : (given ++ [name]).idxOf name = given.length := by
        rw [List.idxOf_append_of_notMem fun hgiven => hmem ((h.mem_iff name).mpr hgiven)]
        simp
      rw [push_of_not_mem hmem, List.pairwise_append]
      refine ⟨hordered, List.pairwise_singleton _ _, fun x hx y hy => ?_⟩
      rw [List.mem_singleton.mp hy, hlast, hold x hx]
      exact List.idxOf_lt_length_of_mem ((h.mem_iff x).mp hx)

theorem FirstsOf.pushAll (h : FirstsOf given r.names) (names : List String) :
    FirstsOf (given ++ names) (r.pushAll names).names := by
  induction names generalizing given r with
  | nil =>
      rw [List.append_nil]
      exact h
  | cons name names ih =>
      have hrest := ih (h.push name)
      rw [List.append_assoc] at hrest
      exact hrest

theorem firstsOf_ofList (names : List String) : FirstsOf names (ofList names).names :=
  have hnone : FirstsOf [] ({} : Roster).names := ⟨fun _ => Iff.rfl, .nil⟩
  hnone.pushAll names

/-! ### Rosters put together -/

theorem pushAll_of_subset (h : ∀ name ∈ names, name ∈ r.names) : r.pushAll names = r := by
  induction names with
  | nil => rfl
  | cons name names ih =>
      obtain ⟨hname, hrest⟩ := List.forall_mem_cons.mp h
      rw [pushAll_cons, push_of_mem hname]
      exact ih hrest

theorem extend_self (r : Roster) : r.extend r = r := pushAll_of_subset fun _ h => h

/-- A name that is pushed to a roster has been pushed to whatever the roster is added to. -/
theorem extend_push (r s : Roster) (name : String) :
    r.extend (s.push name) = (r.extend s).push name := by
  by_cases h : name ∈ s.names
  · have hthere : name ∈ (r.extend s).names := mem_pushAll.mpr (.inr h)
    rw [push_of_mem h, push_of_mem hthere]
  · rw [push_of_not_mem h, extend_eq_pushAll, pushAll_append]
    rfl

theorem extend_pushAll (r s : Roster) (names : List String) :
    r.extend (s.pushAll names) = (r.extend s).pushAll names := by
  induction names generalizing s with
  | nil => rfl
  | cons name names ih => rw [pushAll_cons, pushAll_cons, ih, extend_push]

theorem extend_assoc (r s t : Roster) : (r.extend s).extend t = r.extend (s.extend t) :=
  (extend_pushAll r s t.names).symm

theorem ofList_append (names more : List String) :
    ofList (names ++ more) = (ofList names).extend (ofList more) := by
  rw [ofList_eq_pushAll, pushAll_append, ofList_eq_pushAll more, extend_pushAll]
  rfl

theorem ofList_of_nodup (h : names.Nodup) : ofList names = ⟨names⟩ := by
  induction names using List.reverseRecOn with
  | nil => rfl
  | append_singleton names name ih =>
      obtain ⟨hnames, -, hapart⟩ := List.nodup_append.mp h
      have hnew : name ∉ names := fun hmem => hapart name hmem name List.mem_cons_self rfl
      rw [ofList_eq_pushAll, pushAll_append, ← ofList_eq_pushAll, ih hnames]
      exact push_of_not_mem hnew

end Wireform.Roster

import Wireform.Endpoint

/-!
What can be relied on in a workspace that an endpoint lends. Its pool may hold
workspaces in any condition: those that are not clean or not of the right sizes
are thrown away when one is wanted, and if none is left a new one is made. So
whatever has been done before, work begins with all levels and with a scratch
area in which text can be read.
-/

namespace Wireform

/-- The workspace is of the sizes that an endpoint with these settings lends. -/
structure Workspace.Fits (s : Settings) (w : Workspace) : Prop where
  scratch : w.scratch.length = s.scratchSize
  maxDepth : w.maxDepth = s.maxDepth

/-- The workspace is as an endpoint with these settings lends it. -/
structure Workspace.Lent (s : Settings) (w : Workspace) : Prop extends w.Fits s where
  clean : w.clean

theorem Settings.scratchSize_pos {s : Settings} (h : s.validate = .ok ()) : 0 < s.scratchSize := by
  rcases Nat.eq_zero_or_pos s.scratchSize with hzero | hpos
  · unfold validate fault? at h
    simp [hzero] at h
  · exact hpos

namespace Workspace

variable {s : Settings} {w : Workspace}

theorem levels_le (w : Workspace) : w.levels ≤ w.maxDepth := Nat.sub_le _ _

theorem Fits.scratch_pos (h : w.Fits s) (hs : s.validate = .ok ()) : 0 < w.scratch.length := by
  rw [h.scratch]
  exact s.scratchSize_pos hs

theorem Lent.empty (h : w.Lent s) : w.depth = 0 ∧ w.frames = [] := by
  have hclean := h.clean
  simpa only [Workspace.clean, Bool.and_eq_true, beq_iff_eq, List.isEmpty_iff] using hclean

theorem Lent.levels (h : w.Lent s) : w.levels = s.maxDepth := by
  rw [Workspace.levels, h.empty.1, h.maxDepth, Nat.sub_zero]

theorem lent_fresh (s : Settings) :
    (fresh (List.replicate s.scratchSize 0) s.debug s.maxDepth).Lent s :=
  ⟨⟨List.length_replicate, rfl⟩, rfl⟩

theorem lent_of_validate {u : Unit} (h : ((handler s).validate w u).1 = true) : w.Lent s := by
  simp only [handler, Bool.and_eq_true, beq_iff_eq] at h
  exact ⟨⟨h.1.1, h.1.2⟩, h.2⟩

end Workspace

namespace Pool

variable {σ α : Type}

/-- An idle object is only lent if the handler has just found it fit. -/
theorem validate_of_findFit {h : Handler σ α} {idle rest : List α} {discarded n : Nat} {s t : σ}
    {a : α} (hfind : findFit h idle discarded s = (some a, rest, n, t)) :
    ∃ s', h.validate a s' = (true, t) := by
  induction idle generalizing discarded s with
  | nil => cases hfind
  | cons first idle ih =>
      rw [findFit] at hfind
      split at hfind
      · next hvalid =>
        cases hfind
        exact ⟨s, hvalid⟩
      · exact ih hfind

theorem acquire_from (p : Pool σ α) : ∃ a s t,
    ((∃ s', p.handler.validate a s' = (true, s)) ∨ ∃ s', p.handler.create s' = (a, s)) ∧
      p.handler.activate a s = (p.acquire.1, t) := by
  unfold acquire
  rcases hfind : findFit p.handler p.idle p.discarded p.state with ⟨_ | a, rest, n, t⟩
  · exact ⟨_, _, _, .inr ⟨t, rfl⟩, rfl⟩
  · exact ⟨a, t, _, .inl (validate_of_findFit hfind), rfl⟩

theorem handler_acquire (p : Pool σ α) : p.acquire.2.handler = p.handler := by
  unfold acquire
  rcases findFit p.handler p.idle p.discarded p.state with ⟨_ | a, rest, n, t⟩
  · rfl
  · rfl

theorem handler_release (p : Pool σ α) (a : α) : (p.release a).handler = p.handler := by
  unfold release
  simp only
  split
  · rfl
  · rfl

end Pool

theorem Workspace.lent_acquire {s : Settings} {p : Pool Unit Workspace}
    (h : p.handler = Workspace.handler s) : p.acquire.1.Lent s := by
  obtain ⟨w, u, u', horigin, hactivate⟩ := p.acquire_from
  rw [h] at horigin hactivate
  have hsame : w = p.acquire.1 := congrArg Prod.fst hactivate
  rw [← hsame]
  rcases horigin with ⟨u₀, hvalid⟩ | ⟨u₀, hcreate⟩
  -- it was idle and passed the check, or it is new
  · exact lent_of_validate (congrArg Prod.fst hvalid)
  · have hfresh : fresh (List.replicate s.scratchSize 0) s.debug s.maxDepth = w :=
      congrArg Prod.fst hcreate
    rw [← hfresh]
    exact lent_fresh s

end Wireform

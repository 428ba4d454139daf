import Wireform.Proofs.Buffer.Appending
import Wireform.Proofs.Buffer.Released

/-!
Views do not disturb each other.

A step of a shelf writes through one view at most. What it makes of that view's
buffer is known from the buffer alone: bytes are laid down between the old
writer and the new one, and nowhere else (`Buffer.Overlaid`). All that is left
is to say it of the shelf. The region of the view is the only one that changes,
the other views of it keep their cursors and find the new bytes where they have
been laid, and whoever is the source of a transfer has its reader moved and no
byte touched. A copy inside one region is no exception, wherever the two places
are, since it lays down bytes at the writer of its target like any other write.
-/

namespace Wireform.Shelf

variable {limit : Nat → Nat} {s s' t : Shelf} {v v' w : View} {b : Buffer} {i : Nat}
  {name other : String}

/-- The name whose buffer a step writes to, if it writes to one. -/
def Step.target? : Step → Option String
  | .access name _ | .transfer name _ => some name
  | _ => none

/-- The names that a step gives or forgets, and those whose buffers it uses. -/
def Step.names : Step → List String
  | .create name _ _ | .ofBytes name _ | .duplicate _ name | .drop name | .access name _ => [name]
  | .transfer target source => [target, source]

/-- The second shelf is the first after bytes have been laid down through the view `v`, which has
become `v'`. -/
structure Writes (s : Shelf) (v v' : View) (s' : Shelf) : Prop where
  region : v'.region = v.region
  limit : v'.limit = v.limit
  overlaid : (s.load v).Overlaid (s'.load v')
  others : ∀ i, i ≠ v.region → s'.region i = s.region i

theorem Writes.refl (s : Shelf) (v : View) : s.Writes v v s :=
  ⟨rfl, rfl, .of_storage rfl, fun _ _ => rfl⟩

theorem Writes.congr (h : s.Writes v v' s') (hregions : t.regions = s'.regions) :
    s.Writes v v' t := by
  obtain ⟨regions, views⟩ := t
  obtain rfl : regions = s'.regions := hregions
  exact ⟨h.region, h.limit, h.overlaid, h.others⟩

theorem Fits.writes_store (hv : s.Fits limit v) (hlimit : b.limit = v.limit)
    (hb : (s.load v).Overlaid b) : s.Writes v (s.store v b).2 (s.store v b).1 where
  region := rfl
  limit := rfl
  overlaid := by
    rw [load_store hv.region hlimit]
    exact hb
  others := fun _ hi => region_store_of_ne hi

/-! ### Accesses -/

theorem Fits.writes_access (hv : s.Fits limit v) (hname : s.view? name = some v) (a : Access)
    (hkept : frees v.region s (.access name a) = false) :
    s.Writes v (s.onView v a.run).2.2 (s.onView v a.run).2.1 := by
  have hfollows := (a.handling_run hv.valid).1
  refine hv.writes_store hfollows.limit (a.overlaid_run hv.valid ?_)
  -- the storage is there after the step exactly if it was there before
  have hafter : (s.step (.access name a)).2.region v.region = (a.run (s.load v)).2.region := by
    rw [step_access hname]
    exact region_store_self hv.region
  have hbefore : (s.load v).region = s.region v.region := rfl
  rw [frees, hafter, ← hbefore] at hkept
  cases hstorage : (a.run (s.load v)).2.region.storage with
  | none => simpa [hstorage] using hkept
  | some bytes =>
      obtain ⟨old, hold, -⟩ := hfollows.grows bytes hstorage
      rw [hold, Option.isSome_some, Option.isSome_some]

/-! ### Transfers -/

/-- To copy inside a storage is to write, so it lays bytes down at the writer and not at the place
that they are copied from. -/
theorem Fits.overlaid_copyWithin (hv : s.Fits limit v) (hw : s.Fits limit w)
    (hregion : v.region = w.region) {n : Nat} (hn : n ≤ (s.load w).readableBytes) :
    (s.load v).Overlaid (Buffer.copyWithin w.reader n (s.load v)).2 := by
  rcases hv.valid.cases with hgone | hlive
  · rw [Buffer.copyWithin_of_gone w.reader n hgone]
    exact .of_storage rfl
  · have hwlive : (s.load w).Live := by
      refine hw.valid.live_of_isSome ?_
      rw [load, ← hregion]
      exact hlive.present
    have hcapacity : (s.load v).capacity = (s.load w).capacity := by
      simp only [Buffer.capacity, load, hregion]
    have hstored : w.reader + n ≤ (s.load v).capacity := by
      have hreader : w.reader ≤ w.writer := hwlive.reader_le_writer
      have hwriter : w.writer ≤ (s.load w).capacity := hwlive.writer_le_capacity
      have hcount : n ≤ w.writer - w.reader := hn
      omega
    rw [Buffer.copyWithin_eq_put hlive hstored]
    exact Buffer.overlaid_put _ _ _

/-- A transfer lays bytes down through its target and moves the reader of its source. -/
theorem Fits.writes_transferViews (hv : s.Fits limit v) (hw : s.Fits limit w) :
    s.Writes v (s.transferViews v w).2.2.1 (s.transferViews v w).2.1 ∧
      ∃ r, (s.transferViews v w).2.2.2 = { w with reader := r } := by
  generalize hn : Buffer.transferable (s.load v) (s.load w) = n
  by_cases hzero : n = 0
  · rw [transferViews_of_zero (hn.trans hzero)]
    exact ⟨.refl s v, w.reader, rfl⟩
  · by_cases hregion : v.region = w.region
    · have hreadable : n ≤ (s.load w).readableBytes := hn ▸ Nat.min_le_left _ _
      have hlimit := (hv.copyWithin hw hregion hreadable).1.limit
      have hoverlaid := hv.overlaid_copyWithin hw hregion hreadable
      generalize hcopy : Buffer.copyWithin w.reader n (s.load v) = out at hlimit hoverlaid
      obtain ⟨r, b⟩ := out
      rw [transferViews_of_shared hn hzero hregion hcopy]
      refine ⟨hv.writes_store hlimit hoverlaid, ?_⟩
      cases r with
      | error f => exact ⟨w.reader, rfl⟩
      | ok u => exact ⟨w.reader + n, rfl⟩
    · obtain ⟨htarget, ⟨r, -, hsource⟩, -⟩ :=
        Buffer.obeys_transfer (C := Conduct.extending) (D := Conduct.reading)
          (fun byte => Buffer.extending_put _ _)
          ((Buffer.reading_takeNumber _ 1).map _) hv.valid hw.valid
      generalize hmove : Buffer.transfer (s.load v, s.load w) = out at htarget hsource
      obtain ⟨failed, b, c⟩ := out
      simp only at hsource htarget
      -- the region of the source is put back as it was
      rw [← load_store_of_ne (v := v) (b := b) (Ne.symm hregion)] at hsource
      rw [transferViews_of_apart (hn ▸ hzero) hregion hmove, hsource, store_moveReader]
      exact ⟨hv.writes_store htarget.limit htarget.toOverlaid, r, rfl⟩

/-! ### Steps -/

theorem step_access_of_none (hname : s.view? name = none) (a : Access) :
    s.step (.access name a) = (none, s) := by
  rw [step, on, hname]
  rfl

theorem step_transfer_of_none {target source : String}
    (h : s.view? target = none ∨ s.view? source = none) :
    s.step (.transfer target source) = (none, s) := by
  have hnone : s.transfer target source = none := by
    rw [transfer]
    rcases h with h | h
    · rw [h]
      rfl
    · rw [h]
      cases s.view? target <;> rfl
  rw [step, hnone]

theorem Sound.view?_step (hs : s.Sound) {x : Step} (hother : other ∉ x.names) :
    (s.step x).2.view? other = s.view? other := by
  cases x with
  | create name initial max | ofBytes name bytes =>
      exact view?_setView_of_ne (List.ne_of_not_mem_cons hother)
  | duplicate of name =>
      rw [Shelf.step, duplicate]
      cases s.view? of with
      | none => rfl
      | some v => exact view?_setView_of_ne (List.ne_of_not_mem_cons hother)
  | drop name => exact lookup_filter_of_ne (List.ne_of_not_mem_cons hother) s.views
  | access name a =>
      cases hname : s.view? name with
      | none => rw [step_access_of_none hname]
      | some v =>
        rw [step_access hname]
        exact view?_setView_of_ne (List.ne_of_not_mem_cons hother)
  | transfer target source =>
      have htarget : other ≠ target := List.ne_of_not_mem_cons hother
      have hsource : other ≠ source :=
        List.ne_of_not_mem_cons (List.not_mem_of_not_mem_cons hother)
      cases hv : s.view? target with
      | none => rw [step_transfer_of_none (.inl hv)]
      | some v =>
        cases hw : s.view? source with
        | none => rw [step_transfer_of_none (.inr hw)]
        | some w =>
          obtain ⟨limit, hs⟩ := hs
          have hviews := ((hs target v hv).transferViews (hs source w hw)).1.views
          rw [step_transfer hv hw]
          rw [view?_setView_of_ne hsource, view?_setView_of_ne htarget, view?, hviews, view?]

theorem region_step {x : Step} (hx : x.target?.bind s.view? = none) (hi : i < s.regions.size) :
    (s.step x).2.region i = s.region i := by
  cases x with
  | create name initial max | ofBytes name bytes => exact region_add_of_lt hi
  | duplicate of name =>
      rw [step, duplicate]
      cases s.view? of <;> rfl
  | drop name => rfl
  | access name a => rw [step_access_of_none hx]
  | transfer target source => rw [step_transfer_of_none (.inl hx)]

/-- A step through a view that is known writes through it, and to other views nothing happens but
that the reader of a source goes on. -/
theorem Sound.writes_step (hs : s.Sound) {x : Step}
    (hkept : ∀ i < s.regions.size, frees i s x = false) (hapart : ∀ name, x ≠ .transfer name name)
    (hname : x.target? = some name) (hv : s.view? name = some v) :
    ∃ v', (s.step x).2.view? name = some v' ∧ s.Writes v v' (s.step x).2 ∧
      ∀ other w, other ≠ name → s.view? other = some w →
        ∃ r, (s.step x).2.view? other = some { w with reader := r } ∧
          (other ∉ x.names → r = w.reader) := by
  have hsame : ∀ other w, other ∉ x.names → s.view? other = some w →
      (s.step x).2.view? other = some { w with reader := w.reader } := by
    intro other w hother hw
    rw [hs.view?_step hother, hw]
  obtain ⟨limit, hfits⟩ := hs
  cases x with
  | access name a =>
      cases hname
      have hwrites := (hfits name v hv).writes_access hv a (hkept _ (hfits name v hv).region)
      refine ⟨_, by rw [step_access hv]; exact view?_setView_self _ _ _,
        hwrites.congr (by rw [step_access hv]; rfl), fun other w hother hw => ?_⟩
      exact ⟨w.reader, hsame other w (by simpa [Step.names] using hother) hw, fun _ => rfl⟩
  | transfer target source =>
      cases hname
      have hne : source ≠ name := fun h => hapart name (by rw [h])
      cases hw : s.view? source with
      | none =>
        have hstep : s.step (.transfer name source) = (none, s) := step_transfer_of_none (.inr hw)
        rw [hstep]
        exact ⟨v, hv, .refl s v, fun other w _ hw => ⟨w.reader, hw, fun _ => rfl⟩⟩
      | some w =>
        obtain ⟨hwrites, r, hsource⟩ :=
          (hfits name v hv).writes_transferViews (hfits source w hw)
        have hstep := step_transfer hv hw
        refine ⟨_, ?_, hwrites.congr (by rw [hstep]; rfl), fun other u hother hu => ?_⟩
        · rw [hstep]
          simp only [view?_setView_of_ne hne.symm, view?_setView_self]
        · by_cases hsame' : other = source
          · subst hsame'
            cases hw.symm.trans hu
            refine ⟨r, ?_, fun h => absurd (by simp [Step.names]) h⟩
            rw [hstep, hsource]
            exact view?_setView_self _ _ _
          · have hnot : other ∉ (Step.transfer name source).names := by
              simp [Step.names, hother, hsame']
            exact ⟨u.reader, hsame other u hnot hu, fun _ => rfl⟩
  | _ => cases hname

/-- A step that gives no storage up lays bytes down between the old and the new writer of what it
writes to. Views that it is not about stay as they are, and what they have to read changes only by
those bytes. A transfer is between two views, so it has not one name for both. -/
theorem writes_undisturbed (steps : List Step) (x : Step)
    (hkept : ∀ i < (after {} steps).regions.size, frees i (after {} steps) x = false)
    (hapart : ∀ name, x ≠ .transfer name name) :
    let s := after {} steps
    let s' := (s.step x).2
    (∀ other, other ∉ x.names → s'.view? other = s.view? other) ∧
    (x.target?.bind s.view? = none → ∀ i < s.regions.size, s'.region i = s.region i) ∧
    ∀ name v, x.target? = some name → s.view? name = some v →
      ∃ v', s'.view? name = some v' ∧ s.Writes v v' s' ∧
        ∀ other w, other ≠ name → s.view? other = some w →
          ∃ r, s'.view? other = some { w with reader := r } ∧
            (other ∉ x.names → r = w.reader) ∧
            (w.region ≠ v.region → (s'.load w).region = (s.load w).region) ∧
            (w.region = v.region → (s.load w).region.storage.isSome →
              (Buffer.toBytes (s'.load { w with reader := r })).1 =
                .ok (((s'.load v').content.take w.writer).drop r)) := by
  intro s s'
  have hs : s.Sound := (sound_empty.after steps).1
  refine ⟨fun other hother => hs.view?_step hother, fun hx i hi => region_step hx hi,
    fun name v hname hv => ?_⟩
  obtain ⟨v', hv', hwrites, hothers⟩ := hs.writes_step hkept hapart hname hv
  refine ⟨v', hv', hwrites, fun other w hother hw => ?_⟩
  obtain ⟨r, hw', hreader⟩ := hothers other w hother hw
  refine ⟨r, hw', hreader, fun hregion => hwrites.others _ hregion, fun hregion hpresent => ?_⟩
  have hsame : (s'.load { w with reader := r }).region = (s'.load v').region := by
    show s'.region w.region = s'.region v'.region
    rw [hwrites.region, hregion]
  have hlive : (s'.load { w with reader := r }).Live := by
    obtain ⟨limit, hfits⟩ := (hs.step x).1
    refine (hfits other _ hw').valid.live_of_isSome ?_
    rw [hsame, hwrites.overlaid.present, load, ← hregion]
    exact hpresent
  rw [Buffer.toBytes_of_live hlive, Buffer.ahead, Buffer.written, Buffer.content, hsame]
  rfl

/-- A third view of the storage looks on while bytes are copied inside it and it grows. -/
theorem writes_undisturbed_overlapping :
    let steps : List Step := [.create "a" 4 8, .access "a" (.writeBytes [1, 2, 3]),
      .duplicate "a" "b", .access "b" (.setWriter 2), .duplicate "a" "c"]
    let s := after {} steps
    let x : Step := .transfer "b" "a"
    (∀ i < s.regions.size, frees i s x = false) ∧ (∀ name, x ≠ .transfer name name) ∧
      (s.step x).2.view? "c" = s.view? "c" ∧
      ∃ v', (s.step x).2.view? "b" = some v' ∧
        ((s.step x).2.load v').content = [1, 2, 1, 2, 3, 0, 0, 0] ∧
        (Buffer.toBytes ((s.step x).2.load ⟨0, 0, 3, 8⟩)).1 = .ok [1, 2, 1] := by
  intro steps s x
  have hkept : ∀ i < s.regions.size, frees i s x = false := by decide
  have hapart : ∀ name, x ≠ .transfer name name := by simp [x]
  obtain ⟨hviews, -, hwrites⟩ := writes_undisturbed steps x hkept hapart
  obtain ⟨v', hv', -, hothers⟩ := hwrites "b" ⟨0, 0, 2, 8⟩ rfl (by decide)
  obtain ⟨r, hw', hreader, -, hbytes⟩ := hothers "c" ⟨0, 0, 3, 8⟩ (by decide) (by decide)
  obtain rfl : r = 0 := hreader (by decide)
  have hcontent : ((s.step x).2.load v').content = [1, 2, 1, 2, 3, 0, 0, 0] := by
    cases hv'.symm.trans (show (s.step x).2.view? "b" = some ⟨0, 0, 5, 8⟩ by decide)
    decide
  refine ⟨hkept, hapart, hviews "c" (by decide), v', hv', hcontent, ?_⟩
  rw [hbytes rfl (by decide), hcontent]
  rfl

end Wireform.Shelf

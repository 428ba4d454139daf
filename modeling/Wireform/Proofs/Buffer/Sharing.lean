import Wireform.Buffer.Shelf
import Wireform.Proofs.Buffer.Valid

/-!
Many views over shared storage.

A view fits a shelf if its region is there, if its limit is the one that all
views of that region have, and if the buffer that it stands for is valid. What
handling one view makes of its region is safe for the cursors of all others:
the storage is not made smaller and is not made larger than their common limit,
and if it is given up there is nothing left that they could leave. This is
`Fits.store`, the only place where two views of one region meet. Everything
that can be done to a shelf is a step, and a step is a few stores.
-/

namespace Wireform

namespace Buffer

variable {target source : Buffer}

theorem obeys_pump {C D : Conduct Buffer} (hwrite : ∀ byte, Obeys C (writeOctet byte))
    (hread : Obeys D readOctet) (ht : C.Fit target) (hs : D.Fit source) (count : Nat) :
    C.Moves target (pump count (target, source)).2.1 ∧
      D.Moves source (pump count (target, source)).2.2 ∧
      ∀ f, (pump count (target, source)).1 = .error f → C.Fails f ∨ D.Fails f := by
  induction count generalizing target source with
  | zero => exact ⟨C.refl ht, D.refl hs, fun _ hf => by cases hf⟩
  | succ count ih =>
      obtain ⟨hsource, hfails⟩ := hread hs
      simp only [pump]
      generalize readOctet source = out at hsource hfails ⊢
      rcases out with ⟨f | byte, source'⟩
      · refine ⟨C.refl ht, hsource, fun g hg => ?_⟩
        cases hg
        exact .inr (hfails f rfl)
      · obtain ⟨htarget, hfails⟩ := hwrite byte ht
        simp only
        generalize writeOctet byte target = out at htarget hfails ⊢
        rcases out with ⟨f | u, target'⟩
        · refine ⟨htarget, hsource, fun g hg => ?_⟩
          cases hg
          exact .inl (hfails f rfl)
        · obtain ⟨htarget', hsource', hfails⟩ := ih (C.fit ht htarget) (D.fit hs hsource)
          exact ⟨C.trans htarget htarget', D.trans hsource hsource', hfails⟩

theorem obeys_transfer {C D : Conduct Buffer} (hwrite : ∀ byte, Obeys C (writeOctet byte))
    (hread : Obeys D readOctet) (ht : C.Fit target) (hs : D.Fit source) :
    C.Moves target (transfer (target, source)).2.1 ∧
      D.Moves source (transfer (target, source)).2.2 ∧
      ∀ f, (transfer (target, source)).1 = .error f → C.Fails f ∨ D.Fails f := by
  obtain ⟨htarget, hsource, hfails⟩ :=
    obeys_pump hwrite hread ht hs (transferable target source)
  simp only [transfer]
  generalize pump (transferable target source) (target, source) = out at htarget hsource hfails ⊢
  rcases out with ⟨f | u, t⟩
  · refine ⟨htarget, hsource, fun g hg => ?_⟩
    cases hg
    exact hfails f rfl
  · exact ⟨htarget, hsource, fun _ hf => by cases hf⟩

theorem handling_transfer (ht : target.Valid) (hs : source.Valid) :
    target.Follows (transfer (target, source)).2.1 ∧
      source.Follows (transfer (target, source)).2.2 ∧
      ∀ f, (transfer (target, source)).1 = .error f → f.Plain := by
  obtain ⟨htarget, hsource, hfails⟩ :=
    obeys_transfer (C := Conduct.handling) (D := Conduct.handling)
      (fun byte => (Access.writeOctet byte).handling_run) Access.readOctet.handling_run ht hs
  exact ⟨htarget, hsource, fun f hf => (hfails f hf).elim id id⟩

end Buffer

namespace Shelf

def region (s : Shelf) (i : Nat) : Region := s.regions.getD i ⟨none, -1⟩

/-- The view is in order, and its limit is that of its region. -/
structure Fits (limit : Nat → Nat) (s : Shelf) (v : View) : Prop where
  region : v.region < s.regions.size
  limit : v.limit = limit v.region
  valid : (s.load v).Valid

/-- Regions stay, and storages grow as long as they are there. -/
structure Evolves (s s' : Shelf) : Prop where
  size : s.regions.size ≤ s'.regions.size
  grows : ∀ i < s.regions.size, ∀ bytes', (s'.region i).storage = some bytes' →
    ∃ bytes, (s.region i).storage = some bytes ∧ bytes.size ≤ bytes'.size

/-- Whatever view fitted the first shelf fits the second, which has come of it with all names. -/
structure Carries (limit : Nat → Nat) (s s' : Shelf) : Prop extends s.Evolves s' where
  fits : ∀ u, s.Fits limit u → s'.Fits limit u
  views : s'.views = s.views

variable {limit : Nat → Nat} {s s' s'' : Shelf} {v w : View} {b : Buffer} {i : Nat}

theorem Evolves.refl (s : Shelf) : s.Evolves s :=
  ⟨Nat.le_refl _, fun _ _ bytes hbytes => ⟨bytes, hbytes, Nat.le_refl _⟩⟩

theorem Evolves.trans (h : s.Evolves s') (h' : s'.Evolves s'') : s.Evolves s'' where
  size := Nat.le_trans h.size h'.size
  grows := by
    intro i hi bytes'' hbytes''
    obtain ⟨bytes', hbytes', hle'⟩ := h'.grows i (Nat.lt_of_lt_of_le hi h.size) bytes'' hbytes''
    obtain ⟨bytes, hbytes, hle⟩ := h.grows i hi bytes' hbytes'
    exact ⟨bytes, hbytes, Nat.le_trans hle hle'⟩

theorem Evolves.congr (h : s.Evolves s') (hregions : s''.regions = s'.regions) :
    s.Evolves s'' := by
  obtain ⟨regions, views⟩ := s''
  obtain rfl : regions = s'.regions := hregions
  exact ⟨h.size, h.grows⟩

theorem Fits.congr (h : s.Fits limit v) (hregions : s'.regions = s.regions) :
    s'.Fits limit v := by
  obtain ⟨regions, views⟩ := s'
  obtain rfl : regions = s.regions := hregions
  exact ⟨h.region, h.limit, h.valid⟩

theorem Carries.refl (s : Shelf) : s.Carries limit s := ⟨.refl s, fun _ h => h, rfl⟩

theorem Carries.trans (h : s.Carries limit s') (h' : s'.Carries limit s'') :
    s.Carries limit s'' :=
  ⟨h.toEvolves.trans h'.toEvolves, fun u hu => h'.fits u (h.fits u hu), h'.views.trans h.views⟩

/-! ### Regions -/

theorem region_store_self (h : v.region < s.regions.size) :
    (s.store v b).1.region v.region = b.region := by
  simp [region, store, Array.getD_eq_getD_getElem?, h]

@[simp] theorem size_store : (s.store v b).1.regions.size = s.regions.size :=
  Array.size_setIfInBounds

@[simp] theorem store_load (s : Shelf) (v : View) : s.store v (s.load v) = (s, v) := by
  have hregions : s.regions.setIfInBounds v.region (s.load v).region = s.regions := by
    ext j hj hj'
    · simp
    · by_cases hv : v.region = j
      · subst hv
        simp [load, Array.getD_eq_getD_getElem?, hj']
      · exact Array.getElem_setIfInBounds_ne hj' hv
  exact Prod.ext (congrArg (Shelf.mk · s.views) hregions) rfl

theorem region_store_of_ne (h : i ≠ v.region) : (s.store v b).1.region i = s.region i := by
  simp [region, store, Array.getD_eq_getD_getElem?, Array.getElem?_setIfInBounds_ne h.symm]

theorem region_add_self (s : Shelf) (b : Buffer) :
    (s.add b).1.region s.regions.size = b.region := by
  simp [region, add, Array.getD_eq_getD_getElem?]

theorem region_add_of_lt (h : i < s.regions.size) : (s.add b).1.region i = s.region i := by
  simp [region, add, Array.getD_eq_getD_getElem?, Array.getElem?_push_lt h, h]

theorem load_store (h : v.region < s.regions.size) (hb : b.limit = v.limit) :
    (s.store v b).1.load (s.store v b).2 = b := by
  obtain ⟨r, reader, writer, limit⟩ := b
  obtain rfl : limit = v.limit := hb
  exact congrArg (Buffer.mk · reader writer v.limit) (region_store_self h)

theorem load_store_of_ne (h : w.region ≠ v.region) :
    (s.store v b).1.load w = s.load w :=
  congrArg (Buffer.mk · w.reader w.writer w.limit) (region_store_of_ne h)

/-- Handling one view disturbs no other, whether or not it is of the same region. -/
theorem Fits.store (hv : s.Fits limit v) (hb : (s.load v).Follows b) :
    s.Carries limit (s.store v b).1 ∧ (s.store v b).1.Fits limit (s.store v b).2 := by
  have hsize : (s.store v b).1.regions.size = s.regions.size := size_store
  have hself : (s.store v b).1.region v.region = b.region := region_store_self hv.region
  have hgrows : ∀ bytes', b.region.storage = some bytes' →
      ∃ bytes, (s.region v.region).storage = some bytes ∧ bytes.size ≤ bytes'.size := hb.grows
  refine ⟨⟨⟨Nat.le_of_eq hsize.symm, fun i hi bytes' hbytes' => ?_⟩, fun w hw => ?_, rfl⟩,
    ?_⟩
  · by_cases hi : i = v.region
    · subst hi
      rw [hself] at hbytes'
      exact hgrows bytes' hbytes'
    · rw [region_store_of_ne hi] at hbytes'
      exact ⟨bytes', hbytes', Nat.le_refl _⟩
  · refine ⟨hsize ▸ hw.region, hw.limit, ?_⟩
    by_cases hregion : w.region = v.region
    -- the cursors of another view are in the old storage, so they are in the new one
    · refine ⟨hw.valid.reader_le_writer, hw.valid.writer_le_limit, fun bytes' hbytes' => ?_⟩
      have hstorage : b.region.storage = some bytes' := by
        rw [← hself, ← hregion]
        exact hbytes'
      obtain ⟨bytes, hbytes, hle⟩ := hgrows bytes' hstorage
      have hold : (s.load w).region.storage = some bytes := by
        rw [← hregion] at hbytes
        exact hbytes
      have hlimits : b.limit = w.limit := by
        rw [hb.limit, hw.limit, hregion]
        exact hv.limit
      have hsmall : bytes'.size ≤ w.limit := by
        rw [← hlimits]
        exact (hb.valid.stored bytes' hstorage).2
      exact ⟨Nat.le_trans (hw.valid.stored bytes hold).1 hle, hsmall⟩
    · rw [load_store_of_ne hregion]
      exact hw.valid
  · refine ⟨hsize ▸ hv.region, hv.limit, ?_⟩
    rw [load_store hv.region hb.limit]
    exact hb.valid

theorem Fits.onView {α : Type} {act : Action Buffer α} (hv : s.Fits limit v)
    (hact : Obeys Conduct.handling act) :
    s.Carries limit (s.onView v act).2.1 ∧ (s.onView v act).2.1.Fits limit (s.onView v act).2.2 ∧
      ∀ f, (s.onView v act).1 = .error f → f.Plain := by
  obtain ⟨hb, hfails⟩ := hact hv.valid
  obtain ⟨hcarries, hfits⟩ := hv.store hb
  exact ⟨hcarries, hfits, hfails⟩

theorem Fits.moveReader (hv : s.Fits limit v) {r : Nat} (hr : r ≤ v.writer) :
    s.Fits limit { v with reader := r } :=
  ⟨hv.region, hv.limit, hv.valid.moveReader hr⟩

/-! ### Transfers -/

theorem transferViews_of_zero (h : Buffer.transferable (s.load v) (s.load w) = 0) :
    s.transferViews v w = (.ok 0, s, v, w) :=
  if_pos h

theorem transferViews_of_shared {n : Nat} (hn : Buffer.transferable (s.load v) (s.load w) = n)
    (hpos : n ≠ 0) (hregion : v.region = w.region) {r : Except Failure Unit}
    (hcopy : Buffer.copyWithin w.reader n (s.load v) = (r, b)) :
    s.transferViews v w = (r.map fun _ => n, (s.store v b).1, (s.store v b).2,
      if r.isOk then { w with reader := w.reader + n } else w) := by
  subst hn
  rw [transferViews, if_neg hpos, if_pos hregion, onView, hcopy]
  cases r <;> rfl

theorem transferViews_of_apart (hpos : Buffer.transferable (s.load v) (s.load w) ≠ 0)
    (hregion : v.region ≠ w.region) {r : Except Failure Nat} {c : Buffer}
    (hmove : Buffer.transfer (s.load v, s.load w) = (r, b, c)) :
    s.transferViews v w = (r, ((s.store v b).1.store w c).1, (s.store v b).2,
      ((s.store v b).1.store w c).2) := by
  rw [transferViews, if_neg hpos, if_neg hregion, hmove]

theorem size_transferViews : (s.transferViews v w).2.1.regions.size = s.regions.size := by
  by_cases hcount : Buffer.transferable (s.load v) (s.load w) = 0
  · rw [transferViews_of_zero hcount]
  · by_cases hregion : v.region = w.region
    · rw [transferViews_of_shared rfl hcount hregion rfl]
      exact size_store
    · rw [transferViews_of_apart hcount hregion rfl]
      exact size_store.trans size_store

theorem Fits.copyWithin (hv : s.Fits limit v) (hw : s.Fits limit w) (hregion : v.region = w.region)
    {n : Nat} (hn : n ≤ (s.load w).readableBytes) :
    (s.load v).Follows (Buffer.copyWithin w.reader n (s.load v)).2 ∧
      ∀ f, (Buffer.copyWithin w.reader n (s.load v)).1 = .error f → f.Plain := by
  refine Buffer.handling_copyWithin hv.valid fun bytes hbytes => ?_
  have hreader : w.reader ≤ w.writer := hw.valid.reader_le_writer
  have hstored := hw.valid.stored bytes (by rw [load, ← hregion]; exact hbytes)
  have hwriter : w.writer ≤ bytes.size := hstored.1
  have hcount : n ≤ w.writer - w.reader := hn
  omega

theorem Fits.transferViews (hv : s.Fits limit v) (hw : s.Fits limit w) :
    s.Carries limit (s.transferViews v w).2.1 ∧
      (s.transferViews v w).2.1.Fits limit (s.transferViews v w).2.2.1 ∧
      (s.transferViews v w).2.1.Fits limit (s.transferViews v w).2.2.2 ∧
      ∀ f, (s.transferViews v w).1 = .error f → f.Plain := by
  generalize hn : Buffer.transferable (s.load v) (s.load w) = n
  have hreadable : n ≤ (s.load w).readableBytes := hn ▸ Nat.min_le_left _ _
  by_cases hzero : n = 0
  · rw [transferViews_of_zero (hn.trans hzero)]
    exact ⟨.refl s, hv, hw, fun f hf => by cases hf⟩
  · by_cases hregion : v.region = w.region
    · obtain ⟨hb, hfails⟩ := hv.copyWithin hw hregion hreadable
      generalize hcopy : Buffer.copyWithin w.reader n (s.load v) = out at hb hfails
      obtain ⟨r, b⟩ := out
      obtain ⟨hcarries, hfits⟩ := hv.store hb
      have hcursors : w.reader ≤ w.writer := hw.valid.reader_le_writer
      have hcount : n ≤ w.writer - w.reader := hreadable
      rw [transferViews_of_shared hn hzero hregion hcopy]
      refine ⟨hcarries, hfits, ?_, ?_⟩
      · simp only
        split
        · exact (hcarries.fits w hw).moveReader (by omega)
        · exact hcarries.fits w hw
      · cases r with
        | error f => exact fun g hg => hfails g (by cases hg; rfl)
        | ok u => exact fun g hg => by cases hg
    · obtain ⟨htarget, hsource, hfails⟩ := Buffer.handling_transfer hv.valid hw.valid
      generalize hmove : Buffer.transfer (s.load v, s.load w) = out at htarget hsource hfails
      obtain ⟨r, b, c⟩ := out
      obtain ⟨hcarries, hfits⟩ := hv.store htarget
      -- the region of the source is still as it was
      rw [← load_store_of_ne (Ne.symm hregion)] at hsource
      obtain ⟨hcarries', hfits'⟩ := (hcarries.fits w hw).store hsource
      rw [transferViews_of_apart (hn ▸ hzero) hregion hmove]
      exact ⟨hcarries.trans hcarries', hcarries'.fits _ hfits, hfits', hfails⟩

/-! ### Names -/

theorem lookup_filter_of_ne {name other : String} (hne : other ≠ name)
    (views : List (String × View)) :
    (views.filter (·.1 != name)).lookup other = views.lookup other := by
  induction views with
  | nil => rfl
  | cons entry views ih =>
      by_cases hname : entry.1 = name
      · rw [List.filter_cons_of_neg (by simpa using hname), ih, List.lookup_cons, hname,
          beq_eq_false_iff_ne.mpr hne]
      · rw [List.filter_cons_of_pos (by simpa using hname), List.lookup_cons, List.lookup_cons, ih]

theorem lookup_of_filter {views : List (String × View)} {name other : String}
    (h : (views.filter (·.1 != name)).lookup other = some v) : views.lookup other = some v := by
  obtain ⟨before, behind, hviews, -⟩ := List.lookup_eq_some_iff.mp h
  have hmem : (other, v) ∈ views.filter (·.1 != name) := by
    rw [hviews]
    exact List.mem_append_right _ List.mem_cons_self
  have hne : other ≠ name := by simpa using (List.mem_filter.mp hmem).2
  rwa [lookup_filter_of_ne hne] at h

@[simp] theorem view?_setView_self (s : Shelf) (name : String) (v : View) :
    (s.setView name v).view? name = some v := by
  simp [view?, setView]

theorem view?_setView_of_ne {name other : String} (hne : other ≠ name) :
    (s.setView name v).view? other = s.view? other := by
  rw [view?, setView, List.lookup_cons, beq_eq_false_iff_ne.mpr hne]
  exact lookup_filter_of_ne hne s.views

@[simp] theorem load_setView (s : Shelf) (name : String) (v w : View) :
    (s.setView name v).load w = s.load w := rfl

/-- The regions are the same, and under each name the view is. -/
structure Same (s s' : Shelf) : Prop where
  regions : s'.regions = s.regions
  views : ∀ name, s'.view? name = s.view? name

theorem same_setView {name : String} (h : s.view? name = some v) : s.Same (s.setView name v) where
  regions := rfl
  views := by
    intro other
    by_cases hother : other = name
    · rw [hother, view?_setView_self, h]
    · exact view?_setView_of_ne hother

theorem view?_of_setView {name other : String} (h : (s.setView name v).view? other = some w) :
    w = v ∨ s.view? other = some w := by
  by_cases hname : other = name
  · subst hname
    rw [view?, setView, List.lookup_cons_self] at h
    exact .inl (Option.some.inj h).symm
  · rw [view?, setView, List.lookup_cons, beq_eq_false_iff_ne.mpr hname] at h
    exact .inr (lookup_of_filter h)

theorem view?_of_drop {name other : String} (h : (s.drop name).view? other = some w) :
    s.view? other = some w :=
  lookup_of_filter h

/-! ### Steps -/

/-- What can be done to a shelf. A step with a name that is not known does nothing. -/
inductive Step where
  | create (name : String) (initial limit : Nat)
  | ofBytes (name : String) (bytes : List UInt8)
  | duplicate (of name : String)
  | drop (name : String)
  | access (name : String) (a : Access)
  | transfer (target source : String)
  deriving DecidableEq, Repr

/-- Takes a step: the failure that came of it, if one did, and the shelf after it. -/
def step (s : Shelf) : Step → Option Failure × Shelf
  | .create name initial limit => (none, s.create name (Buffer.create initial limit))
  | .ofBytes name bytes => (none, s.create name (Buffer.ofBytes bytes))
  | .duplicate of name => (none, (s.duplicate of name).getD s)
  | .drop name => (none, s.drop name)
  | .access name a =>
    match s.on name a.run with
    | some (.error f, s) => (some f, s)
    | some (.ok _, s) => (none, s)
    | none => (none, s)
  | .transfer target source =>
    match s.transfer target source with
    | some (.error f, s) => (some f, s)
    | some (.ok _, s) => (none, s)
    | none => (none, s)

def failure? {α : Type} : Except Failure α → Option Failure
  | .error f => some f
  | .ok _ => none

@[simp] theorem isNone_failure? {α : Type} (r : Except Failure α) :
    (failure? r).isNone = r.isOk := by
  cases r <;> rfl

theorem on_of_view {α : Type} {name : String} (hv : s.view? name = some v)
    (act : Action Buffer α) :
    s.on name act = some ((s.onView v act).1,
      (s.onView v act).2.1.setView name (s.onView v act).2.2) := by
  rw [on, hv]
  rfl

theorem step_access {name : String} (hv : s.view? name = some v) (a : Access) :
    s.step (.access name a) =
      (failure? (s.onView v a.run).1,
        (s.onView v a.run).2.1.setView name (s.onView v a.run).2.2) := by
  rw [step, on_of_view hv]
  rcases s.onView v a.run with ⟨_ | _, _, _⟩ <;> rfl

theorem on_of_same {α : Type} {act : Action Buffer α} {r : Except Failure α} {name : String}
    (hv : s.view? name = some v) (hact : act (s.load v) = (r, s.load v)) :
    s.on name act = some (r, s.setView name v) := by
  simp only [on_of_view hv, Shelf.onView, hact, store_load]

theorem step_access_of_same {name : String} {a : Access} {r : Except Failure a.Answer}
    (hv : s.view? name = some v) (ha : a.run (s.load v) = (r, s.load v)) :
    s.step (.access name a) = (failure? r, s.setView name v) := by
  simp only [step_access hv, Shelf.onView, ha, store_load]

theorem transfer_of_views {target source : String} {r : Except Failure Nat} {v' w' : View}
    (hv : s.view? target = some v) (hw : s.view? source = some w)
    (h : s.transferViews v w = (r, s', v', w')) :
    s.transfer target source = some (r, (s'.setView target v').setView source w') := by
  have htransfer : s.transfer target source = some ((s.transferViews v w).1,
      ((s.transferViews v w).2.1.setView target (s.transferViews v w).2.2.1).setView source
        (s.transferViews v w).2.2.2) := by
    rw [transfer, hv, hw]
    rfl
  rw [htransfer, h]

theorem step_transfer {target source : String} (hv : s.view? target = some v)
    (hw : s.view? source = some w) :
    s.step (.transfer target source) = (failure? (s.transferViews v w).1,
      ((s.transferViews v w).2.1.setView target (s.transferViews v w).2.2.1).setView source
        (s.transferViews v w).2.2.2) := by
  rcases h : s.transferViews v w with ⟨r, t, v', w'⟩
  rw [step, transfer_of_views hv hw h]
  cases r <;> rfl

/-- What a step may come to: the failure, if it fails, and the shelf after it. -/
inductive Does (s : Shelf) : Step → Option Failure → Shelf → Prop
  /-- A region is opened, with a view of it. -/
  | opens {x : Step} (name : String) (b : Buffer) (hb : b.Fresh)
      (hx : ∀ other a, x ≠ .access other a) : s.Does x none (s.create name b)
  /-- Names change, and all views that have one had one before. -/
  | names {x : Step} {s' : Shelf} (hregions : s'.regions = s.regions)
      (hviews : ∀ name v, s'.view? name = some v → ∃ other, s.view? other = some v)
      (hx : ∀ name a, x = .access name a → s.view? name = none) : s.Does x none s'
  | access {name : String} {v : View} (hv : s.view? name = some v) (a : Access) :
      s.Does (.access name a) (failure? (s.onView v a.run).1)
        ((s.onView v a.run).2.1.setView name (s.onView v a.run).2.2)
  | transfer {target source : String} {v w : View} (hv : s.view? target = some v)
      (hw : s.view? source = some w) :
      s.Does (.transfer target source) (failure? (s.transferViews v w).1)
        (((s.transferViews v w).2.1.setView target (s.transferViews v w).2.2.1).setView source
          (s.transferViews v w).2.2.2)

theorem does_step (s : Shelf) (x : Step) : s.Does x (s.step x).1 (s.step x).2 := by
  cases x with
  | create name initial max => exact .opens name _ (Buffer.fresh_create initial max) nofun
  | ofBytes name bytes => exact .opens name _ (Buffer.fresh_ofBytes bytes) nofun
  | duplicate of name =>
      rw [step, duplicate]
      cases hof : s.view? of with
      | none => exact .names rfl (fun name v hv => ⟨name, hv⟩) nofun
      | some v =>
        refine .names rfl (fun other w hw => ?_) nofun
        rcases view?_of_setView hw with rfl | hw
        · exact ⟨of, hof⟩
        · exact ⟨other, hw⟩
  | drop name => exact .names rfl (fun other v hv => ⟨other, view?_of_drop hv⟩) nofun
  | access name a =>
      cases hname : s.view? name with
      | none =>
        have hstep : s.step (.access name a) = (none, s) := by rw [step, on, hname]; rfl
        rw [hstep]
        refine .names rfl (fun other v hv => ⟨other, hv⟩) fun other b hx => ?_
        cases hx
        exact hname
      | some v =>
        rw [step_access hname]
        exact .access hname a
  | transfer target source =>
      have hunknown (hnone : s.transfer target source = none) :
          s.Does (.transfer target source) (s.step (.transfer target source)).1
            (s.step (.transfer target source)).2 := by
        have hstep : s.step (.transfer target source) = (none, s) := by rw [step, hnone]
        rw [hstep]
        exact .names rfl (fun other v hv => ⟨other, hv⟩) nofun
      cases hv : s.view? target with
      | none => exact hunknown (by rw [Shelf.transfer, hv]; rfl)
      | some v =>
        cases hw : s.view? source with
        | none => exact hunknown (by rw [Shelf.transfer, hv, hw]; rfl)
        | some w =>
          rw [step_transfer hv hw]
          exact .transfer hv hw

def after (s : Shelf) (steps : List Step) : Shelf := steps.foldl (fun s x => (s.step x).2) s

def Sound (s : Shelf) : Prop := ∃ limit, ∀ name v, s.view? name = some v → s.Fits limit v

section Steps

variable {name other : String} (hs : ∀ name v, s.view? name = some v → s.Fits limit v)

include hs

theorem fits_setView (hv : s.Fits limit v) (other : String) (w : View)
    (hw : (s.setView name v).view? other = some w) : (s.setView name v).Fits limit w := by
  have hfits : s.Fits limit w := by
    rcases view?_of_setView hw with rfl | hold
    · exact hv
    · exact hs other w hold
  exact hfits.congr rfl

/-- A region of its own comes with a limit of its own. -/
theorem sound_create (name : String) {b : Buffer} (hb : b.Valid) :
    (s.create name b).Sound ∧ s.Evolves (s.create name b) := by
  have hsize : (s.add b).1.regions.size = s.regions.size + 1 := Array.size_push _
  let limit' : Nat → Nat := fun i => if i = s.regions.size then b.limit else limit i
  have hview : (s.add b).1.load (s.add b).2 = b :=
    congrArg (Buffer.mk · b.reader b.writer b.limit) (region_add_self s b)
  have hadded : (s.add b).1.Fits limit' (s.add b).2 :=
    ⟨hsize ▸ Nat.lt_succ_self _, (if_pos rfl).symm, hview.symm ▸ hb⟩
  refine ⟨⟨limit', fits_setView (fun other w hw => ?_) hadded⟩, ?_, ?_⟩
  · obtain ⟨hregion, hlimit, hvalid⟩ := hs other w hw
    have hload : (s.add b).1.load w = s.load w :=
      congrArg (Buffer.mk · w.reader w.writer w.limit) (region_add_of_lt hregion)
    refine ⟨hsize ▸ Nat.lt_succ_of_lt hregion, ?_, hload ▸ hvalid⟩
    rw [hlimit]
    exact (if_neg (Nat.ne_of_lt hregion)).symm
  · exact hsize ▸ Nat.le_succ _
  · intro i hi bytes hbytes
    have hregion : (s.create name b).region i = s.region i := region_add_of_lt hi
    exact ⟨bytes, hregion ▸ hbytes, Nat.le_refl _⟩

theorem sound_access {α : Type} {act : Action Buffer α} (hact : Obeys Conduct.handling act)
    (hv : s.view? name = some v) :
    ((s.onView v act).2.1.setView name (s.onView v act).2.2).Sound ∧
      s.Evolves ((s.onView v act).2.1.setView name (s.onView v act).2.2) ∧
      ∀ f, (s.onView v act).1 = .error f → f.Plain := by
  obtain ⟨hcarries, hfits, hfails⟩ := (hs name v hv).onView hact
  exact ⟨⟨limit, fits_setView (fun other w hw => hcarries.fits w (hs other w hw)) hfits⟩,
    hcarries.toEvolves.congr rfl, hfails⟩

theorem sound_transfer (hv : s.view? name = some v) (hw : s.view? other = some w) :
    (((s.transferViews v w).2.1.setView name (s.transferViews v w).2.2.1).setView other
        (s.transferViews v w).2.2.2).Sound ∧
      s.Evolves (((s.transferViews v w).2.1.setView name (s.transferViews v w).2.2.1).setView other
        (s.transferViews v w).2.2.2) ∧
      ∀ f, (s.transferViews v w).1 = .error f → f.Plain := by
  obtain ⟨hcarries, hfitsv, hfitsw, hfails⟩ := (hs name v hv).transferViews (hs other w hw)
  generalize s.transferViews v w = out at hcarries hfitsv hfitsw hfails ⊢
  obtain ⟨r, t, v', w'⟩ := out
  have hold : ∀ other u, t.view? other = some u → t.Fits limit u := by
    intro other u hu
    rw [view?, show t.views = s.views from hcarries.views] at hu
    exact hcarries.fits u (hs other u hu)
  exact ⟨⟨limit, fits_setView (fits_setView hold hfitsv) (hfitsw.congr rfl)⟩,
    hcarries.toEvolves.congr rfl, hfails⟩

end Steps

theorem failure?_eq_some {α : Type} {r : Except Failure α} {f : Failure}
    (h : failure? r = some f) : r = .error f := by
  cases r with
  | error g => exact congrArg Except.error (Option.some.inj h)
  | ok a => cases h

/-- Every step, successful or not, leaves all views in order, and no step breaks off. -/
theorem Sound.step (hs : s.Sound) (x : Step) :
    (s.step x).2.Sound ∧ s.Evolves (s.step x).2 ∧ ∀ f, (s.step x).1 = some f → f.Plain := by
  have hdoes := s.does_step x
  obtain ⟨limit, hs⟩ := hs
  generalize (s.step x).1 = failed at hdoes ⊢
  generalize (s.step x).2 = s' at hdoes ⊢
  cases hdoes with
  | opens name b hb =>
      obtain ⟨hsound, hevolves⟩ := sound_create hs name hb.live.valid
      exact ⟨hsound, hevolves, fun f hf => by cases hf⟩
  | names hregions hviews =>
      refine ⟨⟨limit, fun name v hv => ?_⟩, (Evolves.refl s).congr hregions,
        fun f hf => by cases hf⟩
      obtain ⟨other, hv⟩ := hviews name v hv
      exact (hs other v hv).congr hregions
  | access hv a =>
      obtain ⟨hsound, hevolves, hfails⟩ := sound_access hs a.handling_run hv
      exact ⟨hsound, hevolves, fun f hf => hfails f (failure?_eq_some hf)⟩
  | transfer hv hw =>
      obtain ⟨hsound, hevolves, hfails⟩ := sound_transfer hs hv hw
      exact ⟨hsound, hevolves, fun f hf => hfails f (failure?_eq_some hf)⟩

theorem Sound.after (hs : s.Sound) (steps : List Step) :
    (s.after steps).Sound ∧ s.Evolves (s.after steps) := by
  induction steps generalizing s with
  | nil => exact ⟨hs, .refl s⟩
  | cons x steps ih =>
      obtain ⟨hsound, hevolves, -⟩ := hs.step x
      obtain ⟨hsound', hevolves'⟩ := ih hsound
      exact ⟨hsound', hevolves.trans hevolves'⟩

theorem sound_empty : Sound {} := ⟨fun _ => 0, fun _ _ h => by cases h⟩

theorem Evolves.capacity_le (h : s.Evolves s') (hi : i < s.regions.size)
    (hlive : (s'.region i).storage.isSome) :
    (s.region i).storage.isSome ∧ (s.region i).capacity ≤ (s'.region i).capacity := by
  obtain ⟨bytes', hbytes'⟩ := Option.isSome_iff_exists.mp hlive
  obtain ⟨bytes, hbytes, hle⟩ := h.grows i hi bytes' hbytes'
  refine ⟨by rw [hbytes]; rfl, ?_⟩
  simpa [Region.capacity, hbytes, hbytes'] using hle

/-- After any steps the cursors of every view are in order, below a limit that all views of its
region share, and no storage that is still there has become smaller. -/
theorem after_in_order (steps more : List Step) :
    let s := after {} steps
    (∀ name b, s.buffer? name = some b →
      b.reader ≤ b.writer ∧ b.writer ≤ b.limit ∧
        (b.region.storage.isSome → b.writer ≤ b.capacity ∧ b.capacity ≤ b.limit) ∧
        b.reader + b.readableBytes = b.writer ∧ b.writer + b.writableBytes = b.limit) ∧
    (∀ one other v w, s.view? one = some v → s.view? other = some w → v.region = w.region →
      v.limit = w.limit) ∧
    (∀ x f, (s.step x).1 = some f → f.fatal = false) ∧
    ∀ i < s.regions.size, ((s.after more).region i).storage.isSome →
      (s.region i).storage.isSome ∧ (s.region i).capacity ≤ ((s.after more).region i).capacity := by
  intro s
  have hsound : s.Sound := (sound_empty.after steps).1
  have hevolves := (hsound.after more).2
  refine ⟨fun name b hb => ?_, fun one other v w hv hw hregion => ?_, fun x f hf => ?_,
    fun i hi => hevolves.capacity_le hi⟩
  · obtain ⟨limit, hs⟩ := hsound
    obtain ⟨v, hv, rfl⟩ := Option.map_eq_some_iff.mp hb
    have hvalid := (hs name v hv).valid
    have hreader := hvalid.reader_le_writer
    have hwriter := hvalid.writer_le_limit
    refine ⟨hreader, hwriter, fun hlive => ?_, ?_, ?_⟩
    · have h := hvalid.live_of_isSome hlive
      exact ⟨h.writer_le_capacity, h.capacity_le_limit⟩
    · exact Nat.add_sub_of_le hreader
    · exact Nat.add_sub_of_le hwriter
  · obtain ⟨limit, hs⟩ := hsound
    rw [(hs one v hv).limit, (hs other w hw).limit, hregion]
  · exact ((hsound.step x).2.2 f hf).fatal

end Shelf

end Wireform

import Wireform.Proofs.Buffer.Sharing

/-!
The lock counter of a region, for all views that share it.

A step of a shelf turns a region in one of four ways: it leaves counter and
storage alone, it locks, it takes a lock back, or it gives the storage up. The
judgment `Region.Turn` says which, and carries two marks that tell whether the
step was a lock or a release that succeeded. So what one turn does to the
counter is read off the marks, and what a run does is the sum of its turns.

Only a release that finds the counter at zero gives the storage up. What it
leaves is a region that no turn changes any more.

The counter has no bound here. It is that of a machine word of four bytes as
long as fewer than `2 ^ 31` locks are outstanding (`Shelf.Guarded.word`).
-/

namespace Wireform

namespace Region

/-- The storage is there as long as the counter has not fallen below zero, and there it stops. -/
structure Counted (r : Region) : Prop where
  least : -1 ≤ r.locks
  present : r.storage.isSome ↔ 0 ≤ r.locks

structure Holds (r r' : Region) : Prop where
  locks : r'.locks = r.locks
  present : r'.storage.isSome = r.storage.isSome

/-- How a step turns a region, and whether it is a lock or a release of it that succeeds. -/
inductive Turn : (r r' : Region) → (locked released : Bool) → Prop
  | hold {r r' : Region} (h : r.Holds r') : Turn r r' false false
  | lock {r : Region} (h : 0 ≤ r.locks) : Turn r { r with locks := r.locks + 1 } true false
  | unlock {r : Region} (h : 0 < r.locks) : Turn r { r with locks := r.locks - 1 } false true
  | free {r : Region} (h : r.locks = 0) : Turn r ⟨none, -1⟩ false true

variable {r r' r'' : Region} {locked released : Bool}

theorem Holds.refl (r : Region) : r.Holds r := ⟨rfl, rfl⟩

theorem Holds.trans (h : r.Holds r') (h' : r'.Holds r'') : r.Holds r'' :=
  ⟨h'.locks.trans h.locks, h'.present.trans h.present⟩

theorem Counted.gone (hr : r.Counted) (hgone : r.locks < 0) : r = ⟨none, -1⟩ := by
  obtain ⟨storage, locks⟩ := r
  have hleast : -1 ≤ locks := hr.least
  have hnone : storage.isSome = false := by
    have := hr.present
    simp only at this hgone
    grind
  simp only at hgone
  obtain rfl : locks = -1 := by omega
  rw [Option.isSome_eq_false_iff, Option.isNone_iff_eq_none] at hnone
  rw [hnone]

theorem Counted.gone_iff (hr : r.Counted) : r.storage = none ↔ r.locks < 0 := by
  have := hr.present
  cases hstorage : r.storage <;> grind

namespace Turn

theorem counted (h : Turn r r' locked released) (hr : r.Counted) : r'.Counted := by
  have hleast := hr.least
  have hpresent := hr.present
  cases h with
  | hold h => exact ⟨h.locks ▸ hleast, by rw [h.present, h.locks]; exact hpresent⟩
  | lock h => exact ⟨by simp only; omega, iff_of_true (hpresent.mpr h) (by simp only; omega)⟩
  | unlock h =>
      exact ⟨by simp only; omega, iff_of_true (hpresent.mpr (by omega)) (by simp only; omega)⟩
  | free h => exact ⟨by decide, by decide⟩

theorem locks_add (h : Turn r r' locked released) :
    r'.locks + released.toNat = r.locks + locked.toNat := by
  cases h with
  | hold h => simp [h.locks]
  | lock h => simp
  | unlock h => simp
  | free h => simp [h]

/-- The storage is lost to a release that finds the counter at zero, and to nothing else. -/
theorem frees_iff (h : Turn r r' locked released) (hr : r.Counted) :
    r.storage.isSome ∧ r'.storage = none ↔ released ∧ r.locks = 0 := by
  have hpresent := hr.present
  cases h with
  | hold h =>
      have := h.present
      cases hstorage : r'.storage <;> simp_all
  | lock h =>
      have : r.storage.isSome := hpresent.mpr h
      cases hstorage : r.storage <;> simp_all
  | unlock h =>
      have : r.storage.isSome := hpresent.mpr (by omega)
      cases hstorage : r.storage <;> grind
  | free h => simp [h, hpresent.mpr (Int.le_of_eq h.symm)]

theorem eq_of_gone (h : Turn r r' locked released) (hr : r.Counted) (hgone : r.locks < 0) :
    r' = r := by
  cases h with
  | hold h =>
      have hr' : r'.Counted := (Turn.hold h).counted hr
      rw [hr'.gone (h.locks ▸ hgone), hr.gone hgone]
  | lock h | unlock h | free h => omega

end Turn

end Region

/-! ### Accesses -/

def Conduct.holding : Conduct Buffer where
  Fit := Buffer.Valid
  Moves b b' := b.Follows b' ∧ b.region.Holds b'.region
  Fails := Failure.Plain
  refl := fun h => ⟨.refl h, .refl _⟩
  trans := fun h h' => ⟨h.1.trans h'.1, h.2.trans h'.2⟩
  fit := fun _ h => h.1.valid

theorem Obeys.holding {α : Type} {act : Action Buffer α} (h : Obeys Conduct.reading act) :
    Obeys Conduct.holding act := by
  refine h.mono (fun _ hb => hb) ?_ (fun _ hf => hf)
  rintro b _ hb ⟨r, hr, rfl⟩
  exact ⟨.of_storage (hb.moveReader hr) rfl rfl, .refl _⟩

namespace Buffer

variable {α : Type} {b : Buffer}

/-- Who handles a buffer has only to leave its region alone besides. -/
theorem holding_of_handling {act : Action Buffer α} (h : Obeys Conduct.handling act)
    (hregion : ∀ b : Buffer, b.region.Holds (act b).2.region) : Obeys Conduct.holding act := by
  intro b hb
  obtain ⟨hfollows, hfails⟩ := h hb
  exact ⟨⟨hfollows, hregion b⟩, hfails⟩

theorem holds_copyWithin (source count : Nat) (b : Buffer) :
    b.region.Holds (copyWithin source count b).2.region := by
  obtain ⟨⟨_ | bytes, locks⟩, reader, writer, limit⟩ := b
  · exact .refl _
  · rw [copyWithin]
    split
    · exact .refl _
    · simp only
      split <;> exact ⟨rfl, rfl⟩

theorem holding_put (operation : String) (data : List UInt8) :
    Obeys Conduct.holding (put operation data) := by
  refine holding_of_handling (handling_put operation data) ?_
  rintro ⟨⟨_ | bytes, locks⟩, reader, writer, limit⟩
  · exact .refl _
  · rw [put]
    split <;> exact ⟨rfl, rfl⟩

theorem holding_setWriter (index : Nat) : Obeys Conduct.holding (setWriter index) := by
  refine holding_of_handling (handling_setWriter index) ?_
  rintro ⟨⟨_ | bytes, locks⟩, reader, writer, limit⟩
  · exact .refl _
  · have hset : setWriter index ⟨⟨some bytes, locks⟩, reader, writer, limit⟩ = _ :=
      Action.bind_of_ok rfl
    rw [hset]
    split <;> exact .refl _

theorem holding_clear : Obeys Conduct.holding (Action.modify clear) :=
  holding_of_handling handling_clear fun _ => .refl _

end Buffer

theorem Access.holding_run {a : Access} (hlock : a ≠ .lock) (hrelease : a ≠ .release) :
    Obeys Conduct.holding a.run :=
  obeys_run Buffer.holding_put Obeys.holding (fun index _ => Buffer.holding_setWriter index)
    (fun _ => Buffer.holding_clear) (fun h => absurd h hlock) (fun h => absurd h hrelease)

namespace Buffer

variable {b : Buffer}

theorem lock_of_released (h : b.region.locks < 0) : lock b = (.error Fault.released, b) := if_pos h

theorem release_of_released (h : b.region.locks < 0) : release b = (.error Fault.released, b) :=
  if_pos h

theorem isOk_release (b : Buffer) : (release b).1.isOk ↔ 0 ≤ b.region.locks := by
  unfold release
  split
  · next h => exact iff_of_false nofun (Int.not_le.mpr h)
  · next h => exact iff_of_true rfl (Int.not_lt.mp h)

theorem turn_lock (b : Buffer) :
    b.region.Turn (lock b).2.region (lock b).1.isOk false := by
  unfold lock
  split
  · exact .hold (.refl _)
  · next h => exact .lock (Int.not_lt.mp h)

theorem turn_release (b : Buffer) :
    b.region.Turn (release b).2.region false (release b).1.isOk := by
  unfold release
  split
  · exact .hold (.refl _)
  · next h =>
    simp only
    split
    · have hzero : b.region.locks = 0 := by omega
      rw [hzero]
      exact .free hzero
    · exact .unlock (by omega)

end Buffer

/-! ### Steps -/

namespace Shelf

variable {limit : Nat → Nat} {s s' : Shelf} {v w : View} {b : Buffer} {i : Nat} {a : Access}
  {name : String}

/-- The step is this access, through a view of the region, and it succeeds. -/
def succeeds (i : Nat) (a : Access) (s : Shelf) : Step → Bool
  | .access name b =>
    b == a && (s.view? name).any (·.region == i) && (s.step (.access name b)).1.isNone
  | _ => false

def frees (i : Nat) (s : Shelf) (x : Step) : Bool :=
  (s.region i).storage.isSome && ((s.step x).2.region i).storage.isNone

/-- How many steps of a run are what `p` says, on the shelf that they are taken on. -/
def tally (p : Shelf → Step → Bool) : Shelf → List Step → Nat
  | _, [] => 0
  | s, x :: steps => (p s x).toNat + tally p (s.step x).2 steps

theorem holds_store (hv : v.region < s.regions.size)
    (h : (s.region v.region).Holds b.region) (i : Nat) :
    (s.region i).Holds ((s.store v b).1.region i) := by
  by_cases hi : i = v.region
  · rw [hi, region_store_self hv]
    exact h
  · rw [region_store_of_ne hi]
    exact .refl _

theorem Fits.holds_transferViews (hv : s.Fits limit v) (hw : s.Fits limit w) (i : Nat) :
    (s.region i).Holds ((s.transferViews v w).2.1.region i) := by
  by_cases hcount : Buffer.transferable (s.load v) (s.load w) = 0
  · rw [transferViews_of_zero hcount]
    exact .refl _
  · by_cases hregion : v.region = w.region
    · rw [transferViews_of_shared rfl hcount hregion rfl]
      exact holds_store hv.region (Buffer.holds_copyWithin _ _ (s.load v)) i
    · obtain ⟨⟨-, htarget⟩, ⟨-, hsource⟩, -⟩ :=
        Buffer.obeys_transfer (C := Conduct.holding) (D := Conduct.holding)
          (fun byte => Access.holding_run (a := .writeOctet byte) nofun nofun)
          (Access.holding_run (a := .readOctet) nofun nofun) hv.valid hw.valid
      rw [transferViews_of_apart hcount hregion rfl]
      refine (holds_store hv.region htarget i).trans (holds_store (by simpa using hw.region) ?_ i)
      rw [region_store_of_ne (Ne.symm hregion)]
      exact hsource

theorem succeeds_access (hname : s.view? name = some v) (a c : Access) :
    succeeds i c s (.access name a) =
      (a == c && v.region == i && (a.run (s.load v)).1.isOk) := by
  rw [succeeds, step_access hname, hname, isNone_failure?]
  rfl

/-- An access turns the region of its view, and no other. -/
theorem Fits.turn_access (hv : s.Fits limit v) (hname : s.view? name = some v) (a : Access)
    (i : Nat) :
    (s.region i).Turn ((s.step (.access name a)).2.region i)
      (succeeds i .lock s (.access name a)) (succeeds i .release s (.access name a)) := by
  have hregion : (s.step (.access name a)).2.region i =
      (s.store v (a.run (s.load v)).2).1.region i := by
    rw [step_access hname]
    rfl
  rw [hregion, succeeds_access hname, succeeds_access hname]
  by_cases hi : v.region = i
  · subst hi
    rw [region_store_self hv.region]
    by_cases hlock : a = .lock
    · subst hlock
      have hother : (Access.lock == Access.release) = false := rfl
      simp only [hother, BEq.rfl, Bool.true_and, Bool.false_and]
      exact Buffer.turn_lock (s.load v)
    · by_cases hrelease : a = .release
      · subst hrelease
        have hother : (Access.release == Access.lock) = false := rfl
        simp only [hother, BEq.rfl, Bool.true_and, Bool.false_and]
        exact Buffer.turn_release (s.load v)
      · have hmoves := (Access.holding_run hlock hrelease hv.valid).1
        simp only [hlock, hrelease, beq_eq_false_iff_ne.mpr, ne_eq, not_false_eq_true,
          Bool.false_and]
        exact .hold hmoves.2
  · rw [region_store_of_ne (Ne.symm hi)]
    simp only [hi, beq_eq_false_iff_ne.mpr, ne_eq, not_false_eq_true, Bool.and_false,
      Bool.false_and]
    exact .hold (.refl _)

theorem succeeds_iff {x : Step} : succeeds i a s x ↔ ∃ name v, x = .access name a ∧
    s.view? name = some v ∧ v.region = i ∧ (a.run (s.load v)).1.isOk := by
  constructor
  · intro h
    cases x with
    | access name b =>
      cases hname : s.view? name with
      | none => simp [succeeds, hname] at h
      | some v =>
        rw [succeeds_access hname] at h
        simp only [Bool.and_eq_true, beq_iff_eq] at h
        obtain ⟨⟨rfl, hregion⟩, hok⟩ := h
        exact ⟨name, v, rfl, hname, hregion, hok⟩
    | _ => cases h
  · rintro ⟨name, v, rfl, hname, rfl, hok⟩
    simp [succeeds_access hname, hok]

theorem succeeds_eq_false {x : Step} (hx : ∀ name a, x = .access name a → s.view? name = none)
    (a : Access) : succeeds i a s x = false := by
  refine Bool.eq_false_iff.mpr fun h => ?_
  obtain ⟨name, v, hstep, hname, -⟩ := succeeds_iff.mp h
  rw [hx name a hstep] at hname
  cases hname

/-- Every step turns every region that is there, and is marked as what it is to the region. -/
theorem Sound.turn (hs : s.Sound) (hi : i < s.regions.size) (x : Step) :
    (s.region i).Turn ((s.step x).2.region i) (succeeds i .lock s x)
      (succeeds i .release s x) := by
  obtain ⟨limit, hs⟩ := hs
  have hdoes := s.does_step x
  generalize hfailed : (s.step x).1 = failed at hdoes
  generalize hnext : (s.step x).2 = s' at hdoes ⊢
  cases hdoes with
  | opens name b hb hx =>
      rw [succeeds_eq_false fun other a h => absurd h (hx other a),
        succeeds_eq_false fun other a h => absurd h (hx other a)]
      have hregion : (s.create name b).region i = s.region i := region_add_of_lt hi
      exact .hold (hregion ▸ .refl _)
  | names hregions hviews hx =>
      rw [succeeds_eq_false hx, succeeds_eq_false hx, region, region, hregions]
      exact .hold (.refl _)
  | access hv a =>
      rw [← hnext]
      exact (hs _ _ hv).turn_access hv a i
  | transfer hv hw =>
      exact .hold ((hs _ _ hv).holds_transferViews (hs _ _ hw) i)

/-! ### Runs -/

/-- The counter of a region, and zero as long as there is no such region. -/
def counter (s : Shelf) (i : Nat) : Int := if i < s.regions.size then (s.region i).locks else 0

/-- How often a region has been given up. -/
def losses (s : Shelf) (i : Nat) : Nat :=
  if i < s.regions.size ∧ (s.region i).storage = none then 1 else 0

def Counts (s : Shelf) : Prop := ∀ i < s.regions.size, (s.region i).Counted

theorem region_of_size_le (h : s.regions.size ≤ i) : s.region i = ⟨none, -1⟩ := by
  simp [region, Array.getD_eq_getD_getElem?, h]

theorem Sound.succeeds_eq_false (hs : s.Sound) (hi : s.regions.size ≤ i) (a : Access) (x : Step) :
    succeeds i a s x = false := by
  obtain ⟨limit, hs⟩ := hs
  refine Bool.eq_false_iff.mpr fun h => ?_
  obtain ⟨name, v, -, hname, rfl, -⟩ := succeeds_iff.mp h
  have := (hs name v hname).region
  omega

/-- A step leaves the regions as many as they are, or opens one that is not locked. -/
theorem step_opens (s : Shelf) (x : Step) : (s.step x).2.regions.size = s.regions.size ∨
    (s.step x).2.regions.size = s.regions.size + 1 ∧
      ((s.step x).2.region s.regions.size).locks = 0 ∧
      ((s.step x).2.region s.regions.size).storage.isSome := by
  have hdoes := s.does_step x
  generalize (s.step x).1 = failed at hdoes
  generalize (s.step x).2 = s' at hdoes ⊢
  cases hdoes with
  | opens name b hb hx =>
      refine .inr ⟨Array.size_push _, ?_⟩
      have hregion : (s.create name b).region s.regions.size = b.region := region_add_self s b
      rw [hregion]
      exact ⟨hb.unlocked, hb.live.present⟩
  | names hregions => exact .inl (congrArg Array.size hregions)
  | access hv a => exact .inl size_store
  | transfer hv hw => exact .inl size_transferViews

theorem Sound.counts_step (hs : s.Sound) (hc : s.Counts) (x : Step) : (s.step x).2.Counts := by
  intro i hi
  rcases Nat.lt_or_ge i s.regions.size with hold | hnew
  · exact (hs.turn hold x).counted (hc i hold)
  · rcases s.step_opens x with hsize | ⟨hsize, hlocks, hpresent⟩
    · omega
    · obtain rfl : i = s.regions.size := by omega
      exact ⟨by omega, iff_of_true hpresent (by omega)⟩

/-- The counter moves with the locks and the releases that succeed, and with nothing else. -/
theorem Sound.counter_step (hs : s.Sound) (i : Nat) (x : Step) :
    (s.step x).2.counter i + (succeeds i .release s x).toNat =
      s.counter i + (succeeds i .lock s x).toNat := by
  unfold counter
  rcases Nat.lt_or_ge i s.regions.size with hold | hnew
  · have hsize := (hs.step x).2.1.size
    rw [if_pos hold, if_pos (Nat.lt_of_lt_of_le hold hsize)]
    exact (hs.turn hold x).locks_add
  · rw [hs.succeeds_eq_false hnew, hs.succeeds_eq_false hnew, if_neg (Nat.not_lt.mpr hnew)]
    rcases s.step_opens x with hsize | ⟨hsize, hlocks, -⟩
    · rw [if_neg (by omega)]
    · split
      · obtain rfl : i = s.regions.size := by omega
        rw [hlocks]
      · rfl

theorem Sound.losses_step (hs : s.Sound) (hc : s.Counts) (i : Nat) (x : Step) :
    (s.step x).2.losses i = s.losses i + (frees i s x).toNat := by
  unfold losses frees
  rcases Nat.lt_or_ge i s.regions.size with hold | hnew
  · have hsize := (hs.step x).2.1.size
    have hhold : i < (s.step x).2.regions.size := Nat.lt_of_lt_of_le hold hsize
    simp only [hold, hhold, true_and]
    cases hstorage : (s.region i).storage with
    | none =>
      have hgone := (hc i hold).gone_iff.mp hstorage
      rw [(hs.turn hold x).eq_of_gone (hc i hold) hgone, hstorage]
      rfl
    | some bytes => cases ((s.step x).2.region i).storage <;> rfl
  · have hnone : (s.region i).storage = none := by rw [region_of_size_le hnew]
    have hbefore : ¬ (i < s.regions.size ∧ (s.region i).storage = none) :=
      fun h => Nat.not_lt.mpr hnew h.1
    rw [if_neg hbefore, hnone]
    refine if_neg ?_
    rintro ⟨hlt, hstorage⟩
    rcases s.step_opens x with hsize | ⟨hsize, -, hpresent⟩
    · omega
    · have hnew : i = s.regions.size := by omega
      subst hnew
      rw [hstorage] at hpresent
      cases hpresent

/-- What a run does to a counter, and how often it gives a storage up, is the sum of its steps. -/
theorem Sound.sums (hs : s.Sound) (hc : s.Counts) (i : Nat) (steps : List Step) :
    (s.after steps).Counts ∧
      (s.after steps).counter i + tally (succeeds i .release) s steps =
        s.counter i + tally (succeeds i .lock) s steps ∧
      (s.after steps).losses i = s.losses i + tally (frees i) s steps := by
  induction steps generalizing s with
  | nil => exact ⟨hc, rfl, rfl⟩
  | cons x steps ih =>
      obtain ⟨hcounts, hcounter, hlosses⟩ := ih (hs.step x).1 (hs.counts_step hc x)
      have hcounter' := hs.counter_step i x
      have hlosses' := hs.losses_step hc i x
      refine ⟨hcounts, ?_, ?_⟩
      · show ((s.step x).2.after steps).counter i + ((_ + _ : Nat) : Int) =
          s.counter i + ((_ + _ : Nat) : Int)
        push_cast
        omega
      · show ((s.step x).2.after steps).losses i = _ + (_ + _)
        omega

theorem Sound.region_after (hs : s.Sound) (hc : s.Counts) (hi : i < s.regions.size)
    (hgone : (s.region i).locks < 0) (steps : List Step) :
    (s.after steps).region i = s.region i := by
  induction steps generalizing s with
  | nil => rfl
  | cons x steps ih =>
      have hstep := (hs.turn hi x).eq_of_gone (hc i hi) hgone
      have hsize := (hs.step x).2.1.size
      rw [← hstep] at hgone ⊢
      exact ih (hs.step x).1 (hs.counts_step hc x) (Nat.lt_of_lt_of_le hi hsize) hgone

theorem Sound.frees_iff (hs : s.Sound) (hc : s.Counts) (hi : i < s.regions.size) (x : Step) :
    frees i s x ↔
      (∃ name v, x = .access name .release ∧ s.view? name = some v ∧ v.region = i) ∧
        (s.region i).locks = 0 := by
  have hturn := (hs.turn hi x).frees_iff (hc i hi)
  rw [frees, Bool.and_eq_true, Option.isNone_iff_eq_none, hturn, succeeds_iff]
  constructor
  · rintro ⟨⟨name, v, hx, hname, hregion, -⟩, hzero⟩
    exact ⟨⟨name, v, hx, hname, hregion⟩, hzero⟩
  · rintro ⟨⟨name, v, hx, hname, rfl⟩, hzero⟩
    have hok := (Buffer.isOk_release (s.load v)).mpr (Int.le_of_eq hzero.symm)
    exact ⟨⟨name, v, hx, hname, rfl, hok⟩, hzero⟩

theorem refused (hname : s.view? name = some v) (hgone : (s.region v.region).locks < 0)
    (ha : a = .lock ∨ a = .release) :
    (s.step (.access name a)).1 = some (Fault.released : Failure) ∧
      s.Same (s.step (.access name a)).2 := by
  have hrun : a.run (s.load v) = (.error Fault.released, s.load v) := by
    rcases ha with rfl | rfl
    · exact Buffer.lock_of_released hgone
    · exact Buffer.release_of_released hgone
  rw [step_access_of_same hname hrun]
  exact ⟨rfl, same_setView hname⟩

theorem counts_empty : Counts {} := nofun

theorem counts_after (steps : List Step) : (after {} steps).Counts :=
  (sound_empty.sums counts_empty 0 steps).1

/-- How a region stands after a run in which, through all of its views together, so many locks and
releases have succeeded and its storage has been given up so many times. -/
structure Guarded (s : Shelf) (i locks releases losses : Nat) : Prop where
  counter : (s.region i).locks = (locks - releases : Int)
  /-- Unless `2 ^ 31` locks are outstanding, the counter has place in a machine word. -/
  word : locks < releases + 0x80000000 →
    (Int32.ofInt (s.region i).locks).toInt = (locks - releases : Int)
  present_iff : (s.region i).storage.isSome ↔ 0 ≤ (s.region i).locks
  losses_eq : losses = if (s.region i).storage.isSome then 0 else 1
  /-- The storage is given up by a release, through whatever view, that finds the counter at
  zero. -/
  frees_iff : ∀ x, frees i s x ↔
    (∃ name v, x = .access name .release ∧ s.view? name = some v ∧ v.region = i) ∧
      (s.region i).locks = 0
  releases_le : releases ≤ locks + 1
  releasable_iff : ∀ name v, s.view? name = some v → v.region = i →
    ((s.load v).region.releasable ↔ (s.region i).locks = 0)
  released_iff : ∀ name v, s.view? name = some v → v.region = i →
    ((s.load v).region.released ↔ (s.region i).locks = -1)
  stays : (s.region i).storage = none → ∀ more, (s.after more).region i = s.region i
  refuses : (s.region i).storage = none → ∀ more name v a,
    (s.after more).view? name = some v → v.region = i → a = .lock ∨ a = .release →
      ((s.after more).step (.access name a)).1 = some (Fault.released : Failure) ∧
        (s.after more).Same ((s.after more).step (.access name a)).2

/-- All views of a region share one counter, and the first release that finds it at zero gives the
storage up for good. -/
theorem lock_protocol (steps : List Step) {i : Nat} (hi : i < (after {} steps).regions.size) :
    (after {} steps).Guarded i (tally (succeeds i .lock) {} steps)
      (tally (succeeds i .release) {} steps) (tally (frees i) {} steps) := by
  have hs : (after {} steps).Sound := (sound_empty.after steps).1
  have hc : (after {} steps).Counts := counts_after steps
  obtain ⟨hleast, hpresent⟩ := hc i hi
  obtain ⟨-, hsum, hlosses⟩ := sound_empty.sums counts_empty i steps
  have hcounter : ((after {} steps).region i).locks =
      (tally (succeeds i .lock) {} steps - tally (succeeds i .release) {} steps : Int) := by
    have hbefore : counter {} i = 0 := if_neg (Nat.not_lt_zero i)
    have hafter : (after {} steps).counter i = ((after {} steps).region i).locks := if_pos hi
    omega
  have hstays (hnone : ((after {} steps).region i).storage = none) (more : List Step) :
      ((after {} steps).after more).region i = (after {} steps).region i :=
    hs.region_after hc hi ((hc i hi).gone_iff.mp hnone) more
  exact {
    counter := hcounter
    word := fun hfew => by rw [Int32.toInt_ofInt_of_le (by omega) (by omega), hcounter]
    present_iff := hpresent
    losses_eq := by
      have hbefore : losses {} i = 0 := if_neg (fun h => Nat.not_lt_zero i h.1)
      rw [hbefore, Nat.zero_add] at hlosses
      rw [← hlosses, losses]
      cases hstorage : ((after {} steps).region i).storage <;> simp [hi]
    frees_iff := hs.frees_iff hc hi
    releases_le := by omega
    releasable_iff := by
      rintro name v - rfl
      exact beq_iff_eq
    released_iff := by
      rintro name v - rfl
      have hregion : ((after {} steps).load v).region = (after {} steps).region v.region := rfl
      rw [hregion, Region.released, decide_eq_true_eq]
      omega
    stays := hstays
    refuses := by
      rintro hnone more name v a hname rfl ha
      refine refused hname ?_ ha
      rw [hstays hnone]
      exact (hc _ hi).gone_iff.mp hnone }

/-- Two views of one region: the lock is taken through the one and the releases go through either,
of which the second gives the storage up and the third is refused. -/
theorem lock_protocol_pair :
    let steps : List Step := [.ofBytes "a" [1, 2], .duplicate "a" "b", .access "b" .lock,
      .access "a" .release, .access "b" .release, .access "a" .release]
    0 < (after {} steps).regions.size ∧ tally (frees 0) {} steps = 1 ∧
      ∀ more, ((after {} steps).after more).region 0 = (after {} steps).region 0 := by
  intro steps
  have hi : 0 < (after {} steps).regions.size := by decide
  have hguarded := lock_protocol steps hi
  have hnone : ((after {} steps).region 0).storage = none := by decide
  exact ⟨hi, hguarded.losses_eq.trans (by decide), hguarded.stays hnone⟩

end Shelf

end Wireform

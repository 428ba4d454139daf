import Mathlib.Data.Finset.Card
import Wireform.Proofs.Endpoint.Forgetting
import Wireform.Proofs.Levels.Objects
import Wireform.Proofs.Pool.Accounts

/-!
The stock of workspaces that an endpoint has to lend. It never gets worse. Work
leaves the sizes of a workspace alone, however it ends, and what else it may have
left is cleared away when the workspace comes back. So each idle workspace is fit
to be lent again, and the pool throws none away when it lends.

Nor does the stock run out. What has been lent is missing from it until it comes
back, and what is made because nothing was there comes on top. So the idle
workspaces and those that are out are together at least as many as the pool was
made for, and if none is out all places are taken.
-/

namespace Wireform

namespace Workspace

variable {s : Settings} {w u : Workspace}

theorem validate_of_lent (h : w.Lent s) (x : Unit) : ((handler s).validate w x).1 = true := by
  simp only [handler, h.scratch, h.maxDepth, h.clean, beq_self_eq_true, Bool.and_self]

theorem Fits.reset (h : w.Fits s) : w.reset.Lent s := ⟨⟨h.scratch, h.maxDepth⟩, rfl⟩

theorem Fits.sized (h : w.Fits s) (hu : w.Sized u) : u.Fits s :=
  ⟨hu.scratch.trans h.scratch, hu.maxDepth.trans h.maxDepth⟩

end Workspace

/-- As long as all idle objects are fit, the one that has been idle longest is lent, or a new one if
there is none. -/
theorem Pool.acquire_of_fit {σ α : Type} {p : Pool σ α}
    (hfit : ∀ a ∈ p.idle, ∀ s, (p.handler.validate a s).1 = true) :
    p.acquire.2.capacity = p.capacity ∧ p.acquire.2.discarded = p.discarded ∧
      p.acquire.2.idle = p.idle.tail := by
  unfold acquire
  cases hidle : p.idle with
  | nil => exact ⟨rfl, rfl, rfl⟩
  | cons a rest =>
      have hvalid := hfit a (hidle ▸ List.mem_cons_self) p.state
      rcases hanswer : p.handler.validate a p.state with ⟨fit, s⟩
      rw [hanswer] at hvalid
      obtain rfl : fit = true := hvalid
      simp only [findFit, hanswer, List.tail_cons, and_self]

namespace Endpoint

variable {d : Dialect} {s : Settings} {places out : Nat} {e : Endpoint} {α : Type}

/-- The pool of an endpoint, of whose workspaces `out` are out. -/
structure Stocked (s : Settings) (places out : Nat) (e : Endpoint) : Prop where
  handler : e.pool.handler = Workspace.handler s
  capacity : e.pool.capacity = places
  idle : ∀ w ∈ e.pool.idle, w.Lent s
  room : e.pool.idle.length ≤ places
  kept : places ≤ e.pool.idle.length + out

namespace Stocked

theorem of_create (he : create d s = .ok e) :
    e.Stocked s (Pool.capacityFor s.poolCapacity) 0 := by
  unfold create at he
  cases hs : s.validate with
  | error f =>
      rw [hs] at he
      cases he
  | ok u =>
      rw [hs] at he
      cases he
      have hlength : (Pool.create s.poolCapacity (Workspace.handler s) ()).idle.length =
          Pool.capacityFor s.poolCapacity := Pool.make_length _ _ _
      refine ⟨rfl, rfl, Pool.forall_make (fun _ => Workspace.lent_fresh s) _ (), ?_, ?_⟩
      · exact Nat.le_of_eq hlength
      · exact Nat.le_of_eq hlength.symm

variable (h : e.Stocked s places out)

include h

theorem remember (memo : Memo) : Stocked s places out { e with memo } :=
  ⟨h.handler, h.capacity, h.idle, h.room, h.kept⟩

theorem valid : ∀ w ∈ e.pool.idle, ∀ x, (e.pool.handler.validate w x).1 = true := by
  intro w hw x
  rw [h.handler]
  exact Workspace.validate_of_lent (h.idle w hw) x

theorem acquire : e.acquire.2.Stocked s places (out + 1) ∧ e.acquire.1.Lent s ∧
    e.acquire.2.pool.discarded = e.pool.discarded := by
  obtain ⟨hcapacity, hdiscarded, hidle⟩ := Pool.acquire_of_fit h.valid
  have hlength : e.acquire.2.pool.idle.length = e.pool.idle.length - 1 := by
    rw [← List.length_tail]
    exact congrArg List.length hidle
  have hroom := h.room
  have hkept := h.kept
  refine ⟨⟨?_, hcapacity.trans h.capacity, fun w hw => ?_, ?_, ?_⟩,
    Workspace.lent_acquire h.handler, hdiscarded⟩
  · exact (Pool.handler_acquire e.pool).trans h.handler
  · exact h.idle w (List.mem_of_mem_tail (hidle ▸ hw))
  · omega
  · omega

omit h

theorem release (h : e.Stocked s places (out + 1)) {w : Workspace} (hw : w.Fits s) :
    (e.release w).Stocked s places out := by
  have hroom := h.room
  have hkept := h.kept
  have hcapacity := h.capacity
  obtain ⟨hsame, -, -, -, hlength⟩ := Pool.release_counts e.pool w
  refine ⟨(Pool.handler_release e.pool w).trans h.handler, hsame.trans hcapacity,
    Pool.forall_release h.idle fun u => ?_, ?_, ?_⟩
  · rw [h.handler]
    exact hw.reset
  · show (e.pool.release w).idle.length ≤ places
    omega
  · show places ≤ (e.pool.release w).idle.length + out
    omega

theorem perform (h : e.Stocked s places out) {act : Dialect → Action Bench α}
    (hact : ∀ x : Bench, x.work.Sized (act e.dialect x).2.work) (b : Buffer) :
    (Endpoint.perform act (e, b)).2.1.Stocked s places out := by
  obtain ⟨hacquired, hlent, -⟩ := h.acquire
  exact (hacquired.remember _).release (hlent.toFits.sized (hact ⟨b, e.acquire.1, e.memo⟩))

theorem writeInto (h : e.Stocked s places out) (field : String) (v : Value) (b : Buffer) :
    (Endpoint.writeInto field v (e, b)).2.1.Stocked s places out :=
  h.perform ((Task.field (.object field v)).sized_run e.dialect) b

theorem read (h : e.Stocked s places out) (b : Buffer) :
    (Endpoint.read (e, b)).2.1.Stocked s places out :=
  h.perform ((Task.request (.object "value")).sized_run e.dialect) b

theorem call (h : e.Stocked s places out) (c : Call) (b : Buffer) :
    (c.run (e, b)).2.1.Stocked s places out := by
  cases c with
  | write field v =>
      have hwritten := h.writeInto field v e.newBuffer
      simp only [Call.run, Endpoint.write]
      generalize Endpoint.writeInto field v (e, e.newBuffer) = result at hwritten ⊢
      rcases result with ⟨_ | _, e', b'⟩
      · exact hwritten
      · exact hwritten
  | writeInto field v => exact h.writeInto field v b
  | read => exact h.read b
  | readAs c =>
      have hread := h.read b
      simp only [Call.run, readAs, Action.bind_apply]
      generalize Endpoint.read (e, b) = result at hread ⊢
      rcases result with ⟨_ | _, e', b'⟩
      · exact hread
      · exact hread

end Stocked

end Endpoint

/-! ### Stations -/

namespace Station

def count (st : Station) (out : Nat) : Event → Nat
  | .borrow _ => out + 1
  | .giveBack i => if (st.lent i).isSome then out - 1 else out
  | _ => out

/-- How many workspaces are out after some events. They have been lent and have not come back, even
if their number has been given to others since. -/
def out (st : Station) (n : Nat) : List Event → Nat
  | [] => n
  | x :: rest => (st.step x).out (st.count n x) rest

/-- Workspaces are borrowed under numbers under which none is lent. -/
def Fresh (st : Station) : List Event → Prop
  | [] => True
  | x :: rest => (∀ i, x = .borrow i → st.lent i = none) ∧ (st.step x).Fresh rest

/-- The station has `n` workspaces out, among them those that are lent under some number. -/
structure Stocked (s : Settings) (places n : Nat) (st : Station) : Prop where
  endpoint : st.endpoint.Stocked s places n
  lent : ∀ i w, st.lent i = some w → w.Fits s
  held : ∀ I : Finset Nat, (∀ i ∈ I, (st.lent i).isSome) → I.card ≤ n

variable {s : Settings} {places n : Nat} {st : Station}

theorem forall_lent_put {P : Workspace → Prop} (hlent : ∀ i w, st.lent i = some w → P w)
    {o : Option Workspace} (ho : ∀ w, o = some w → P w) (i : Nat) :
    ∀ j w, (st.put i o).lent j = some w → P w := by
  intro j w hj
  simp only [put] at hj
  split at hj
  · exact ho w hj
  · exact hlent j w hj

theorem lent_put_of_ne {i j : Nat} (h : j ≠ i) (o : Option Workspace) :
    (st.put i o).lent j = st.lent j :=
  if_neg h

namespace Stocked

theorem of_create {d : Dialect} {e : Endpoint} (he : Endpoint.create d s = .ok e) :
    e.station.Stocked s (Pool.capacityFor s.poolCapacity) 0 := by
  refine ⟨.of_create he, fun _ _ hw => ?_, fun I hI => Nat.le_of_eq ?_⟩
  · cases hw
  · have hnone : ∀ i, i ∉ I := fun i hi => Bool.false_ne_true (hI i hi)
    rw [Finset.eq_empty_of_forall_notMem hnone, Finset.card_empty]

theorem borrow (h : st.Stocked s places n) (i : Nat) :
    (st.step (.borrow i)).Stocked s places (n + 1) := by
  obtain ⟨hacquired, hlent, -⟩ := h.endpoint.acquire
  refine ⟨hacquired, forall_lent_put h.lent (fun w hw => ?_) i, fun I hI => ?_⟩
  · cases hw
    exact hlent.toFits
  · have hothers : (I.erase i).card ≤ n := by
      refine h.held _ fun j hj => ?_
      obtain ⟨hne, hj⟩ := Finset.mem_erase.mp hj
      have hstill := hI j hj
      rwa [Station.step, lent_put_of_ne hne] at hstill
    have hcard := Finset.pred_card_le_card_erase (s := I) (a := i)
    omega

theorem work (h : st.Stocked s places n) (i : Nat) (t : Task) (b : Buffer) :
    (st.step (.work i t b)).Stocked s places n := by
  cases hi : st.lent i with
  | none => simpa only [Station.step, hi] using h
  | some w =>
      have hw := (h.lent i w hi).sized (t.sized_run st.endpoint.dialect ⟨b, w, st.endpoint.memo⟩)
      simp only [Station.step, hi, Endpoint.use]
      refine ⟨h.endpoint.remember _, forall_lent_put h.lent (fun u hu => ?_) i,
        fun I hI => h.held I fun j hj => ?_⟩
      · cases hu
        exact hw
      · by_cases hsame : j = i
        · rw [hsame, hi]
          rfl
        · have hstill := hI j hj
          rwa [lent_put_of_ne hsame] at hstill

theorem giveBack (h : st.Stocked s places n) (i : Nat) :
    (st.step (.giveBack i)).Stocked s places (st.count n (.giveBack i)) := by
  cases hi : st.lent i with
  | none => simpa [Station.step, count, hi] using h
  | some w =>
      -- it is one of those that are out
      have hsome : 1 ≤ n := h.held {i} (by simp [hi])
      obtain ⟨n, rfl⟩ := Nat.exists_eq_add_of_le' hsome
      simp only [Station.step, count, hi, Option.isSome_some, if_true, Nat.add_sub_cancel]
      refine ⟨h.endpoint.release (h.lent i w hi), forall_lent_put h.lent (fun _ hu => by cases hu) i,
        fun I hI => ?_⟩
      have hgone : i ∉ I := fun hmem => by simpa [put] using hI i hmem
      have hall : (insert i I).card ≤ n + 1 := by
        refine h.held _ fun j hj => ?_
        rcases Finset.mem_insert.mp hj with rfl | hj
        · rw [hi]
          rfl
        · have hne : j ≠ i := fun hsame => hgone (hsame ▸ hj)
          have hstill := hI j hj
          rwa [lent_put_of_ne hne] at hstill
      rw [Finset.card_insert_of_notMem hgone] at hall
      omega

theorem step (h : st.Stocked s places n) (x : Event) :
    (st.step x).Stocked s places (st.count n x) := by
  cases x with
  | call c b => exact ⟨h.endpoint.call c b, h.lent, h.held⟩
  | dispatch v => exact ⟨h.endpoint.remember _, h.lent, h.held⟩
  | borrow i => exact h.borrow i
  | work i t b => exact h.work i t b
  | giveBack i => exact h.giveBack i

theorem after (h : st.Stocked s places n) (events : List Event) :
    (st.after events).Stocked s places (st.out n events) := by
  induction events generalizing st n with
  | nil => exact h
  | cons x events ih => exact ih (h.step x)

end Stocked

/-- There are `n` numbers under which a workspace is lent. -/
def Holds (st : Station) (n : Nat) : Prop :=
  ∃ I : Finset Nat, (∀ i, i ∈ I ↔ (st.lent i).isSome) ∧ I.card = n

theorem Holds.step (h : st.Holds n) {x : Event} (hx : ∀ i, x = .borrow i → st.lent i = none) :
    (st.step x).Holds (st.count n x) := by
  obtain ⟨I, hI, hcard⟩ := h
  cases x with
  | call | dispatch => exact ⟨I, hI, hcard⟩
  | borrow i =>
      have hfree : i ∉ I := by simp [hI, hx i rfl]
      refine ⟨insert i I, fun j => ?_, ?_⟩
      · by_cases hj : j = i
        · simp [Station.step, put, hj]
        · simp [Station.step, put, hj, hI]
      · rw [Finset.card_insert_of_notMem hfree, hcard]
        rfl
  | work i t b =>
      refine ⟨I, fun j => ?_, hcard⟩
      cases hi : st.lent i with
      | none => simp [Station.step, hi, hI]
      | some w =>
          by_cases hj : j = i
          · simp [Station.step, put, hj, hi, hI]
          · simp [Station.step, put, hj, hi, hI]
  | giveBack i =>
      cases hi : st.lent i with
      | none => exact ⟨I, by simpa [Station.step, hi] using hI, by simpa [count, hi] using hcard⟩
      | some w =>
          have hmem : i ∈ I := by simp [hI, hi]
          refine ⟨I.erase i, fun j => ?_, ?_⟩
          · by_cases hj : j = i
            · simp [Station.step, put, hj, hi]
            · simp [Station.step, put, hj, hi, hI]
          · rw [Finset.card_erase_of_mem hmem, hcard]
            simp [count, hi]

theorem Holds.after (h : st.Holds n) {events : List Event} (hfresh : st.Fresh events) :
    (st.after events).Holds (st.out n events) := by
  induction events generalizing st n with
  | nil => exact h
  | cons x events ih =>
      obtain ⟨hx, hrest⟩ := hfresh
      exact ih (h.step hx) hrest

end Station

namespace Endpoint

variable {d : Dialect} {s : Settings} {e : Endpoint}

/-- The stock of an endpoint from which `out` workspaces are out. -/
structure Sustained (s : Settings) (out : Nat) (e : Endpoint) : Prop where
  valid : ∀ w ∈ e.pool.idle, ∀ x, (e.pool.handler.validate w x).1 = true
  scratch : ∀ w ∈ e.pool.idle, w.scratch.length = s.scratchSize ∧ 0 < w.scratch.length
  maxDepth : ∀ w ∈ e.pool.idle, w.maxDepth = s.maxDepth
  clean : ∀ w ∈ e.pool.idle, w.depth = 0 ∧ w.frames = []
  /-- None is thrown away when one is lent, and what is lent is clean. -/
  discarded : e.acquire.2.pool.discarded = e.pool.discarded
  lent : e.acquire.1.Lent s
  /-- This holds as well while a call has borrowed one more. -/
  acquired : e.pool.capacity ≤ e.acquire.2.pool.idle.length + (out + 1)
  capacity : e.pool.capacity = Pool.capacityFor s.poolCapacity
  room : e.pool.idle.length ≤ e.pool.capacity
  kept : e.pool.capacity ≤ e.pool.idle.length + out
  full : out = 0 → e.pool.idle.length = e.pool.capacity

theorem Stocked.sustained {out : Nat} (hs : s.validate = .ok ())
    (h : e.Stocked s (Pool.capacityFor s.poolCapacity) out) : e.Sustained s out := by
  obtain ⟨hacquired, hlent, hdiscarded⟩ := h.acquire
  have hcapacity := h.capacity
  have hroom := h.room
  have hkept := h.kept
  exact {
    valid := h.valid
    scratch := fun w hw => ⟨(h.idle w hw).scratch, (h.idle w hw).scratch_pos hs⟩
    maxDepth := fun w hw => (h.idle w hw).maxDepth
    clean := fun w hw => (h.idle w hw).empty
    discarded := hdiscarded
    lent := hlent
    acquired := hcapacity ▸ hacquired.kept
    capacity := hcapacity
    room := by omega
    kept := by omega
    full := fun hnone => by omega }

/-- Whatever has happened to an endpoint, the workspaces that lie idle are fit to be lent, and with
those that are out they are as many as the pool has places or more. Those that are out are the ones
under the numbers in use, as long as nobody uses a number twice at a time. -/
theorem stock_kept (he : create d s = .ok e) (events : List Event) :
    (e.station.after events).endpoint.Sustained s (e.station.out 0 events) ∧
      (e.station.out 0 events = 0 → ∀ i, (e.station.after events).lent i = none) ∧
      (e.station.Fresh events → (e.station.after events).Holds (e.station.out 0 events)) := by
  obtain ⟨hstock, -, hheld⟩ := (Station.Stocked.of_create he).after events
  refine ⟨hstock.sustained (validate_of_create he), fun hnone i => ?_, fun hfresh => ?_⟩
  · refine Option.not_isSome_iff_eq_none.mp fun hsome => ?_
    have hone : 1 ≤ e.station.out 0 events := hheld {i} (by simpa using hsome)
    omega
  · have hempty : e.station.Holds 0 := ⟨∅, fun i => by simp [station], rfl⟩
    exact hempty.after hfresh

end Endpoint

/-! Two workspaces are out at a time, though there is a place for one only. -/

namespace Sample

/-- A temperature that does not fit into its buffer, and a packet that cannot be read. -/
def overlapping : List Event :=
  [.borrow 0, .work 0 (.field (.object "now" hot)) (Buffer.create 2 4), .borrow 1,
    .work 1 (.request (.object "value")) broken, .call .read broken, .giveBack 0, .giveBack 1]

end Sample

namespace Endpoint

theorem stock_kept_overlapping : ∃ d e, Dialect.build Sample.thermometer = .ok d ∧
    create d { debug := true, poolCapacity := 1 } = .ok e ∧
    e.station.out 0 (Sample.overlapping.take 5) = 2 ∧
    e.station.out 0 Sample.overlapping = 0 ∧
    (e.station.after Sample.overlapping).endpoint.pool.idle.length = 1 ∧
    ∀ w ∈ (e.station.after Sample.overlapping).endpoint.pool.idle, w.depth = 0 ∧ w.frames = [] := by
  obtain ⟨d, hd⟩ : ∃ d, Dialect.build Sample.thermometer = .ok d := ⟨_, rfl⟩
  obtain ⟨e, he⟩ : ∃ e, create d { debug := true, poolCapacity := 1 } = .ok e := ⟨_, rfl⟩
  have hout : e.station.out 0 (Sample.overlapping.take 5) = 2 ∧
      e.station.out 0 Sample.overlapping = 0 := by
    cases hd
    cases he
    decide +kernel
  obtain ⟨hstock, -, -⟩ := stock_kept he Sample.overlapping
  refine ⟨d, e, hd, he, hout.1, hout.2, (hstock.full hout.2).trans (hstock.capacity.trans ?_),
    hstock.clean⟩
  decide +kernel

end Endpoint

end Wireform

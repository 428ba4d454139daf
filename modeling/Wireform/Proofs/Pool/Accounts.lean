import Mathlib.Order.Bounds.Defs
import Mathlib.Tactic.Common
import Wireform.Sample.Part

/-!
The counters of a pool keep account of its objects. A pool is used by its holders: they acquire
objects, drop them in any order, change them while they have them, and what the handler knows may
change in the meantime. Whatever they do and whatever the handler answers, every object that was
ever made is idle, out, or thrown away, and those beyond the first fill were made because somebody
found no fit object.

The account is a judgment on a pool, the objects that are out, and the number of acquisitions so
far. One use of the pool keeps it, and so does a run of uses.

Counters have no bound here. None of them is greater than the capacity and the number of
acquisitions together, so they are those of machine words as long as that is below `2 ^ 64`.
-/

namespace Wireform

namespace Pool

variable {σ α : Type}

/-! ## The capacity -/

section

-- The search for the next power of two has no lemmas of its own in the library.
open private Nat.nextPowerOfTwo.go from Init.Data.Nat.Power2.Basic

theorem le_nextPowerOfTwo (n : Nat) : n ≤ n.nextPowerOfTwo := by
  have hgo : ∀ power (h : power > 0), n ≤ Nat.nextPowerOfTwo.go n power h := by
    intro power h
    fun_induction Nat.nextPowerOfTwo.go with
    | case1 power h hlt ih => exact ih
    | case2 power h hle => omega
  exact hgo 1 (by decide)

/-- The search starts at one and doubles, so it cannot jump over a power of two. -/
theorem nextPowerOfTwo_le {n m : Nat} (hm : m.isPowerOfTwo) (h : n ≤ m) : n.nextPowerOfTwo ≤ m := by
  obtain ⟨j, rfl⟩ := hm
  have hgo : ∀ power (hp : power > 0), (∃ k ≤ j, power = 2 ^ k) →
      Nat.nextPowerOfTwo.go n power hp ≤ 2 ^ j := by
    intro power hp hk
    fun_induction Nat.nextPowerOfTwo.go with
    | case1 power hp hlt ih =>
        obtain ⟨k, -, rfl⟩ := hk
        have hkj : k < j := (Nat.pow_lt_pow_iff_right (by decide)).mp (Nat.lt_of_lt_of_le hlt h)
        exact ih ⟨k + 1, hkj, (Nat.pow_succ ..).symm⟩
    | case2 power hp hle =>
        obtain ⟨k, hkj, rfl⟩ := hk
        exact Nat.pow_le_pow_right (by decide) hkj
  exact hgo 1 (by decide) ⟨0, Nat.zero_le j, rfl⟩

end

/-- The powers of two with room for what was requested, and for one object at least. -/
def RoomFor (requested : Nat) : Set Nat := {c | max 1 requested ≤ c ∧ c.isPowerOfTwo}

theorem isLeast_capacityFor (requested : Nat) :
    IsLeast (RoomFor requested) (capacityFor requested) := by
  refine ⟨⟨le_nextPowerOfTwo _, Nat.isPowerOfTwo_nextPowerOfTwo _⟩, ?_⟩
  rintro _ ⟨hroom, hpower⟩
  exact nextPowerOfTwo_le hpower hroom

/-! ## Lending and taking back -/

@[simp] theorem make_length (h : Handler σ α) (n : Nat) (s : σ) : (make h n s).1.length = n := by
  induction n generalizing s with
  | zero => rfl
  | succ n ih => simp [make, ih]

/-- The search for a fit object throws away what it passes, and when it ends without one it has
passed everything. -/
theorem findFit_length (h : Handler σ α) (idle : List α) (discarded : Nat) (s : σ) :
    ∃ passed, (findFit h idle discarded s).2.2.1 = discarded + passed ∧
      idle.length = passed + (findFit h idle discarded s).1.toList.length
        + (findFit h idle discarded s).2.1.length := by
  induction idle generalizing discarded s with
  | nil => exact ⟨0, by simp [findFit]⟩
  | cons a rest ih =>
      rcases hfit : h.validate a s with ⟨fit, s'⟩
      cases fit with
      | true =>
          refine ⟨0, ?_, ?_⟩ <;> simp [findFit, hfit]
          omega
      | false =>
          obtain ⟨passed, hdiscarded, hlength⟩ := ih (discarded + 1) s'
          refine ⟨passed + 1, ?_, ?_⟩
          · simp only [findFit, hfit, hdiscarded]
            omega
          · simp only [findFit, hfit, List.length_cons, hlength]
            omega

/-- An acquisition passes some idle objects, which are thrown away. Then it lends the next idle one,
or it makes one. -/
theorem acquire_counts (p : Pool σ α) :
    ∃ passed, p.acquire.2.capacity = p.capacity ∧
      p.acquire.2.discarded = p.discarded + passed ∧
      ((p.idle.length = passed + 1 + p.acquire.2.idle.length ∧
          p.acquire.2.created = p.created ∧
          p.acquire.2.intermediate = p.intermediate ∧
          p.acquire.2.recycled = p.recycled + 1) ∨
        (p.idle.length = passed + p.acquire.2.idle.length ∧
          p.acquire.2.created = p.created + 1 ∧
          p.acquire.2.intermediate = p.intermediate + 1 ∧
          p.acquire.2.recycled = p.recycled)) := by
  obtain ⟨passed, hdiscarded, hlength⟩ :=
    findFit_length p.handler p.idle p.discarded p.state
  rcases hfound : findFit p.handler p.idle p.discarded p.state with ⟨found, idle, discarded, s⟩
  simp only [hfound] at hdiscarded hlength
  refine ⟨passed, ?_⟩
  cases found with
  | some a =>
      refine ⟨?_, ?_, .inl ⟨?_, ?_, ?_, ?_⟩⟩ <;> simp_all [acquire]
  | none =>
      refine ⟨?_, ?_, .inr ⟨?_, ?_, ?_, ?_⟩⟩ <;> simp_all [acquire]

theorem release_counts (p : Pool σ α) (a : α) :
    (p.release a).capacity = p.capacity ∧ (p.release a).created = p.created ∧
      (p.release a).intermediate = p.intermediate ∧ (p.release a).recycled = p.recycled ∧
      ((p.idle.length < p.capacity ∧ (p.release a).idle.length = p.idle.length + 1 ∧
          (p.release a).discarded = p.discarded) ∨
        (p.capacity ≤ p.idle.length ∧ (p.release a).idle.length = p.idle.length ∧
          (p.release a).discarded = p.discarded + 1)) := by
  by_cases hroom : p.idle.length < p.capacity
  · simp [release, hroom]
  · simp [release, hroom, Nat.not_lt.mp hroom]

/-! ## The account -/

/-- A pool, and the objects that are out. -/
structure Lending (σ α : Type) where
  pool : Pool σ α
  out : List α := []

inductive Use (σ α : Type) where
  | acquire
  /-- One of those that are out comes back, told by its place among them. -/
  | drop (place : Nat)
  /-- A holder works on the object at a place. -/
  | work (place : Nat) (f : α → α)
  /-- Something that the handler looks at is changed from outside. -/
  | disturb (f : σ → σ)

def Use.isAcquire : Use σ α → Bool
  | .acquire => true
  | _ => false

namespace Lending

def step (l : Lending σ α) : Use σ α → Lending σ α
  | .acquire => ⟨l.pool.acquire.2, l.pool.acquire.1 :: l.out⟩
  | .drop place =>
    match l.out[place]? with
    | some a => ⟨l.pool.release a, l.out.eraseIdx place⟩
    | none => l
  | .work place f => { l with out := l.out.modify place f }
  | .disturb f => { l with pool := { l.pool with state := f l.pool.state } }

def run (l : Lending σ α) (uses : List (Use σ α)) : Lending σ α := uses.foldl step l

/-- The account of a pool that was made for `requested` objects, after `acquired` acquisitions. -/
structure Balanced (requested acquired : Nat) (l : Lending σ α) : Prop where
  capacity : l.pool.capacity = capacityFor requested
  idle : l.pool.idle.length ≤ l.pool.capacity
  conserved : l.pool.created = l.pool.idle.length + l.out.length + l.pool.discarded
  made : l.pool.created = l.pool.capacity + l.pool.intermediate
  acquired : l.pool.recycled + l.pool.intermediate = acquired

variable {requested acquired : Nat} {l : Lending σ α}

theorem balanced_create (requested : Nat) (h : Handler σ α) (s : σ) :
    Balanced requested 0 (⟨create requested h s, []⟩ : Lending σ α) := by
  constructor <;> simp [create]

theorem Balanced.acquire (hl : Balanced requested acquired l) :
    Balanced requested (acquired + 1) (l.step .acquire) := by
  obtain ⟨hcapacity, hidle, hconserved, hmade, hacquired⟩ := hl
  obtain ⟨passed, hroom, hdiscarded, hlent | hnew⟩ := acquire_counts l.pool
  · obtain ⟨hlength, hcreated, hintermediate, hrecycled⟩ := hlent
    constructor <;> simp only [step, List.length_cons] <;> omega
  · obtain ⟨hlength, hcreated, hintermediate, hrecycled⟩ := hnew
    constructor <;> simp only [step, List.length_cons] <;> omega

theorem Balanced.drop (hl : Balanced requested acquired l) (place : Nat) :
    Balanced requested acquired (l.step (.drop place)) := by
  cases hout : l.out[place]? with
  | none => simpa only [step, hout] using hl
  | some a =>
      obtain ⟨hcapacity, hidle, hconserved, hmade, hacquired⟩ := hl
      have hplace : place < l.out.length := (List.getElem?_eq_some_iff.mp hout).1
      have hleft := List.length_eraseIdx_of_lt hplace
      obtain ⟨hroom, hcreated, hintermediate, hrecycled, hkept | hfull⟩ :=
        release_counts l.pool a
      · constructor <;> simp only [step, hout, hleft] <;> omega
      · constructor <;> simp only [step, hout, hleft] <;> omega

theorem Balanced.step (hl : Balanced requested acquired l) (u : Use σ α) :
    Balanced requested (acquired + if u.isAcquire then 1 else 0) (l.step u) := by
  cases u with
  | acquire => exact hl.acquire
  | drop place => exact hl.drop place
  | work place f =>
      obtain ⟨hcapacity, hidle, hconserved, hmade, hacquired⟩ := hl
      exact ⟨hcapacity, hidle, by simpa [Lending.step] using hconserved, hmade, hacquired⟩
  | disturb f => exact ⟨hl.capacity, hl.idle, hl.conserved, hl.made, hl.acquired⟩

theorem Balanced.run (hl : Balanced requested acquired l) (uses : List (Use σ α)) :
    Balanced requested (acquired + uses.countP Use.isAcquire) (l.run uses) := by
  induction uses generalizing l acquired with
  | nil => exact hl
  | cons u uses ih =>
      rw [List.countP_cons, Nat.add_comm (uses.countP _), ← Nat.add_assoc]
      exact ih (hl.step u)

/-- The counters of a pool at any point of its life, whatever its handler answers and in whatever
order the objects come back. Fewer than `2 ^ 64` acquisitions are made in the life of a pool. -/
theorem counters_agree (h : Handler σ α) (s : σ) (requested : Nat) (uses : List (Use σ α)) :
    let l : Lending σ α := run ⟨create requested h s, []⟩ uses
    IsLeast (RoomFor requested) l.pool.capacity ∧
      l.pool.idle.length ≤ l.pool.capacity ∧
      l.pool.created = l.pool.idle.length + l.out.length + l.pool.discarded ∧
      l.pool.created = l.pool.capacity + l.pool.intermediate ∧
      l.pool.recycled + l.pool.intermediate = uses.countP Use.isAcquire := by
  intro l
  have hl := (balanced_create requested h s).run uses
  refine ⟨?_, hl.idle, hl.conserved, hl.made, ?_⟩
  · exact hl.capacity ▸ isLeast_capacityFor requested
  · simpa using hl.acquired

/-- Two parts from a pool of one: the second is made for the occasion, and there is no room for it
when both come back. -/
example :
    let l : Lending Nat Sample.Part :=
      run ⟨create 1 Sample.Part.counting 0, []⟩ [.acquire, .acquire, .drop 0, .drop 0]
    (l.pool.created, l.pool.intermediate, l.pool.recycled, l.pool.discarded) = (2, 1, 1, 1) := by
  cbv

end Lending

end Pool

end Wireform

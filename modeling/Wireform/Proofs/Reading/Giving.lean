import Wireform.Proofs.Reading.Builtin

/-!
What can be said of readers of which little is known, because an application
brought them. Whatever such a reader does, it does by requests, and these only
consume, so it only consumes as well. `Gives S act P` says this of `act`, and
that all values that it gives have the property `P`.

The judgment leaves fatal failures out. An application may break off with any
failure, also with one that the library reserves for itself, and nobody goes on
from there.

What a plan can give at all can be told without running it, and `Plan.EndsIn` is
about that: whatever its requests are answered, as long as they are answered in
a certain way, the plan ends with a value that has the property, or with a
failure. `Plan.Ends` is the same for answers of any kind.
-/

namespace Wireform

namespace Plan

variable {R : Type} {A : R → Type} {α : Type}

/-- All results that the plan may come to have the property `P`, if all answers that it is given
are as `T` says. -/
def EndsIn (T : (r : R) → A r → Prop) (P : α → Prop) : Plan A α → Prop
  | .done a => P a
  | .refuse _ => True
  | .ask r next => ∀ answer, (∀ a, answer = .ok a → T r a) → (next answer).EndsIn T P

abbrev Ends (P : α → Prop) : Plan A α → Prop := EndsIn (fun _ _ => True) P

variable {T : (r : R) → A r → Prop} {P P' : α → Prop} {plan : Plan A α}

theorem endsIn_true (plan : Plan A α) : plan.EndsIn T fun _ => True := by
  induction plan with
  | done a => trivial
  | refuse f => trivial
  | ask r next ih => exact fun answer _ => ih answer

theorem EndsIn.mono (h : plan.EndsIn T P) (hP : ∀ a, P a → P' a) : plan.EndsIn T P' := by
  induction plan with
  | done a => exact hP a h
  | refuse f => trivial
  | ask r next ih => exact fun answer hanswer => ih answer (h answer hanswer)

theorem Ends.endsIn (h : plan.Ends P) : plan.EndsIn T P := by
  induction plan with
  | done a => exact h
  | refuse f => trivial
  | ask r next ih => exact fun answer _ => ih answer (h answer fun _ _ => trivial)

theorem EndsIn.bind {β : Type} {Q : β → Prop} {f : α → Plan A β} (h : plan.EndsIn T P)
    (hf : ∀ a, P a → (f a).EndsIn T Q) : (plan >>= f).EndsIn T Q := by
  show (plan.bind f).EndsIn T Q
  induction plan with
  | done a => exact hf a h
  | refuse g => trivial
  | ask r next ih => exact fun answer hanswer => ih answer (h answer hanswer)

theorem Ends.bind {β : Type} {Q : β → Prop} {f : α → Plan A β} (h : ∀ a, (f a).Ends Q) :
    (plan >>= f).Ends Q :=
  EndsIn.bind (endsIn_true plan) fun a _ => h a

theorem Ends.of_run {σ : Type} {answer : (r : R) → Action σ (A r)} (h : plan.Ends P) {s t : σ}
    {a : α} (hrun : plan.run answer s = (.ok a, t)) : P a := by
  induction plan generalizing s with
  | done a' =>
      cases hrun
      exact h
  | refuse f => cases hrun
  | ask r next ih =>
      rw [run_ask] at hrun
      obtain ⟨out, u, -, hrest⟩ := Action.exists_of_bind_ok hrun
      exact ih out (h out fun _ _ => trivial) hrest

end Plan

section Gives

variable {σ α β : Type}

/-- Unless it breaks off with a fatal failure, `act` only consumes, and what it gives has the
property `P`. -/
def Gives (S : Source σ) (act : Action σ α) (P : α → Prop) : Prop :=
  ∀ ⦃s r t⦄, S.Ready s → act s = (r, t) → (∀ f, r = .error f → f.fatal = false) →
    (∃ n, S.Moved s n t) ∧ ∀ a, r = .ok a → P a

variable {S : Source σ} {act x : Action σ α} {f : α → Action σ β} {a : α} {P P' : α → Prop}
  {Q : β → Prop}

theorem Reads.gives {W : α → List UInt8 → Prop} (h : Reads S act W) (hP : ∀ a e, W a e → P a) :
    Gives S act P := by
  intro s r t hs hact _
  obtain ⟨e, rest, u, -, hmoved, ⟨a, ha, hw⟩ | ⟨g, hg, -⟩⟩ := h hs
  · cases hact.symm.trans ha
    refine ⟨⟨_, hmoved⟩, ?_⟩
    rintro _ ⟨rfl⟩
    exact hP a e hw
  · cases hact.symm.trans hg
    exact ⟨⟨_, hmoved⟩, fun _ h => by cases h⟩

theorem Parses.gives {W : α → List UInt8 → Prop} (h : Parses S act W) :
    Gives S act fun a => ∃ e, W a e :=
  h.reads.gives fun _ e hw => ⟨e, hw⟩

theorem Gives.mono (h : Gives S act P) (hP : ∀ a, P a → P' a) : Gives S act P' := by
  intro s r t hs hact hr
  obtain ⟨hmoved, ha⟩ := h hs hact hr
  exact ⟨hmoved, fun a h => hP a (ha a h)⟩

theorem Gives.pure (h : P a) : Gives S (Pure.pure a) P := by
  rintro s _ _ hs ⟨⟩ -
  refine ⟨⟨0, S.moved_zero hs⟩, ?_⟩
  rintro _ ⟨rfl⟩
  exact h

theorem Gives.lift {r : Except Failure α} (h : ∀ a, r = .ok a → P a) :
    Gives S (Action.lift r) P := by
  rintro s _ _ hs ⟨⟩ -
  exact ⟨⟨0, S.moved_zero hs⟩, h⟩

theorem Gives.fail (g : Failure) : Gives S (Action.fail g) P :=
  Gives.lift (r := .error g) fun _ h => by cases h

theorem Gives.bind (hx : Gives S x P) (hf : ∀ a, P a → Gives S (f a) Q) :
    Gives S (x >>= f) Q := by
  intro s r u hs hact hr
  rcases hxs : x s with ⟨e | a, t⟩
  · cases hact.symm.trans (Action.bind_of_error hxs)
    refine ⟨(hx hs hxs fun g hg => ?_).1, fun _ h => by cases h⟩
    cases hg
    exact hr _ rfl
  · rw [Action.bind_of_ok hxs] at hact
    obtain ⟨⟨m, hm⟩, ha⟩ := hx hs hxs fun _ h => by cases h
    obtain ⟨⟨n, hn⟩, hb⟩ := hf a (ha a rfl) (S.ready_of_moved hs hm) hact hr
    exact ⟨⟨m + n, S.moved_add hm hn⟩, hb⟩

theorem Gives.map {g : α → β} (hx : Gives S x P) (hg : ∀ a, P a → Q (g a)) :
    Gives S (g <$> x) Q :=
  hx.bind (f := fun a => Pure.pure (g a)) fun a h => Gives.pure (hg a h)

theorem Gives.attempt (hx : Gives S x P) :
    Gives S (Action.attempt x) fun r => ∀ a, r = .ok a → P a := by
  intro s r t hs hact hr
  rcases hxs : x s with ⟨e | a, u⟩
  · simp only [Action.attempt, hxs] at hact
    by_cases he : e.fatal
    · rw [if_pos he] at hact
      cases hact
      cases he.symm.trans (hr e rfl)
    · rw [if_neg he] at hact
      cases hact
      refine ⟨(hx hs hxs ?_).1, ?_⟩
      · rintro _ ⟨rfl⟩
        exact Bool.eq_false_iff.mpr he
      · rintro _ ⟨rfl⟩ _ h
        cases h
  · simp only [Action.attempt, hxs] at hact
    cases hact
    obtain ⟨hmoved, ha⟩ := hx hs hxs fun _ h => by cases h
    refine ⟨hmoved, ?_⟩
    rintro _ ⟨rfl⟩
    exact ha

/-- However a plan goes on from the answers, it gives what it may come to. -/
theorem Gives.run {R : Type} {A : R → Type} {T : (r : R) → A r → Prop}
    {answer : (r : R) → Action σ (A r)} {plan : Plan A α}
    (hanswer : ∀ r, Gives S (answer r) (T r)) (h : plan.EndsIn T P) :
    Gives S (plan.run answer) P := by
  induction plan with
  | done a => exact Gives.pure h
  | refuse g => exact Gives.fail g
  | ask r next ih =>
      rw [Plan.run_ask]
      exact (hanswer r).attempt.bind fun a ha => ih a (h a ha)

end Gives

/-! ### Answers -/

/-- A reader can answer the request like that, if the objects that it reads are as `P` says. -/
def Request.Admits (P : Value → Prop) : (r : Request) → r.Answer → Prop
  | bytes n, data | block n, data => data.length = n
  | char, c => c.toNat < 0x10000
  | text, s => (Text.bytes s).length ≤ Text.maxLength
  | object _, v => P v
  | objectAs c _, v => v.classOf = c ∧ P v
  | nullable _, v => ∀ w, v = some w → P w
  | _, _ => True

theorem Buffer.gives_peekOctet : Gives Source.buffer peekOctet fun _ => True := by
  intro b r t hb hact _
  have hstill : t = b := by
    unfold peekOctet at hact
    split at hact
    · split at hact
      · cases hact
        rfl
      · split at hact
        · cases hact
          rfl
        · cases hact
          rfl
    · cases hact
      rfl
  rw [hstill]
  exact ⟨⟨0, Source.buffer.moved_zero hb⟩, fun _ _ => trivial⟩

namespace Compact

theorem Marker.gives_read (format : String) (full : Nat) :
    Gives Source.buffer (read format full) fun _ => True := by
  refine Buffer.parses_readOctet.gives.bind fun marker _ => ?_
  split
  · exact Gives.pure trivial
  · exact Gives.fail _

theorem Int32.gives_read : Gives Source.buffer read fun _ => True :=
  (Marker.gives_read _ _).bind fun width _ =>
    (Buffer.parses_take _ width).gives.bind fun _ _ => Gives.pure trivial

theorem Int64.gives_read : Gives Source.buffer read fun _ => True :=
  (Marker.gives_read _ _).bind fun width _ =>
    (Buffer.parses_take _ width).gives.bind fun _ _ => Gives.pure trivial

theorem Flags.gives_readChunks (fuel : Nat) (before : List Bool) :
    Gives Source.buffer (readChunks fuel before) fun _ => True := by
  induction fuel generalizing before with
  | zero =>
      rintro b _ _ hb ⟨⟩ -
      exact ⟨⟨0, Source.buffer.moved_zero hb⟩, fun _ _ => trivial⟩
  | succ fuel ih =>
      refine Buffer.gives_peekOctet.bind fun header _ => ?_
      split
      · exact Gives.fail _
      · split
        · exact Buffer.parses_readOctet.gives.bind fun _ _ => Gives.pure trivial
        · exact Gives.fail _
      · next s _ =>
        refine (Buffer.parses_take _ s.width).gives.bind fun bytes _ => ?_
        simp only
        split
        · exact ih _
        · exact Gives.pure trivial

theorem Flags.gives_read : Gives Source.buffer read fun _ => True := by
  intro b r t hb hact hr
  exact gives_readChunks _ [] hb hact hr

end Compact

namespace Reader

open Bench

variable {d : Dialect} {levels : Nat} {object : String → Action Bench Value} {P : Value → Prop}

theorem gives_onBuffer {α : Type} {act : Action Buffer α} {P : α → Prop}
    (h : Gives Source.buffer act P) : Gives (Source.bench levels) (onBuffer act) P := by
  rintro ⟨b, work, memo⟩ r t hs hact hr
  rcases hb : act b with ⟨r', b'⟩
  simp only [onBuffer, hb] at hact
  cases hact
  obtain ⟨⟨n, hle, rfl⟩, ha⟩ := h hs.live hb hr
  exact ⟨⟨n, hle, rfl, rfl, _, rfl, rfl⟩, ha⟩

/-- If objects are answered, all requests are. -/
theorem gives_answer (hobject : ∀ name, Gives (Source.bench levels) (object name) P)
    (r : Request) : Gives (Source.bench levels) (answer d object r) (r.Admits P) := by
  cases r with
  | bool => exact (parses_onBuffer Buffer.parses_readBool).gives.mono fun _ _ => trivial
  | flags => exact gives_onBuffer Compact.Flags.gives_read
  | byte => exact (parses_onBuffer Buffer.parses_readByte).gives.mono fun _ _ => trivial
  | octet => exact (parses_onBuffer Buffer.parses_readOctet).gives.mono fun _ _ => trivial
  | bytes n =>
      refine (parses_onBuffer (Buffer.parses_take _ n)).gives.mono ?_
      rintro data ⟨_, rfl, hlen⟩
      exact hlen
  | block n =>
      refine (parses_onBuffer (parses_readBlock n)).gives.mono ?_
      rintro data ⟨_, rfl, hlen⟩
      exact hlen
  | short => exact (parses_onBuffer Buffer.parses_readShort).gives.mono fun _ _ => trivial
  | char =>
      refine (parses_onBuffer parses_readChar).gives.mono ?_
      rintro c ⟨_, hc, -⟩
      exact hc
  | int => exact (parses_onBuffer Buffer.parses_readInt).gives.mono fun _ _ => trivial
  | compactInt => exact gives_onBuffer Compact.Int32.gives_read
  | long => exact (parses_onBuffer Buffer.parses_readLong).gives.mono fun _ _ => trivial
  | compactLong => exact gives_onBuffer Compact.Int64.gives_read
  | float => exact (parses_onBuffer Buffer.parses_readFloat).gives.mono fun _ _ => trivial
  | double => exact (parses_onBuffer Buffer.parses_readDouble).gives.mono fun _ _ => trivial
  | text =>
      refine (parses_onScratch fun _ => Text.parses_read).gives.mono ?_
      rintro s ⟨_, hs⟩
      exact hs.fits
  | typeId => exact (parses_onBuffer (parses_readTypeId d)).gives.mono fun _ _ => trivial
  | object name => exact hobject name
  | objectAs c name =>
      refine (hobject name).bind fun v hv => Gives.lift fun w hw => ?_
      unfold Value.expect at hw
      split at hw
      · next hc =>
        cases hw
        exact ⟨hc, hv⟩
      · cases hw
  | nullable name =>
      refine (parses_onBuffer Buffer.parses_readBool).gives.bind fun flag _ => ?_
      cases flag with
      | true =>
          refine (hobject name).bind fun v hv => Gives.pure ?_
          rintro _ ⟨rfl⟩
          exact hv
      | false => exact Gives.pure fun _ h => by cases h

theorem gives_describeNext
    (hobject : ∀ name, Gives (Source.bench levels) (object name) fun _ => True) :
    Gives (Source.bench levels) (describeNext d object) fun _ => True := by
  refine (parses_onBuffer Buffer.parses_readShort).gives.bind fun raw _ => ?_
  simp only
  split
  · exact Gives.run (gives_answer hobject) (Plan.endsIn_true _)
  · exact Gives.pure trivial

theorem readObject_of_fatal {s t : Bench} {f : Failure} (name : String)
    (hs : Ready (levels + 1) s) (htracing : s.work.tracing)
    (h : describeNext d (readObject d levels) s.entered = (.error f, t)) (hf : f.fatal) :
    readObject d (levels + 1) name s = (.error f, t) := by
  have hattempt : Action.attempt (describeNext d (readObject d levels)) s.entered =
      (.error f, t) := by
    simp only [Action.attempt, h, if_pos hf]
  have hpeek : peekName d (readObject d levels) s.entered = (.error f, t) := by
    unfold peekName
    rw [Action.bind_of_ok (Action.get_apply _), Action.bind_of_error hattempt]
  have hpush : pushFrame d (readObject d levels) name s.entered = (.error f, t) := by
    unfold pushFrame
    rw [Action.bind_of_ok (Action.get_apply _),
      if_pos (show s.entered.work.tracing = true from htracing), Action.bind_of_error hpeek]
  unfold readObject
  rw [Action.bind_of_ok (enter_of_levels hs.levels), Action.bind_of_error hpush]

theorem gives_readObject_succ (name : String)
    (hpeek : Gives (Source.bench levels) (describeNext d (readObject d levels)) fun _ => True)
    (hbody : Gives (Source.bench levels) (readBody d (readObject d levels)) P) :
    Gives (Source.bench (levels + 1)) (readObject d (levels + 1) name) P := by
  intro s r t hs hact hr
  have hconsumes : s.work.tracing → Consumes (describeNext d (readObject d levels)) s.entered := by
    intro htracing
    rcases hdescribe : describeNext d (readObject d levels) s.entered with ⟨r', t'⟩
    have hcalm : ∀ f, r' = .error f → f.fatal = false := by
      rintro f rfl
      -- what is fatal for the look ahead would have been fatal for the object
      refine Bool.eq_false_iff.mpr fun hfatal => ?_
      cases hact.symm.trans (readObject_of_fatal name hs htracing hdescribe hfatal)
      cases hfatal.symm.trans (hr f rfl)
    obtain ⟨⟨n, hmoved⟩, -⟩ := hpeek hs.entered hdescribe hcalm
    exact ⟨r', n, t', hdescribe, hmoved, hcalm⟩
  obtain ⟨t₀, ht₀, hread⟩ := readObject_of_opened name hs hconsumes
  rw [hread, inside] at hact
  rcases hinside : readBody d (readObject d levels) t₀ with ⟨f | v, u⟩
  · rw [hinside] at hact
    cases hact
    have hcalm : f.fatal = false := by
      have hannotated := hr _ rfl
      rwa [Workspace.fatal_annotate] at hannotated
    obtain ⟨⟨n, hmoved⟩, -⟩ := hbody (ht₀.ready hs) hinside fun g hg => by cases hg; exact hcalm
    exact ⟨⟨n, ht₀.close hmoved⟩, fun _ h => by cases h⟩
  · rw [hinside] at hact
    cases hact
    obtain ⟨⟨n, hmoved⟩, hv⟩ := hbody (ht₀.ready hs) hinside fun _ h => by cases h
    refine ⟨⟨n, ht₀.close hmoved⟩, ?_⟩
    rintro _ ⟨rfl⟩
    exact hv v rfl

end Reader

end Wireform

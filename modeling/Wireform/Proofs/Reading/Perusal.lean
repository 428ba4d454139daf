import Wireform.Proofs.Buffer.Fields
import Wireform.Proofs.Reading.Object

/-!
Reading at a bench on which nothing is known of the bytes, and of which the
storage may even be gone. The reader of the buffer may end up anywhere up to
the writer and the scratch area may hold anything, but that is all: the bytes,
the memo and the notes about open objects are in the end what they were. The
conduct `Conduct.perusal` says so, and it is kept along the recursion of the
reader.

A look ahead is such a reading, and then the reader goes back. So a look ahead
comes to nothing but what it tells, wherever it breaks off.
-/

namespace Wireform

open Bench

/-- Reading at a bench, with no failures but those that callers get to see. -/
def Conduct.perusal : Conduct Bench where
  Fit s := s.buffer.Valid ∧ 0 < s.work.scratch.length
  Moves s t := ∃ reader scratch, reader ≤ s.buffer.writer ∧
    scratch.length = s.work.scratch.length ∧
    t = ⟨{ s.buffer with reader }, { s.work with scratch }, s.memo⟩
  Fails f := f.fatal = false
  refl := fun h => ⟨_, _, h.1.reader_le_writer, rfl, rfl⟩
  trans := by
    rintro s _ _ ⟨_, _, -, hlen, rfl⟩ ⟨reader, scratch, hreader, hlen', rfl⟩
    exact ⟨reader, scratch, hreader, hlen'.trans hlen, rfl⟩
  fit := by
    rintro s _ ⟨hs, hpos⟩ ⟨reader, scratch, hreader, hlen, rfl⟩
    exact ⟨hs.moveReader hreader, by rw [hlen]; exact hpos⟩

theorem Bench.Opened.peruses {α : Type} {act : Action Bench α} {s t : Bench} (h : Opened s t)
    (hact : Conduct.perusal.Moves t (act t).2 ∧ ∀ f, (act t).1 = .error f → f.fatal = false) :
    Conduct.perusal.Moves s (inside act t).2 ∧
      ∀ f, (inside act t).1 = .error f → f.fatal = false := by
  obtain ⟨⟨reader, scratch, hreader, hlen, hmoved⟩, hfails⟩ := hact
  have hclosed : Conduct.perusal.Moves s { (act t).2 with work := (act t).2.work.leave } := by
    rw [h.buffer] at hreader hmoved
    refine ⟨reader, scratch, hreader, hlen.trans h.scratch, ?_⟩
    have hleave : Workspace.leave { t.work with scratch } = { s.work with scratch } := by
      show { t.work.leave with scratch } = { s.work with scratch }
      rw [h.work]
    simp only [hmoved, hleave, h.memo]
  unfold inside
  generalize act t = out at hclosed hfails ⊢
  rcases out with ⟨f | a, u⟩
  · refine ⟨hclosed, fun g hg => ?_⟩
    cases hg
    rw [Workspace.fatal_annotate]
    exact hfails f rfl
  · exact ⟨hclosed, fun _ hg => by cases hg⟩

/-- The plan breaks off with no fatal failure, as long as it is shown none. -/
def Plan.Calm {R : Type} {A : R → Type} {α : Type} (p : Plan A α) : Prop :=
  p.FailsIn fun f => f.fatal = false

/-- What the formats of a dialect read and tell ends without fatal failures of their own making. -/
structure Dialect.Calm (d : Dialect) : Prop where
  read : ∀ route ∈ d.routes, (route.format.read d.types).Calm
  describe : ∀ route ∈ d.routes, (route.format.describe d.types).Calm

theorem Dialect.mem_of_route? {d : Dialect} {id : TypeId} {route : Route}
    (h : d.route? id = some route) : route ∈ d.routes :=
  List.mem_of_find?_eq_some h

namespace Reader

variable {α : Type} {d : Dialect} {object : String → Action Bench Value}

theorem peruses_onBuffer {act : Action Buffer α} (h : Obeys Conduct.reading act) :
    Obeys Conduct.perusal (onBuffer act) := by
  rintro ⟨b, work, memo⟩ ⟨hb, -⟩
  obtain ⟨⟨reader, hreader, hmoved⟩, hfails⟩ := h hb
  refine ⟨⟨reader, work.scratch, hreader, rfl, ?_⟩, fun f hf => (hfails f hf).fatal⟩
  simp only [onBuffer, hmoved]

theorem peruses_read_text : Obeys Conduct.perusal (onScratch Text.read) := by
  rintro ⟨b, work, memo⟩ ⟨hb, hpos⟩
  have hdesk := Text.desk_read hpos (s := (b, work.scratch)) ⟨hb, rfl⟩
  simp only [onScratch]
  generalize Text.read (b, work.scratch) = out at hdesk ⊢
  obtain ⟨r, b', scratch⟩ := out
  obtain ⟨⟨⟨reader, hreader, hmoved⟩, hlen⟩, hfails⟩ := hdesk
  exact ⟨⟨reader, scratch, hreader, hlen, congrArg (Bench.mk · _ memo) hmoved⟩,
    fun f hf => (hfails f hf).fatal⟩

section Nested

variable (hobject : ∀ name, Obeys Conduct.perusal (object name))

include hobject

theorem peruses_answer (r : Request) : Obeys Conduct.perusal (answer d object r) := by
  cases hr : r.nested with
  | false =>
      rcases answer_of_not_nested (d := d) hr with rfl | ⟨act, hact, heq⟩
      · exact peruses_read_text
      · rw [heq]
        exact peruses_onBuffer hact
  | true =>
      cases r with
      | object name => exact hobject name
      | objectAs c name =>
          exact (hobject name).bind fun v => .lift fun f hf => (Value.plain_of_expect hf).fatal
      | nullable name =>
          refine (peruses_onBuffer Buffer.reading_readBool).bind fun present => ?_
          cases present with
          | true => exact (hobject name).bind fun v => .pure _
          | false => exact .pure _
      | _ => cases hr

variable (hd : d.Calm)

include hd

theorem peruses_describeNext : Obeys Conduct.perusal (describeNext d object) := by
  refine (peruses_onBuffer Buffer.reading_readShort).bind fun raw => ?_
  simp only
  split
  · next route hroute =>
    exact .run (peruses_answer hobject) (hd.describe route (Dialect.mem_of_route? hroute))
  · exact .pure _

theorem peruses_readBody : Obeys Conduct.perusal (readBody d object) := by
  refine (peruses_onBuffer Buffer.reading_readShort).bind fun raw => ?_
  simp only
  split
  · next route hroute =>
    exact .run (peruses_answer hobject) (hd.read route (Dialect.mem_of_route? hroute))
  · exact .fail rfl

theorem peekName_of_perusal {s : Bench} (hs : Conduct.perusal.Fit s) :
    ∃ scratch, scratch.length = s.work.scratch.length ∧ peekName d object s =
      (.ok (describeNext d object s).1.toOption.join,
        ⟨s.buffer, { s.work with scratch }, s.memo⟩) := by
  obtain ⟨⟨reader, scratch, -, hlen, hmoved⟩, hfails⟩ := peruses_describeNext hobject hd hs
  exact ⟨scratch, hlen,
    peekName_of_describeNext hs.1.reader_le_writer (Prod.ext rfl hmoved) hfails⟩

theorem comesBack_of_perusal {s : Bench} (hs : Conduct.perusal.Fit s) : ComesBack d object s :=
  ⟨_, peekName_of_perusal hobject hd hs⟩

end Nested

variable (hd : d.Calm)

include hd

theorem peruses_readObject (levels : Nat) (name : String) :
    Obeys Conduct.perusal (readObject d levels name) := by
  induction levels generalizing name with
  | zero =>
      intro s hs
      refine ⟨Conduct.perusal.refl hs, fun f hf => ?_⟩
      cases hf
      rfl
  | succ levels ih =>
      intro s hs
      rcases Nat.eq_zero_or_pos s.work.levels with hfull | hroom
      -- no level is left, so nothing is opened
      · have henter : enter s = (.error (Fault.nestingLimit s.work.maxDepth), s) :=
          enter_of_full hfull
        rw [readObject, Action.bind_of_error henter]
        refine ⟨Conduct.perusal.refl hs, fun f hf => ?_⟩
        cases hf
        rfl
      · have hlevels : 0 + 1 ≤ s.work.levels := hroom
        have hentered : Conduct.perusal.Fit s.entered := hs
        obtain ⟨t, ht, hread⟩ := readObject_of_comesBack name hlevels
          fun _ => comesBack_of_perusal ih hd hentered
        have hfit : Conduct.perusal.Fit t := by
          refine ⟨?_, ?_⟩
          · rw [ht.buffer]
            exact hs.1
          · rw [ht.scratch]
            exact hs.2
        rw [hread]
        exact ht.peruses (peruses_readBody ih hd hfit)

/-- A look ahead changes nothing but what is in the scratch area, whatever it comes upon. -/
theorem comesBack_readObject {s : Bench} (hs : Conduct.perusal.Fit s) (levels : Nat) :
    ComesBack d (readObject d levels) s :=
  comesBack_of_perusal (peruses_readObject hd levels) hd hs

end Reader

end Wireform

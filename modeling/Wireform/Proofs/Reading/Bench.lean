import Wireform.Proofs.Reading.Text

/-!
A bench as a source of bytes, and what it costs to open an object on it.

Reading leaves everything on a bench as it was but three things: the reader of
the buffer, the contents of the scratch area, and, between the opening and the
closing of an object, the notes about open objects. The last are put back in
the end, so that from outside they are not seen. A bench has levels left, as
many as objects may still be opened inside each other; opening one uses up one
of them, and there is nothing else that the body of an object could tell from
its own depth.

When frames are kept a reader looks ahead before it opens an object. It may
read anything for that, as long as it breaks off with no fatal failure, because
it goes back to where it was.
-/

namespace Wireform

namespace Bench

/-- The second bench is the first after `n` bytes have been consumed. -/
structure Moved (s : Bench) (n : Nat) (t : Bench) : Prop where
  le : n ≤ s.buffer.ahead.length
  buffer : t.buffer = s.buffer.advance n
  memo : t.memo = s.memo
  work : ∃ scratch, scratch.length = s.work.scratch.length ∧ t.work = { s.work with scratch }

theorem Moved.eq {s t : Bench} {n : Nat} (h : Moved s n t) :
    ∃ scratch, scratch.length = s.work.scratch.length ∧
      t = ⟨s.buffer.advance n, { s.work with scratch }, s.memo⟩ := by
  obtain ⟨_, _, _⟩ := t
  obtain ⟨-, rfl, rfl, scratch, hlen, rfl⟩ := h
  exact ⟨scratch, hlen, rfl⟩

/-- The bench can be worked at, with at least the given number of levels. -/
structure Ready (levels : Nat) (s : Bench) : Prop where
  live : s.buffer.Live
  scratch : 0 < s.work.scratch.length
  levels : levels ≤ s.work.levels

end Bench

/-- A bench with levels left, as a source of bytes. -/
def Source.bench (levels : Nat) : Source Bench where
  Ready := Bench.Ready levels
  input s := s.buffer.ahead
  Moved := Bench.Moved
  ready_of_moved := by
    rintro s n ⟨_, _, _⟩ hs ⟨hn, rfl, rfl, scratch, hlen, rfl⟩
    exact ⟨hs.live.advance hn, by rw [hlen]; exact hs.scratch, hs.levels⟩
  moved_zero := fun _ => ⟨Nat.zero_le _, rfl, rfl, _, rfl, rfl⟩
  moved_add := by
    rintro s m ⟨_, _, _⟩ n ⟨_, _, _⟩ ⟨hm, rfl, rfl, _, hlen, rfl⟩ ⟨hn, rfl, rfl, _, hlen', rfl⟩
    obtain ⟨hle, hadd⟩ := Source.buffer.moved_add ⟨hm, rfl⟩ ⟨hn, rfl⟩
    exact ⟨hle, hadd, rfl, _, hlen'.trans hlen, rfl⟩
  input_of_moved := by
    rintro s n ⟨_, _, _⟩ ⟨-, rfl, -, -⟩
    exact Buffer.ahead_advance s.buffer n

namespace Bench

variable {α : Type} {levels : Nat}

theorem moved_of_desk {s : Bench} {size n : Nat} {b : Buffer} {scratch : List UInt8}
    (h : (Source.desk size).Moved (s.buffer, s.work.scratch) n (b, scratch)) :
    Moved s n ⟨b, { s.work with scratch }, s.memo⟩ :=
  ⟨h.1.1, h.1.2, rfl, scratch, h.2, rfl⟩

theorem onScratch_apply {act : Action (Buffer × List UInt8) α} {s : Bench} {b : Buffer}
    {r : Except Failure α} {scratch : List UInt8}
    (h : act (s.buffer, s.work.scratch) = (r, b, scratch)) :
    onScratch act s = (r, ⟨b, { s.work with scratch }, s.memo⟩) := by
  simp only [onScratch, h]

theorem parses_onScratch {act : Action (Buffer × List UInt8) α} {W : α → List UInt8 → Prop}
    (h : ∀ size, 0 < size → Parses (Source.desk size) act W) :
    Parses (Source.bench levels) (onScratch act) W where
  reads := by
    intro s hs
    obtain ⟨e, rest, ⟨b, scratch⟩, hin, hmoved, ⟨a, ha, hw⟩ | ⟨f, hf, hfatal⟩⟩ :=
      (h _ hs.scratch).reads (s := (s.buffer, s.work.scratch)) ⟨hs.live, rfl⟩
    · exact ⟨e, rest, _, hin, moved_of_desk hmoved, .inl ⟨a, onScratch_apply ha, hw⟩⟩
    · exact ⟨e, rest, _, hin, moved_of_desk hmoved, .inr ⟨f, onScratch_apply hf, hfatal⟩⟩
  spells := by
    intro a e ha
    constructor
    · intro s rest hs hin
      obtain ⟨⟨b, scratch⟩, hact, hmoved⟩ :=
        ((h _ hs.scratch).spells a e ha).yields (s := (s.buffer, s.work.scratch))
          ⟨hs.live, rfl⟩ hin
      exact ⟨_, onScratch_apply hact, moved_of_desk hmoved⟩
    · intro front missing he hm s hs hin
      obtain ⟨f, ⟨b, scratch⟩, hact, hf⟩ :=
        ((h _ hs.scratch).spells a e ha).starves he hm (s := (s.buffer, s.work.scratch))
          ⟨hs.live, rfl⟩ hin
      exact ⟨f, _, onScratch_apply hact, hf⟩

theorem yields_onBuffer {act : Action Buffer α} {e : List UInt8} {a : α}
    (h : Yields Source.buffer act e a) : Yields (Source.bench levels) (onBuffer act) e a := by
  intro s rest hs hin
  obtain ⟨b, hact, hle, hmoved⟩ := h hs.live hin
  exact ⟨⟨b, s.work, s.memo⟩, by simp only [onBuffer, hact], hle, hmoved, rfl, _, rfl, rfl⟩

theorem parses_onBuffer {act : Action Buffer α} {W : α → List UInt8 → Prop}
    (h : Parses Source.buffer act W) : Parses (Source.bench levels) (onBuffer act) W := by
  show Parses _ (onScratch (Text.onBuffer act)) W
  exact parses_onScratch fun _ _ => Text.parses_onBuffer h

end Bench

end Wireform

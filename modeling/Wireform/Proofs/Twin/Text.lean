import Wireform.Proofs.Twin.Judgment
import Wireform.Text.Wire

/-!
The scratch area through which text is read has nothing to say. Whatever it
holds is written over before it is looked at, so of two reads from the same
buffer neither can be told from the other, as long as the areas are of the same
size. The size stays as it is, whatever comes of the read.
-/

namespace Wireform

theorem Buffer.length_of_take {operation : String} {n : Nat} {b b' : Buffer} {data : List UInt8}
    (h : take operation n b = (.ok data, b')) : data.length = n := by
  unfold take at h
  split at h
  · cases h
  · split at h
    · cases h
    · unfold slice at h
      split at h
      · next bytes _ data' b'' hslice =>
        split at hslice
        · next hrange =>
          cases h
          cases hslice
          rw [Array.length_toList, Array.size_extract]
          omega
        · cases hslice
      · cases h

namespace Text

def coupling (size : Nat) : Coupling (Buffer × List UInt8) where
  Tied p q := q.1 = p.1 ∧ p.2.length = size ∧ q.2.length = size
  Alike f g := g = f
  fatal := Failure.fatal_of_eq

variable {α : Type} {size : Nat}

theorem couples_onBuffer (act : Action Buffer α) :
    Couples (coupling size) (onBuffer act) (onBuffer act) := by
  rintro ⟨b, x⟩ ⟨_, y⟩ ⟨rfl, hx, hy⟩
  exact ⟨.of_eq rfl, rfl, hx, hy⟩

/-- What is copied out of the scratch area has just been laid into it. -/
theorem couples_staged {n : Nat} (hn : n ≤ size) :
    Couples (coupling size) (onBuffer (Buffer.readBytes n) >>= stage)
      (onBuffer (Buffer.readBytes n) >>= stage) := by
  rintro ⟨_, x⟩ ⟨b, y⟩ ⟨rfl, hx, hy⟩
  simp only at hx hy
  simp only [Action.bind_apply, onBuffer]
  rcases hread : Buffer.readBytes n b with ⟨f | piece, b'⟩
  · exact ⟨.error rfl, rfl, hx, hy⟩
  · have hpiece : piece.length = n := Buffer.length_of_take hread
    refine ⟨.of_eq ?_, rfl, ?_, ?_⟩
    · simp only [stage, List.take_left]
    · simp only [stage, List.length_append, List.length_drop]
      omega
    · simp only [stage, List.length_append, List.length_drop]
      omega

theorem couples_readPiece (n : Nat) :
    Couples (coupling size) (readPiece n) (readPiece n) := by
  refine Couples.get_bind ?_
  rintro ⟨_, x⟩ ⟨_, y⟩ ⟨-, hx, hy⟩
  simp only [hx, hy]
  split
  · exact .fail rfl
  · next hroom => exact couples_staged (Nat.not_lt.mp hroom)

theorem couples_readPieces (step n : Nat) :
    Couples (coupling size) (readPieces step n) (readPieces step n) := by
  induction n using Nat.strongRecOn with
  | ind n ih =>
      rw [readPieces]
      split
      · exact .pure _
      · next hn =>
        exact (couples_readPiece _).bind fun piece => (ih _ (by omega)).bind fun rest => .pure _

theorem couples_readChunks (step length offset : Nat) :
    Couples (coupling size) (readChunks step length offset) (readChunks step length offset) := by
  induction hk : length - offset using Nat.strongRecOn generalizing offset with
  | ind k ih =>
      rw [readChunks]
      split
      · refine (couples_onBuffer _).bind fun v => ?_
        simp only
        split
        · exact .fail rfl
        · exact (couples_readPieces _ _).bind fun data =>
            (ih _ (by omega) _ rfl).bind fun rest => .pure _
      · exact .pure _

theorem couples_read (size : Nat) : Couples (coupling size) read read := by
  unfold read
  simp only [Action.fail_bind]
  refine (couples_onBuffer _).bind fun v => (couples_onBuffer _).bind fun w => ?_
  split
  · exact .fail rfl
  · split
    · exact .fail rfl
    · refine Couples.get_bind ?_
      rintro ⟨b, x⟩ ⟨_, y⟩ ⟨rfl, hx, hy⟩
      simp only [hx, hy]
      split
      · exact .fail rfl
      · refine (couples_onBuffer _).bind fun _ => (couples_readChunks _ _ _).bind fun data => ?_
        split
        · exact .pure _
        · exact .fail rfl

end Text

end Wireform

import Wireform.Proofs.Reading.Frame
import Wireform.Proofs.Frame.Size
import Wireform.Proofs.Dialect.Build
import Wireform.Proofs.Endpoint.Lending
import Wireform.Sample.Types

/-!
What reading an object comes to, for any bytes at all. Both results hold of
every standard dialect and are read off from the one fact that its reader
parses the grammar of frames.

Input from anywhere is harmless. The reader of objects ends with a value or a
failure, and with none that stands for a break-off: no slice leaves its
storage, and no memory is asked for beyond the bytes that are there. It moves
the reader of the buffer and nothing else. What it gives is no larger than what
it consumed, whatever lengths and counts the input declares.

Frames are self-delimiting. Whether bytes are accepted, as what, and where they
end, is decided by these bytes alone, and not by those behind them.
-/

namespace Wireform

namespace Sample

/-- A dialect with the sample application's only enumeration. -/
def signs : Dialect.Blueprint where
  registry := registry [(.enumeration, "Level")]
  roster := ⟨["demo::Level"]⟩

theorem standard_signs {d : Dialect} (hd : Dialect.build signs = .ok d) : d.Standard := by
  refine Dialect.standard_of_build hd rfl fun entry hentry _ => ?_
  cases List.mem_singleton.mp hentry
  refine .inr ⟨_, rfl, ⟨_, rfl⟩, fun name v hv => ?_⟩
  simp only [constants] at hv
  split at hv
  · cases hv
    rfl
  · cases hv

/-- A bench on which the given bytes are to be read, with the settings that are used if nothing else
is said. -/
def desk (d : Dialect) (bytes : List UInt8) : Bench :=
  ⟨Buffer.ofBytes bytes, Workspace.fresh (List.replicate 1024 0) false 128, d.memo⟩

theorem fits_desk (d : Dialect) (bytes : List UInt8) : (desk d bytes).work.Fits {} :=
  ⟨List.length_replicate, rfl⟩

end Sample

namespace Reader

variable {d : Dialect}

theorem object_harmless (hd : d.Standard) {s : Settings} (hs : s.validate = .ok ()) {b : Buffer}
    (hb : b.Live) {w : Workspace} (hw : w.Fits s) (memo : Memo) (name : String) :
    ∃ r k scratch, object d name ⟨b, w, memo⟩ = (r, ⟨b.advance k, { w with scratch }, memo⟩) ∧
      k ≤ b.readableBytes ∧ (∀ f, r = .error f → f.fatal = false) ∧
      ∀ v, r = .ok v → v.height ≤ s.maxDepth ∧ 2 * v.nodes + v.payload ≤ k := by
  have hready : Bench.Ready w.levels ⟨b, w, memo⟩ :=
    ⟨hb, hw.scratch_pos hs, Nat.le_refl _⟩
  obtain ⟨e, rest, t, -, hmoved, hout⟩ := (parses_readObject hd w.levels name).reads hready
  obtain ⟨scratch, -, rfl⟩ := hmoved.eq
  have hle : e.length ≤ b.readableBytes := hb.length_ahead ▸ hmoved.le
  rcases hout with ⟨v, hv, hframe⟩ | ⟨f, hf, hfatal⟩
  · refine ⟨.ok v, e.length, scratch, hv, hle, fun _ h => (by cases h), ?_⟩
    rintro _ ⟨rfl⟩
    obtain ⟨hheight, hweight⟩ := hframe.pays hd
    have hmax := hw.maxDepth ▸ w.levels_le
    exact ⟨Nat.le_trans hheight hmax, hweight⟩
  · refine ⟨.error f, e.length, scratch, hf, hle, ?_, fun _ h => (by cases h)⟩
    rintro _ ⟨rfl⟩
    exact hfatal

/-- A block that declares the greatest length and holds one byte. -/
theorem object_harmless_forged : ∃ d, Dialect.build Sample.signs = .ok d ∧ d.Standard ∧
    ∃ r k scratch, object d "value" (Sample.desk d [255, 247, 127, 255, 255, 255, 1]) =
      (r, ⟨(Sample.desk d [255, 247, 127, 255, 255, 255, 1]).buffer.advance k,
        { (Sample.desk d []).work with scratch }, d.memo⟩) ∧
      k ≤ 7 ∧ (∀ f, r = .error f → f.fatal = false) ∧
      ∀ v, r = .ok v → v.height ≤ 128 ∧ 2 * v.nodes + v.payload ≤ k :=
  ⟨_, rfl, Sample.standard_signs rfl, object_harmless (s := {}) (Sample.standard_signs rfl) rfl
    (Buffer.live_ofBytes _) (Sample.fits_desk _ []) _ _⟩

theorem object_self_delimiting (hd : d.Standard) {s t : Bench} (hs : s.buffer.Live)
    (hw : 0 < s.work.scratch.length) {name : String} {v : Value}
    (h : object d name s = (.ok v, t)) :
    ∃ k ≤ s.buffer.readableBytes, t.buffer = s.buffer.advance k ∧
      ∀ (s' : Bench) (name' : String), s'.buffer.Live → 0 < s'.work.scratch.length →
        s.work.levels ≤ s'.work.levels →
        (∀ rest, s'.buffer.ahead = s.buffer.ahead.take k ++ rest →
          ∃ t', object d name' s' = (.ok v, t') ∧ t'.buffer = s'.buffer.advance k) ∧
        ∀ j < k, s'.buffer.ahead = s.buffer.ahead.take j →
          ∃ f t', object d name' s' = (.error f, t') ∧
            (f.code = .outOfBounds ∨ f.code = .malformedText) := by
  obtain ⟨e, rest, u, hin, hmoved, hout⟩ :=
    (parses_readObject hd s.work.levels name).reads ⟨hs, hw, Nat.le_refl _⟩
  replace h : readObject d s.work.levels name s = (.ok v, t) := h
  rw [h] at hout
  rcases hout with ⟨_, ⟨rfl, rfl⟩, hframe⟩ | ⟨f, hf, -⟩
  · refine ⟨e.length, hs.length_ahead ▸ hmoved.le, hmoved.buffer,
      fun s' name' hs' hw' hlevels => ?_⟩
    have hspells := (parses_readObject hd s'.work.levels name').spells v e (hframe.mono hlevels)
    have htake : s.buffer.ahead.take e.length = e := by
      rw [show s.buffer.ahead = e ++ rest from hin, List.take_left]
    constructor
    · intro rest' hin'
      rw [htake] at hin'
      obtain ⟨t', ht', hmoved'⟩ := hspells.yields ⟨hs', hw', Nat.le_refl _⟩ hin'
      exact ⟨t', ht', hmoved'.buffer⟩
    · intro j hj hin'
      have hfront : e = e.take j ++ e.drop j := (List.take_append_drop j e).symm
      have hmissing : e.drop j ≠ [] := by
        rw [ne_eq, List.drop_eq_nil_iff]
        omega
      rw [show s.buffer.ahead = e ++ rest from hin,
        List.take_append_of_le_length (Nat.le_of_lt hj)] at hin'
      exact hspells.starves hfront hmissing ⟨hs', hw', Nat.le_refl _⟩ hin'
  · cases hf

/-- A number with a byte behind it that is none of its own. -/
theorem object_self_delimiting_int : ∃ d t, Dialect.build Sample.signs = .ok d ∧ d.Standard ∧
    object d "value" (Sample.desk d [255, 252, 0, 0, 0, 5, 9]) = (.ok (.int 5), t) ∧
    ∃ k ≤ 7, t.buffer = (Sample.desk d [255, 252, 0, 0, 0, 5, 9]).buffer.advance k ∧
      ∀ (s' : Bench) (name' : String), s'.buffer.Live → 0 < s'.work.scratch.length →
        128 ≤ s'.work.levels →
        (∀ rest, s'.buffer.ahead = [255, 252, 0, 0, 0, 5, 9].take k ++ rest →
          ∃ t', object d name' s' = (.ok (.int 5), t') ∧ t'.buffer = s'.buffer.advance k) ∧
        ∀ j < k, s'.buffer.ahead = [255, 252, 0, 0, 0, 5, 9].take j →
          ∃ f t', object d name' s' = (.error f, t') ∧
            (f.code = .outOfBounds ∨ f.code = .malformedText) := by
  obtain ⟨d, hd⟩ : ∃ d, Dialect.build Sample.signs = .ok d := ⟨_, rfl⟩
  have hstandard := Sample.standard_signs hd
  have hlive : (Sample.desk d [255, 252, 0, 0, 0, 5, 9]).buffer.Live := Buffer.live_ofBytes _
  have hscratch : 0 < (Sample.desk d [255, 252, 0, 0, 0, 5, 9]).work.scratch.length := by
    rw [(Sample.fits_desk d _).scratch]
    decide
  have hframe : Frame d.types 128 (.int 5) [255, 252, 0, 0, 0, 5] :=
    ⟨.int, [0, 0, 0, 5], rfl, .leaf (.int 5)⟩
  have hspells := (parses_readObject hstandard 128 "value").spells _ _ hframe
  obtain ⟨t, ht, -⟩ := hspells.yields ⟨hlive, hscratch, Nat.le_refl _⟩ (Buffer.ahead_ofBytes _)
  exact ⟨d, t, hd, hstandard, ht, object_self_delimiting hstandard hlive hscratch ht⟩

end Reader

end Wireform

import Wireform.Proofs.Buffer.Fields

/-!
What appending leaves alone.

Bytes are laid over a storage from the writer on, and if it is too small it is
made larger first, with zeros at its end. So a byte in front of the old writer
or behind the new one is afterwards what it was before, whatever came of the
write. This is the judgment `Overlaid`. It adds up over writes in a row because
the writer only goes forward, so setting a cursor back is not among the things
that it is about.

Two conducts are made of it. What only extends a buffer may also read from it,
as all accesses do that neither set the writer nor count the locks. What appends
leaves the reader alone as well, as all fields do that are written.
-/

namespace Wireform

namespace Buffer

variable {b b' b'' : Buffer} {bytes : Array UInt8} {i : Nat}

/-! ### Storages -/

theorem getElem?_overwrite {start : Nat} {data : List UInt8}
    (h : i < start ∨ start + data.length ≤ i) : (overwrite bytes start data)[i]? = bytes[i]? := by
  induction data generalizing bytes start with
  | nil => rfl
  | cons byte data ih =>
      rw [List.length_cons] at h
      rw [overwrite, ih (by omega), Array.getElem?_setIfInBounds_ne (by omega)]

theorem getElem?_grown_of_lt {required limit : Nat} (h : i < bytes.size) :
    (grown bytes required limit)[i]? = bytes[i]? := by
  unfold grown
  split
  · rfl
  · exact Array.getElem?_append_left h

theorem getElem?_grown_of_le {required limit : Nat} (h : bytes.size ≤ i)
    (hi : i < (grown bytes required limit).size) : (grown bytes required limit)[i]? = some 0 := by
  by_cases hfits : required ≤ bytes.size
  · rw [grown, if_pos hfits] at hi
    omega
  · rw [grown, if_neg hfits] at hi ⊢
    rw [Array.size_append, Array.size_replicate] at hi
    rw [Array.getElem?_append_right h, Array.getElem?_replicate, if_pos (by omega)]

/-! ### The judgment -/

/-- `b'` is `b` after bytes have been laid down from its writer on. Only what lies between the two
writers may be different, and a storage that is larger has zeros where it has grown. -/
structure Overlaid (b b' : Buffer) : Prop where
  present : b'.region.storage.isSome = b.region.storage.isSome
  capacity : b.capacity ≤ b'.capacity
  same : ∀ i < b.capacity, i < b.writer ∨ b'.writer ≤ i → b'.content[i]? = b.content[i]?
  zero : ∀ i < b'.capacity, b.capacity ≤ i → b'.writer ≤ i → b'.content[i]? = some 0

/-- Nothing has been done to the buffer but to lay down bytes and to move the reader. -/
structure Extends (b b' : Buffer) : Prop extends b.Follows b', b.Overlaid b' where
  writer : b.writer ≤ b'.writer

theorem Overlaid.of_storage (h : b'.region.storage = b.region.storage) : b.Overlaid b' := by
  have hcapacity : b'.capacity = b.capacity := by
    simp only [Buffer.capacity, Region.capacity, h]
  have hcontent : b'.content = b.content := by simp only [content, h]
  exact ⟨by rw [h], Nat.le_of_eq hcapacity.symm, fun i _ _ => by rw [hcontent],
    fun i hi hle _ => by omega⟩

theorem Overlaid.trans (h : b.Overlaid b') (h' : b'.Overlaid b'') (hw : b.writer ≤ b'.writer)
    (hw' : b'.writer ≤ b''.writer) : b.Overlaid b'' where
  present := h'.present.trans h.present
  capacity := Nat.le_trans h.capacity h'.capacity
  same := by
    intro i hi houtside
    have hi' : i < b'.capacity := Nat.lt_of_lt_of_le hi h.capacity
    rw [h'.same i hi' (by omega), h.same i hi (by omega)]
  zero := by
    intro i hi hle hbehind
    -- a zero of the first growth is kept by the second write
    rcases Nat.lt_or_ge i b'.capacity with hi' | hle'
    · rw [h'.same i hi' (.inr hbehind)]
      exact h.zero i hi' hle (Nat.le_trans hw' hbehind)
    · exact h'.zero i hi hle' hbehind

theorem Extends.refl (h : b.Valid) : b.Extends b :=
  ⟨.refl h, .of_storage rfl, Nat.le_refl _⟩

theorem Extends.trans (h : b.Extends b') (h' : b'.Extends b'') : b.Extends b'' :=
  ⟨h.toFollows.trans h'.toFollows, h.toOverlaid.trans h'.toOverlaid h.writer h'.writer,
    Nat.le_trans h.writer h'.writer⟩

theorem Extends.take_content (h : b.Extends b') (hb : b.Live) :
    b'.content.take b.writer = b.written := by
  have hw := hb.writer_le_capacity
  ext1 i
  rcases Nat.lt_or_ge i b.writer with hi | hi
  · rw [written, List.getElem?_take_of_lt hi, List.getElem?_take_of_lt hi,
      h.same i (by omega) (.inl hi)]
  · rw [written, List.getElem?_take_eq_none hi, List.getElem?_take_eq_none hi]

theorem Extends.live (h : b.Extends b') (hb : b.Live) : b'.Live :=
  h.valid.live_of_isSome (h.present.trans hb.present)

end Buffer

namespace Conduct

open Buffer

def extending : Conduct Buffer where
  Fit := Valid
  Moves := Extends
  Fails := Failure.Plain
  refl := Extends.refl
  trans := Extends.trans
  fit := fun _ h => h.valid

/-- Extending a buffer behind the back of its reader. -/
def appending : Conduct Buffer where
  Fit := Valid
  Moves b b' := b.Extends b' ∧ b'.reader = b.reader
  Fails := Failure.Plain
  refl := fun h => ⟨.refl h, rfl⟩
  trans := fun h h' => ⟨h.1.trans h'.1, h'.2.trans h.2⟩
  fit := fun _ h => h.1.valid

end Conduct

/-- Who only reads a buffer lays nothing down. -/
theorem Obeys.extending {α : Type} {act : Action Buffer α} (h : Obeys Conduct.reading act) :
    Obeys Conduct.extending act := by
  refine h.mono (fun _ hb => hb) ?_ (fun _ hf => hf)
  rintro b _ hb ⟨r, hr, rfl⟩
  exact ⟨.of_storage (hb.moveReader hr) rfl rfl, .of_storage rfl, Nat.le_refl _⟩

namespace Buffer

variable {b : Buffer}

theorem overlaid_put (operation : String) (data : List UInt8) (b : Buffer) :
    b.Overlaid (put operation data b).2 := by
  obtain ⟨⟨_ | bytes, locks⟩, reader, writer, limit⟩ := b
  · exact .of_storage rfl
  · rw [put]
    split
    · exact .of_storage rfl
    · have hsize := size_le_grown bytes (writer + data.length) limit
      refine ⟨rfl, ?_, fun i hi houtside => ?_, fun i hi hle hbehind => ?_⟩
      · simpa [Buffer.capacity, Region.capacity] using hsize
      · replace hi : i < bytes.size := hi
        show (overwrite _ writer data).toList[i]? = bytes.toList[i]?
        rw [Array.getElem?_toList, Array.getElem?_toList, getElem?_overwrite houtside,
          getElem?_grown_of_lt hi]
      · replace hi : i < (overwrite (grown bytes (writer + data.length) limit) writer data).size :=
          hi
        rw [size_overwrite] at hi
        show (overwrite _ writer data).toList[i]? = some 0
        rw [Array.getElem?_toList, getElem?_overwrite (.inr hbehind), getElem?_grown_of_le hle hi]

theorem appending_put (operation : String) (data : List UInt8) :
    Obeys Conduct.appending (put operation data) := by
  intro b hb
  obtain ⟨hfollows, hfails⟩ := handling_put operation data hb
  have hoverlaid := overlaid_put operation data b
  have hcursors : b.writer ≤ (put operation data b).2.writer ∧
      (put operation data b).2.reader = b.reader := by
    obtain ⟨⟨_ | bytes, locks⟩, reader, writer, limit⟩ := b
    · exact ⟨Nat.le_refl _, rfl⟩
    · rw [put]
      split
      · exact ⟨Nat.le_refl _, rfl⟩
      · exact ⟨Nat.le_add_right _ _, rfl⟩
  exact ⟨⟨⟨hfollows, hoverlaid, hcursors.1⟩, hcursors.2⟩, hfails⟩

theorem extending_put (operation : String) (data : List UInt8) :
    Obeys Conduct.extending (put operation data) :=
  (appending_put operation data).mono (fun _ hb => hb) (fun _ _ _ h => h.1) (fun _ hf => hf)

/-! ### What leaves the storage as it is -/

theorem region_setWriter (index : Nat) (b : Buffer) : (setWriter index b).2.region = b.region := by
  obtain ⟨⟨_ | bytes, locks⟩, reader, writer, limit⟩ := b
  · rfl
  · have hset : setWriter index ⟨⟨some bytes, locks⟩, reader, writer, limit⟩ = _ :=
      Action.bind_of_ok rfl
    rw [hset]
    split <;> rfl

theorem storage_lock (b : Buffer) : (lock b).2.region.storage = b.region.storage := by
  unfold lock
  split <;> rfl

theorem storage_release
    (hkept : (release b).2.region.storage.isSome = b.region.storage.isSome) :
    (release b).2.region.storage = b.region.storage := by
  by_cases hgone : b.region.locks < 0
  · rw [release, if_pos hgone]
  · rw [release, if_neg hgone] at hkept ⊢
    simp only at hkept ⊢
    split
    · next hlast =>
      rw [if_pos hlast, Option.isSome_none, eq_comm, Option.isSome_eq_false_iff,
        Option.isNone_iff_eq_none] at hkept
      exact hkept.symm
    · rfl

end Buffer

open Buffer in
/-- Whatever is done to a buffer, if its storage is not given up then bytes are laid down in it from
the writer on and nothing else happens to it. -/
theorem Access.overlaid_run {b : Buffer} (hb : b.Valid) (a : Access)
    (hkept : (a.run b).2.region.storage.isSome = b.region.storage.isSome) :
    b.Overlaid (a.run b).2 := by
  have hextends (hset : ∀ index, a ≠ .setWriter index) (hclear : a ≠ .clear) (hlock : a ≠ .lock)
      (hrelease : a ≠ .release) : b.Extends (a.run b).2 :=
    (obeys_run extending_put Obeys.extending (fun index h => absurd h (hset index))
      (fun h => absurd h hclear) (fun h => absurd h hlock) (fun h => absurd h hrelease) hb).1
  cases a with
  | setWriter index => exact .of_storage (congrArg Region.storage (region_setWriter index b))
  | clear => exact .of_storage rfl
  | lock => exact .of_storage (storage_lock b)
  | release => exact .of_storage (storage_release hkept)
  | _ => exact (hextends nofun nofun nofun nofun).toOverlaid

end Wireform

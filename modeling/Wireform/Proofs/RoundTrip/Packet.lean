import Wireform.Proofs.Packet.Entries
import Wireform.Proofs.RoundTrip.Builtin

/-!
The library's own packet is mirrored if its keys and values are. Reading puts
each entry in its place among those read before, so entries in any order come
out in the order of their keys. If they are in this order from the start, the
packet comes out as it went in.
-/

namespace Wireform

variable {d : Dialect} {levels : Nat}

theorem exists_mirrors_entries {entries : List (String × Value)}
    (hkeys : ∀ entry ∈ entries, (Text.bytes entry.1).length ≤ Text.maxLength)
    (hvalues : ∀ entry ∈ entries, Travels d levels entry.2) :
    ∃ e, ∀ before : Entries, Mirrors d levels (Packet.writeEntries entries)
      (Packet.readEntries entries.length before) (before.insertAll entries) e := by
  induction entries with
  | nil => exact ⟨[], Mirrors.pure⟩
  | cons entry entries ih =>
      obtain ⟨key, v⟩ := entry
      obtain ⟨hkey, hkeys⟩ := List.forall_mem_cons.mp hkeys
      obtain ⟨⟨e₁, hv⟩, hvalues⟩ := List.forall_mem_cons.mp hvalues
      obtain ⟨e₂, hrest⟩ := ih hkeys hvalues
      refine ⟨Text.wire key ++ (e₁ ++ e₂), fun before => ?_⟩
      exact (Mirrors.text hkey).bind ((Mirrors.object hv key key).bind (hrest _))

/-- The body of a packet whose entries are in any order. -/
theorem exists_mirrors_packetBody {name : String} {entries : Entries}
    (hcount : entries.length ≤ Packet.maxEntries)
    (hkeys : ∀ entry ∈ entries, (Text.bytes entry.1).length ≤ Text.maxLength)
    (hvalues : ∀ entry ∈ entries, Travels d levels entry.2) :
    ∃ e, Mirrors d levels (Packet.write (.packet name entries)) (Packet.read name)
      (.packet name (Entries.ofList entries)) e := by
  obtain ⟨e, hentries⟩ := exists_mirrors_entries hkeys hvalues
  have hpos : ¬ (entries.length : Int) < 0 := Int.not_lt.mpr (Int.natCast_nonneg _)
  refine ⟨BigEndian.encode 4 entries.length ++ e, ?_⟩
  simp only [Packet.write, if_neg (Nat.not_lt.mpr hcount)]
  refine (Mirrors.length hcount).bind ?_
  simp only [Length.toInt_ofNat hcount, if_neg hpos, Int.toNat_natCast]
  exact (hentries []).map (Value.packet name)

end Wireform

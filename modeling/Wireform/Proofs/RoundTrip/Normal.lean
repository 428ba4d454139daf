import Wireform.Proofs.Endpoint.Conversation
import Wireform.Proofs.Reading.Decoding
import Wireform.Proofs.RoundTrip.Object
import Wireform.Proofs.RoundTrip.Returning

/-!
Reading and writing again brings bytes into a normal form. What an endpoint
reads it can also write, wherever there is room, and what it writes then is the
same on every occasion and is read as the same value again. So there is one
form of a value that stays as it is, whatever the form was that it had first.
-/

namespace Wireform.Endpoint

variable {d : Dialect} {s : Settings} {e : Endpoint} {b : Buffer} {v : Value} {bytes : List UInt8}

theorem Sound.writeInto_of_emits (h : e.Sound d s) {field : String}
    (hv : Emits (Sink.bench d s.maxDepth) (Writer.object d field v) bytes) (hb : b.Live)
    (hroom : bytes.length ≤ b.writableBytes) :
    ∃ e' b', writeInto field v (e, b) = (.ok (), e', b') ∧ b.Appended bytes b' := by
  obtain ⟨t, ht, hgrown⟩ := hv (h.writable hb) hroom
  rw [← h.dialect] at ht
  exact ⟨_, t.buffer, perform_eq ht, hgrown.buffer⟩

theorem Sound.read_of_yields (h : e.Sound d s)
    (hv : Yields (Source.bench s.maxDepth) (Reader.object d "value") bytes v) (hb : b.Live)
    {rest : List UInt8} (hin : b.ahead = bytes ++ rest) :
    ∃ e', read (e, b) = (.ok v, e', b.advance bytes.length) := by
  obtain ⟨t, ht, hmoved⟩ := hv (h.ready hb) hin
  rw [← h.dialect] at ht
  have hbuffer : t.buffer = b.advance bytes.length := hmoved.buffer
  exact ⟨_, hbuffer ▸ perform_eq ht⟩

/-- An ordinary value that has been read is portable, with all the levels that there are. -/
theorem Sound.portable_of_read (h : e.Sound d s) (hd : d.Faithful) (hb : b.Live)
    {e' : Endpoint} {b' : Buffer} (hread : read (e, b) = (.ok v, e', b'))
    (hv : v.Ordinary d.types) : Portable d s.maxDepth v := by
  have hlevels : (e.bench b).work.levels = s.maxDepth := (Workspace.lent_acquire h.handler).levels
  rcases hobject : Reader.object e.dialect "value" (e.bench b) with ⟨r, t⟩
  cases hread.symm.trans (perform_eq hobject)
  replace hobject : Reader.readObject e.dialect (e.bench b).work.levels "value" (e.bench b) =
    (.ok v, t) := hobject
  rw [h.dialect, hlevels] at hobject
  obtain ⟨-, hreturns⟩ := Reader.gives_readObject hd s.maxDepth "value" (h.ready hb) hobject
    fun _ h => by cases h
  exact hreturns v rfl hv

/-- What has been read is written as the same bytes on every occasion, and read back from them. -/
theorem read_normalises {p : Dialect.Blueprint} (hd : Dialect.build p = .ok d) (hp : p.Faithful d)
    (he : e.Reached d s) (hb : b.Live) {e' : Endpoint} {b' : Buffer}
    (hread : read (e, b) = (.ok v, e', b')) (hv : v.Ordinary d.types) :
    ∃ bytes, ∀ e₁, e₁.Reached d s →
      (∀ field b₁, b₁.Live → bytes.length ≤ b₁.writableBytes →
        ∃ e₂ b₂, writeInto field v (e₁, b₁) = (.ok (), e₂, b₂) ∧ e₂.Reached d s ∧
          b₁.Appended bytes b₂) ∧
      ∀ b₁ rest, b₁.Live → b₁.ahead = bytes ++ rest →
        ∃ e₂, read (e₁, b₁) = (.ok v, e₂, b₁.advance bytes.length) ∧ e₂.Reached d s := by
  have hportable := he.sound.portable_of_read (.of_build hd hp) hb hread hv
  obtain ⟨bytes, hcarries⟩ := hportable.travels (.of_build hd)
  refine ⟨bytes, fun e₁ he₁ => ⟨fun field b₁ hb₁ hroom => ?_, fun b₁ rest hb₁ hin => ?_⟩⟩
  · obtain ⟨e₂, b₂, hwrite, hb₂⟩ :=
      he₁.sound.writeInto_of_emits (hcarries.emits_object field) hb₁ hroom
    have hreached := he₁.writeInto field v b₁
    rw [hwrite] at hreached
    exact ⟨e₂, b₂, hwrite, hreached, hb₂⟩
  · obtain ⟨e₂, hread₂⟩ := he₁.sound.read_of_yields (hcarries.yields_object "value") hb₁ hin
    have hreached := he₁.readFrom b₁
    rw [hread₂] at hreached
    exact ⟨e₂, hread₂, hreached⟩

end Wireform.Endpoint

/-! A packet whose keys come in the wrong order, one of them twice, in a dialect with two formats of
its own. One of these gives values of the application, and the other one numbers. -/

namespace Wireform

namespace Sample

def mixture : Dialect.Blueprint where
  registry := registry declarations
  roster := ⟨["demo::Level", "demo::Volatile"]⟩
  custom := [(hotSelector .accept, celsiusFormat (some (TypeId.ofInt 1))),
    (anySelector .pass, aliasFormat .int (TypeId.ofInt 2))]

theorem inverts_constants (type : String) (names : List String) :
    (constants type names).Inverts := by
  intro name v hfits hv
  refine ⟨name, ?_, hfits, hv⟩
  simp only [constants] at hv
  split at hv
  · cases hv
    rfl
  · cases hv

theorem faithful_mixture {d : Dialect} (hd : Dialect.build mixture = .ok d) :
    mixture.Faithful d where
  types := by
    cases hd
    refine List.forall_mem_cons.mpr ⟨.inl rfl, List.forall_mem_cons.mpr ⟨.inr ?_,
      List.forall_mem_singleton.mpr (.inr ?_)⟩⟩
    · refine ⟨⟨fun h => (by cases h), fun h => (by cases h), ?_⟩, fun _ => ⟨_, rfl⟩, ?_⟩
      · rintro _ ⟨rfl⟩ name v hv
        simp only [constants] at hv
        split at hv
        · cases hv
          rfl
        · cases hv
      · rintro _ ⟨rfl⟩
        exact inverts_constants _ _
    · refine ⟨⟨?_, fun h => (by cases h), fun h => (by cases h)⟩, fun _ => ⟨_, rfl⟩,
        fun h => (by cases h)⟩
      rintro _ _ ⟨⟩
      exact Plan.Ends.bind fun tag => rfl
  formats := by
    have hforeign : d.types.ofClass? (classOf "Celsius") = none := by
      cases hd
      rfl
    refine List.forall_mem_cons.mpr ⟨fun levels => ?_, List.forall_mem_singleton.mpr fun levels => ?_⟩
    · refine Plan.Ends.endsIn (Plan.Ends.bind fun id => Plan.Ends.bind fun bits => ?_)
      rintro ⟨_, _, hentry, -⟩
      cases hforeign.symm.trans hentry
    · exact Plan.Ends.endsIn (Plan.Ends.bind fun n _ => .field (.int n))

def parts : List (String × Value) := [("b", high), ("a", .int 1), ("a", .int 2)]

/-- What comes of three entries. -/
def mixed : Value := .packet "mixed" (Entries.ofList parts)

example : mixed = .packet "mixed" [("a", .int 2), ("b", high)] := by rfl

theorem exists_mirrors_mixed {d : Dialect} (hd : Dialect.build mixture = .ok d) :
    ∃ e, Mirrors d 1 (Builtin.packet.write d.types (.packet "mixed" parts))
      (Builtin.packet.read d.types) mixed e := by
  have hbuilt := Dialect.Built.of_build hd
  have hhigh : Portable d 1 high := by
    cases hd
    exact .constant rfl rfl rfl (by decide) rfl
  have hentry : d.types.ofClass? (Value.packet "mixed" parts).classOf = some Packet.entry :=
    hbuilt.types.ofClass?_eq hbuilt.packet
  have hvalues : ∀ entry ∈ parts, Travels d 1 entry.2 := by
    simp only [parts, List.forall_mem_cons, List.not_mem_nil, false_imp_iff, implies_true, and_true]
    exact ⟨hhigh.travels hbuilt, (Plain.int 1).travels hbuilt, (Plain.int 2).travels hbuilt⟩
  obtain ⟨_, hbody⟩ := exists_mirrors_packetBody (by decide) (by decide) hvalues
  exact exists_mirrors_packet hbuilt hentry rfl rfl (by decide) hbody

end Sample

theorem Endpoint.read_normalises_mixed : ∃ d e bytes, Dialect.build Sample.mixture = .ok d ∧
    Sample.mixture.Faithful d ∧ e.Reached d {} ∧ (Buffer.ofBytes bytes).Live ∧
    (∃ e' b', read (e, Buffer.ofBytes bytes) = (.ok Sample.mixed, e', b')) ∧
    Sample.mixed.Ordinary d.types ∧
    ∃ bytes', ∀ e₁, e₁.Reached d {} →
      (∀ field b₁, b₁.Live → bytes'.length ≤ b₁.writableBytes →
        ∃ e₂ b₂, writeInto field Sample.mixed (e₁, b₁) = (.ok (), e₂, b₂) ∧ e₂.Reached d {} ∧
          b₁.Appended bytes' b₂) ∧
      ∀ b₁ rest, b₁.Live → b₁.ahead = bytes' ++ rest →
        ∃ e₂, read (e₁, b₁) = (.ok Sample.mixed, e₂, b₁.advance bytes'.length) ∧
          e₂.Reached d {} := by
  obtain ⟨d, hd⟩ : ∃ d, Dialect.build Sample.mixture = .ok d := ⟨_, rfl⟩
  obtain ⟨e, he⟩ : ∃ e, create d {} = .ok e := ⟨_, rfl⟩
  obtain ⟨bytes, hmirrors⟩ := Sample.exists_mirrors_mixed hd
  have hreached : e.Reached d {} := .create he
  have hlive := Buffer.live_ofBytes (Builtin.packet.id.word ++ bytes)
  have hordinary : Sample.mixed.Ordinary d.types := by
    cases hd
    exact ⟨trivial, ⟨_, _, rfl, rfl⟩, trivial⟩
  have hyields : Yields (Source.bench 128) (Reader.object d "value") _ Sample.mixed :=
    Reader.yields_request (r := .object "value") fun m hm =>
      hmirrors.yields_readObject (.of_build hd) "value" (Nat.lt_of_lt_of_le (by decide) hm)
  have hahead := (Buffer.ahead_ofBytes (Builtin.packet.id.word ++ bytes)).trans
    (List.append_nil _).symm
  obtain ⟨e', hread⟩ := hreached.sound.read_of_yields hyields hlive hahead
  exact ⟨d, e, _, hd, Sample.faithful_mixture hd, hreached, hlive, ⟨e', _, hread⟩, hordinary,
    read_normalises hd (Sample.faithful_mixture hd) hreached hlive hread hordinary⟩

end Wireform

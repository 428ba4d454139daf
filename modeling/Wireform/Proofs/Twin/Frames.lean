import Wireform.Proofs.Dialect.Manner
import Wireform.Proofs.Reading.Perusal
import Wireform.Proofs.Twin.Judgment

/-!
Failures carry frames if these are kept, and carry none otherwise. An
application sees the failures of what it asks for, so it could go by their
frames, or make some up. A plan that does neither is blind: shown failures
without their frames it goes the same way, and what it ends with has lost
nothing but its frames.

A plan is sober if it is blind and makes no fatal failures of its own either,
which is what a look ahead asks for. To be sober is a manner, so the library's
own formats are sober if the types are that they look up.
-/

namespace Wireform

/-- The second failure is the first without its frames. -/
def Failure.Bare (f g : Failure) : Prop := g = { f with frames := [] }

theorem Failure.bare_self {f : Failure} (h : f.frames = []) : f.Bare f := by
  rw [Failure.Bare, ← h]

theorem Failure.Bare.withFrames {f g : Failure} (h : f.Bare g) (frames : List String) :
    (f.withFrames frames).Bare g := by
  unfold Failure.withFrames
  split
  · exact h
  · exact h

namespace Plan

variable {R : Type} {A : R → Type} {α β : Type} {p : Plan A α} {f : Failure}

/-- The plan takes no notice of frames, and brings none of its own. -/
def Blind (p : Plan A α) : Prop := p.Twins Failure.Bare p

theorem blind_pure (a : α) : (pure a : Plan A α).Blind := .done a

theorem blind_refuse (h : f.frames = []) : (refuse f : Plan A α).Blind :=
  .refuse (Failure.bare_self h)

theorem blind_request (r : R) : (request r : Plan A (A r)).Blind := twins_request r

theorem blind_lift {r : Except Failure α} (h : ∀ f, r = .error f → f.frames = []) :
    (lift r : Plan A α).Blind := by
  cases r with
  | ok a => exact .done a
  | error f => exact blind_refuse (h f rfl)

theorem Blind.bind {g : α → Plan A β} (hp : p.Blind) (hg : ∀ a, (g a).Blind) :
    (p >>= g).Blind :=
  Twins.bind hp hg

/-- The plan is blind, and it makes no fatal failures of its own. -/
structure Sober (p : Plan A α) : Prop where
  blind : p.Blind
  calm : p.Calm

theorem sober_pure (a : α) : (pure a : Plan A α).Sober := ⟨blind_pure a, failsIn_pure a⟩

theorem sober_refuse (h : f.Plain) : (refuse f : Plan A α).Sober :=
  ⟨blind_refuse h.frames, failsIn_refuse h.fatal⟩

theorem sober_request (r : R) : (request r : Plan A (A r)).Sober :=
  ⟨blind_request r, failsIn_request r⟩

theorem Sober.bind {g : α → Plan A β} (hp : p.Sober) (hg : ∀ a, (g a).Sober) :
    (p >>= g).Sober :=
  ⟨hp.blind.bind fun a => (hg a).blind, hp.calm.bind fun a => (hg a).calm⟩

end Plan

open Plan

/-! ### Types and formats -/

structure Body.Sober (body : Body) : Prop where
  write : ∀ v, (body.write v).Blind
  read : body.read.Sober

structure PacketBody.Sober (body : PacketBody) : Prop where
  name : ∀ v f, body.name v = .error f → f.frames = []
  write : ∀ v, (body.write v).Blind
  read : ∀ name, (body.read name).Sober

def Constants.Sober (constants : Constants) : Prop :=
  ∀ v f, constants.name v = .error f → f.frames = []

def Kind.Sober : Kind → Prop
  | .plain => True
  | .structured _ body => body.Sober
  | .packet _ body => body.Sober
  | .enumeration constants => constants.Sober

def TypeTable.Sober (types : TypeTable) : Prop := ∀ entry ∈ types.entries, entry.kind.Sober

structure Format.Sober (format : Format) (types : TypeTable) : Prop where
  write : ∀ name v, (format.write types name v).Blind
  read : (format.read types).Sober
  describe : (format.describe types).Sober

/-- Soberness is a manner. What is written has only to be blind. -/
def Manner.sobriety : Manner where
  Writes := Plan.Blind
  Reads := Plan.Sober
  Refuses f := f.frames = []
  refuses := fun h => h.frames
  writes_pure := blind_pure
  writes_refuse := blind_refuse
  writes_request := blind_request
  writes_bind := Blind.bind
  reads_pure := sober_pure
  reads_refuse := sober_refuse
  reads_request := sober_request
  reads_bind := Sober.bind

theorem Kind.Sober.manner {kind : Kind} (h : kind.Sober) : Manner.sobriety.OfKind kind := by
  cases kind with
  | plain => trivial
  | structured cacheable body => exact ⟨h.write, h.read⟩
  | packet construction body => exact ⟨h.name, h.write, h.read⟩
  | enumeration constants => exact h

theorem Kind.sober_of_manner {kind : Kind} (h : Manner.sobriety.OfKind kind) : kind.Sober := by
  cases kind with
  | plain => trivial
  | structured cacheable body => exact ⟨h.1, h.2⟩
  | packet construction body => exact ⟨h.1, h.2.1, h.2.2⟩
  | enumeration constants => exact h

/-! ### Dialects -/

namespace Dialect

/-- What an application brings is sober, as long as the types are that its formats look up. -/
structure Blueprint.Sober (p : Blueprint) : Prop where
  types : ∀ entry ∈ p.registry.entries, entry.kind.Sober
  formats : ∀ own ∈ p.custom, ∀ types : TypeTable, types.Sober → own.2.Sober types

def Sober (d : Dialect) : Prop := ∀ route ∈ d.routes, route.format.Sober d.types

variable {p : Blueprint} {d : Dialect}

theorem Sober.calm (h : d.Sober) : d.Calm :=
  ⟨fun route hroute => (h route hroute).read.calm,
    fun route hroute => (h route hroute).describe.calm⟩

theorem sober_of_build (hd : build p = .ok d) (hp : p.Sober) : d.Sober := by
  have hmanner : Manner.sobriety.OfBlueprint p := by
    refine ⟨fun entry hentry => (hp.types entry hentry).manner, fun own hown types htypes => ?_⟩
    have hformat := hp.formats own hown types fun entry hentry =>
      Kind.sober_of_manner (htypes entry hentry)
    exact ⟨hformat.write, hformat.read, hformat.describe⟩
  intro route hroute
  have hformat := Manner.of_build hd hmanner route hroute
  exact ⟨hformat.write, hformat.read, hformat.describe⟩

end Dialect

end Wireform

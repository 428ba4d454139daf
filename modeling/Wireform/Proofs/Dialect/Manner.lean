import Wireform.Proofs.Buffer.Valid
import Wireform.Proofs.Dialect.Build

/-!
Manners of plans. A manner is a way in which plans may go about their work, such
as to make no fatal failures, to go by no frames, or to hand on the failures of
objects. What manners have in common is that single requests are made in them,
and that plans which follow each other are in a manner if each of them is.

The library's own formats are put together in just this way from requests and
from what the types bring that they look up. So a dialect is in any manner in
which the types and formats are that an application brings (`Manner.of_build`).
-/

namespace Wireform

/-- A property of scripts and one of readings, both kept when plans follow each other. -/
structure Manner where
  Writes : {α : Type} → Plan Field.Answer α → Prop
  Reads : {α : Type} → Plan Request.Answer α → Prop
  /-- The failures with which a script may end. -/
  Refuses : Failure → Prop
  refuses : ∀ {f}, f.Plain → Refuses f
  writes_pure : ∀ {α : Type} (a : α), Writes (pure a : Plan Field.Answer α)
  writes_refuse : ∀ {α : Type} {f}, Refuses f → Writes (.refuse f : Plan Field.Answer α)
  writes_request : ∀ f : Field, Writes (Plan.request f : Script)
  writes_bind : ∀ {α β : Type} {p : Plan Field.Answer α} {q : α → Plan Field.Answer β},
    Writes p → (∀ a, Writes (q a)) → Writes (p >>= q)
  reads_pure : ∀ {α : Type} (a : α), Reads (pure a : Reading α)
  reads_refuse : ∀ {α : Type} {f}, f.Plain → Reads (.refuse f : Reading α)
  reads_request : ∀ r : Request, Reads (Plan.request r : Reading r.Answer)
  reads_bind : ∀ {α β : Type} {p : Reading α} {q : α → Reading β},
    Reads p → (∀ a, Reads (q a)) → Reads (p >>= q)

namespace Manner

variable (m : Manner)

def OfKind : Kind → Prop
  | .plain => True
  | .structured _ body => (∀ v, m.Writes (body.write v)) ∧ m.Reads body.read
  | .packet _ body => (∀ v f, body.name v = .error f → m.Refuses f) ∧
      (∀ v, m.Writes (body.write v)) ∧ ∀ name, m.Reads (body.read name)
  | .enumeration constants => ∀ v f, constants.name v = .error f → m.Refuses f

def OfTypes (types : TypeTable) : Prop := ∀ entry ∈ types.entries, m.OfKind entry.kind

structure OfFormat (format : Format) (types : TypeTable) : Prop where
  write : ∀ name v, m.Writes (format.write types name v)
  read : m.Reads (format.read types)
  describe : m.Reads (format.describe types)

/-- What an application brings is in the manner, as long as the types are that its formats look
up. -/
structure OfBlueprint (p : Dialect.Blueprint) : Prop where
  types : ∀ entry ∈ p.registry.entries, m.OfKind entry.kind
  formats : ∀ own ∈ p.custom, ∀ types : TypeTable, m.OfTypes types → m.OfFormat own.2 types

variable {m}

theorem reads_map {α β : Type} {p : Reading α} (h : m.Reads p) (g : α → β) : m.Reads (g <$> p) :=
  m.reads_bind h fun a => m.reads_pure (g a)

theorem writes_lift_bind {α β : Type} {r : Except Failure α} {next : α → Plan Field.Answer β}
    (hr : ∀ f, r = .error f → m.Refuses f) (hnext : ∀ a, r = .ok a → m.Writes (next a)) :
    m.Writes (Plan.lift r >>= next) := by
  cases r with
  | ok a => exact hnext a rfl
  | error f => exact m.writes_refuse (hr f rfl)

theorem writes_refuse_plain {α : Type} {f : Failure} (h : f.Plain) :
    m.Writes (.refuse f : Plan Field.Answer α) :=
  m.writes_refuse (m.refuses h)

/-! ### The library's own packet -/

theorem writes_entries (entries : Entries) : m.Writes (Packet.writeEntries entries) := by
  induction entries with
  | nil => exact m.writes_pure ()
  | cons entry rest ih =>
      exact m.writes_bind (m.writes_request _) fun _ =>
        m.writes_bind (m.writes_request _) fun _ => ih

theorem reads_entries (count : Nat) (entries : Entries) :
    m.Reads (Packet.readEntries count entries) := by
  induction count generalizing entries with
  | zero => exact m.reads_pure entries
  | succ count ih =>
      exact m.reads_bind (m.reads_request _) fun key =>
        m.reads_bind (m.reads_request _) fun value => ih _

theorem writes_packet (v : Value) : m.Writes (Packet.write v) := by
  cases v with
  | packet name entries =>
      unfold Packet.write
      simp only
      split
      · exact writes_refuse_plain (Fault.plain rfl)
      · exact m.writes_bind (m.writes_request _) fun _ => writes_entries entries
  | _ => exact writes_refuse_plain (Fault.plain rfl)

theorem reads_packet (name : String) : m.Reads (Packet.read name) := by
  refine m.reads_bind (m.reads_request _) fun count => ?_
  simp only
  split
  · exact m.reads_refuse (Fault.plain rfl)
  · exact m.reads_bind (reads_entries _ _) fun entries => m.reads_pure _

theorem of_packet_entry : m.OfKind Packet.entry.kind := by
  refine ⟨fun v f hf => ?_, writes_packet, reads_packet⟩
  cases v with
  | packet => cases hf
  | _ => cases hf; exact m.refuses (Fault.plain rfl)

/-! ### Built-in formats -/

theorem writes_block (data : List UInt8) : m.Writes (Builtin.writeBlock data) := by
  unfold Builtin.writeBlock
  split
  · exact writes_refuse_plain (Fault.plain rfl)
  · exact m.writes_bind (m.writes_request _) fun _ => m.writes_request _

theorem reads_block : m.Reads Builtin.readBlock := by
  refine m.reads_bind (m.reads_request _) fun length => ?_
  simp only
  split
  · exact m.reads_refuse (Fault.plain rfl)
  · exact m.reads_request _

theorem reads_message : m.Reads Builtin.readMessage := by
  refine m.reads_bind (m.reads_request _) fun id => ?_
  change Value at id
  cases id with
  | identifier id => exact m.reads_bind (m.reads_request _) fun body => m.reads_pure _
  | _ => exact m.reads_refuse (Fault.plain rfl)

variable {types : TypeTable}

section Types

variable (htypes : m.OfTypes types)

include htypes

theorem writes_entryOf {v : Value} {next : TypeEntry → Script}
    (hnext : ∀ entry, m.OfKind entry.kind → m.Writes (next entry)) :
    m.Writes (Plan.lift (Builtin.entryOf types v) >>= next) := by
  unfold Builtin.entryOf
  split
  · next entry hentry => exact hnext entry (htypes entry (TypeTable.mem_of_ofClass? hentry))
  · exact writes_refuse_plain (Fault.plain rfl)

theorem writes_constant (v : Value) : m.Writes (Builtin.writeConstant types v) := by
  refine writes_entryOf htypes fun entry hentry => ?_
  split
  · next constants hkind =>
    rw [hkind] at hentry
    exact m.writes_bind (m.writes_request _) fun _ =>
      writes_lift_bind (hentry v) fun _ _ => m.writes_request _
  · exact writes_refuse_plain (Fault.plain rfl)

theorem writes_registeredPacket (v : Value) : m.Writes (Builtin.writePacket types v) := by
  refine writes_entryOf htypes fun entry hentry => ?_
  split
  · next body hkind =>
    rw [hkind] at hentry
    obtain ⟨hname, hwrite, -⟩ := hentry
    exact m.writes_bind (m.writes_request _) fun _ => writes_lift_bind (hname v) fun _ _ =>
      m.writes_bind (m.writes_request _) fun _ => hwrite v
  · exact writes_refuse_plain (Fault.plain rfl)

theorem writes_structured (v : Value) : m.Writes (Builtin.writeStructured types v) := by
  refine writes_entryOf htypes fun entry hentry => ?_
  split
  · next body hkind =>
    rw [hkind] at hentry
    exact m.writes_bind (m.writes_request _) fun _ => hentry.1 v
  · exact writes_refuse_plain (Fault.plain rfl)

theorem writes_builtin (b : Builtin) (v : Value) : m.Writes (b.write types v) := by
  cases b with
  | enumeration => exact writes_constant htypes v
  | packet => exact writes_registeredPacket htypes v
  | structured => exact writes_structured htypes v
  | bytes =>
      cases v with
      | bytes data => exact writes_block data
      | _ => exact writes_refuse_plain (Fault.plain rfl)
  | message =>
      cases v with
      | message id body =>
          exact m.writes_bind (m.writes_request _) fun _ => m.writes_request _
      | _ => exact writes_refuse_plain (Fault.plain rfl)
  | _ =>
      cases v <;> first
        | exact m.writes_request _
        | exact writes_refuse_plain (Fault.plain rfl)

theorem reads_readEntry_bind {α : Type} {next : TypeEntry → Reading α}
    (hnext : ∀ entry, m.OfKind entry.kind → m.Reads (next entry)) :
    m.Reads (types.readEntry >>= next) := by
  rw [TypeTable.readEntry, Plan.bind_bind]
  refine m.reads_bind (m.reads_request _) fun id => ?_
  split
  · next entry hentry => exact hnext entry (htypes entry (TypeTable.mem_of_byId? hentry))
  · exact m.reads_refuse (Fault.plain rfl)

theorem reads_constant : m.Reads (Builtin.readConstant types) := by
  refine reads_readEntry_bind htypes fun entry _ => ?_
  split
  · refine m.reads_bind (m.reads_request _) fun name => ?_
    split
    · exact m.reads_pure _
    · exact m.reads_refuse (Fault.plain rfl)
  · exact m.reads_refuse (Fault.plain rfl)

theorem reads_registeredPacket : m.Reads (Builtin.readPacket types) := by
  refine reads_readEntry_bind htypes fun entry hentry => ?_
  split
  · next body hkind =>
    rw [hkind] at hentry
    exact m.reads_bind (m.reads_request _) fun name => hentry.2.2 name
  · exact m.reads_refuse (Fault.plain rfl)

theorem reads_structured : m.Reads (Builtin.readStructured types) := by
  refine reads_readEntry_bind htypes fun entry hentry => ?_
  split
  · next body hkind =>
    rw [hkind] at hentry
    exact hentry.2
  · exact m.reads_refuse (Fault.plain rfl)

theorem reads_builtin (b : Builtin) : m.Reads (b.read types) := by
  cases b with
  | enumeration => exact reads_constant htypes
  | packet => exact reads_registeredPacket htypes
  | structured => exact reads_structured htypes
  | bytes => exact reads_map reads_block _
  | message => exact reads_message
  | _ => exact reads_map (m.reads_request _) _

theorem reads_describe (b : Builtin) : m.Reads (b.describe types) := by
  cases b with
  | enumeration | packet | structured =>
      exact reads_readEntry_bind htypes fun entry _ => m.reads_pure _
  | _ => exact m.reads_pure _

theorem of_builtin (b : Builtin) : m.OfFormat b.format types :=
  ⟨fun _ v => writes_builtin htypes b v, reads_builtin htypes b, reads_describe htypes b⟩

end Types

/-! ### Dialects -/

variable {p : Dialect.Blueprint} {d : Dialect}

open Dialect in
theorem of_build (hd : build p = .ok d) (hp : m.OfBlueprint p) :
    ∀ route ∈ d.routes, m.OfFormat route.format d.types := by
  have hfollows := follows_of_build hd
  have htypes : m.OfTypes d.types := by
    intro entry hentry
    rcases hfollows.mem_registry hentry with rfl | ⟨hmem, -⟩
    · exact of_packet_entry
    · exact hp.types entry hmem
  intro route hroute
  have hroutes : d.routes = _ := hfollows.offers.routes
  rw [hroutes, List.mem_append, List.mem_map, List.mem_map] at hroute
  rcases hroute with ⟨b, -, rfl⟩ | ⟨rule, hrule, rfl⟩
  · exact of_builtin htypes b
  · obtain ⟨own, hown, -, hformat, -⟩ := mem_ownRules.mp hrule
    rw [← hformat]
    exact hp.formats own hown d.types htypes

end Manner

end Wireform

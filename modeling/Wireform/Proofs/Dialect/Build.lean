import Wireform.Proofs.Dialect.Scan

/-!
What can be relied on in a dialect that has been built, whatever the
application has asked for. Formats and rules of the application come behind
those that are there anyway, so they take nothing away from these: the built-in
formats keep their numbers, and the rules for kinds of types are asked first.
-/

namespace Wireform

namespace Dialect

structure Built (d : Dialect) : Prop where
  types : d.types.Sound
  packet : Packet.entry ∈ d.types.entries
  routes : ∃ custom, d.routes = Builtin.all.map builtinRoute ++ custom
  rules : ∃ custom, d.rules = kindRules d.types ++ custom
  settled : d.settled = builtinSettled

variable {p : Blueprint} {d : Dialect}

/-- The first flaw of a blueprint, of whose parts the names come first. -/
inductive Blueprint.Fails (p : Blueprint) : Fault → Prop where
  | name {fault : Fault} (h : FirstFlaw (NameFlaw p.registry) [] p.roster.names fault) :
      Fails p fault
  | format {fault : Fault} (hnames : ∀ g, ¬ FirstFlaw (NameFlaw p.registry) [] p.roster.names g)
      (h : FirstFlaw FormatFlaw [] p.custom fault) : Fails p fault

/-- A dialect that has just what its blueprint asks for. -/
structure Follows (d : Dialect) (p : Blueprint) : Prop where
  types : Lists p.registry p.roster.names d.types
  offers : Offers (kindRules d.types) p.custom (d.routes, d.rules)
  settled : d.settled = builtinSettled

theorem settles_build (p : Blueprint) : Settles (build p) (·.Follows p) p.Fails := by
  unfold build
  cases (scans_addTypes p.registry).settles (lists_nil p.registry) p.roster.names with
  | error hr hfirst =>
      rw [hr]
      exact .error rfl (.name hfirst)
  | @ok types hr htypes hnames =>
      rw [hr]
      show Settles (addCustom (Builtin.all.map builtinRoute) (kindRules types) p.custom >>= _) _ _
      cases (scans_addCustom (kindRules types)).settles (offers_nil (kindRules types)) p.custom with
      | error hr' hfirst =>
          simp only at hr'
          rw [hr']
          exact .error rfl (.format hnames hfirst)
      | ok hr' hoffers hformats =>
          simp only at hr'
          rw [hr']
          refine .ok rfl ⟨htypes, hoffers, rfl⟩ fun fault hfails => ?_
          cases hfails with
          | name hfirst => exact hnames fault hfirst
          | format _ hfirst => exact hformats fault hfirst

theorem follows_of_build (h : build p = .ok d) : d.Follows p := by
  cases settles_build p with
  | ok hr hfollows =>
      cases h.symm.trans hr
      exact hfollows
  | error hr => cases h.symm.trans hr

/-- The types are the library's own and types of the registry. One that goes by the name of the
library's own is not taken from there. -/
theorem Follows.mem_registry (h : d.Follows p) {entry : TypeEntry}
    (hentry : entry ∈ d.types.entries) : entry = Packet.entry ∨
      entry ∈ p.registry.entries ∧ entry.name ≠ Packet.typeName := by
  rcases h.types.mem_iff.mp hentry with hpacket | ⟨name, -, hlisted⟩
  · exact .inl hpacket
  · refine .inr ⟨mem_of_listed? hlisted, ?_⟩
    rw [name_of_listed? hlisted]
    exact (find?_of_listed? hlisted).1

theorem Follows.built (h : d.Follows p) : d.Built :=
  ⟨h.types.sound, h.types.mem_iff.mpr (.inl rfl), ⟨_, h.offers.routes⟩, ⟨_, h.offers.rules⟩,
    h.settled⟩

theorem Built.of_build (h : build p = .ok d) : d.Built := (follows_of_build h).built

theorem Built.route? (hd : d.Built) (b : Builtin) : d.route? b.id = some (builtinRoute b) := by
  obtain ⟨custom, hroutes⟩ := hd.routes
  exact route?_builtin hroutes b

theorem Built.byId?_packet (hd : d.Built) :
    d.types.byId? Packet.typeId = some Packet.entry :=
  hd.types.byId?_eq hd.packet rfl

/-- Without formats of its own and with nothing but enumerations, an application speaks a standard
dialect. -/
theorem standard_of_build (h : build p = .ok d) (hcustom : p.custom = [])
    (hkinds : ∀ entry ∈ p.registry.entries, entry.name ≠ Packet.typeName → entry.kind = .plain ∨
      ∃ constants, entry.Enumerates constants) : d.Standard := by
  have hfollows := follows_of_build h
  refine ⟨?_, (Built.of_build h).byId?_packet, fun entry hentry => ?_⟩
  · have hroutes := hfollows.offers.routes
    rw [hcustom] at hroutes
    exact hroutes.trans (List.append_nil _)
  · rcases hfollows.mem_registry hentry with hpacket | ⟨hregistered, hname⟩
    · exact .inl hpacket
    · exact .inr (hkinds entry hregistered hname)

end Dialect

end Wireform

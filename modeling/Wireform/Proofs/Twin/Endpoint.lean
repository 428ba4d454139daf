import Wireform.Proofs.Endpoint.History
import Wireform.Proofs.Twin.Bench

/-!
Two endpoints to which the same happens. They speak one dialect, and the
workspaces that they lend may differ as the likeness of their benches allows.
What holds of two benches then holds of two endpoints: a call comes to the same
on either side, and so does every piece of work with workspaces that have the
same number, however much has happened before.
-/

namespace Wireform

namespace Likeness

/-- The likeness goes with endpoints of the settings `s` and `s'`. -/
structure Meets {d : Dialect} (L : Likeness d) (s s' : Settings) : Prop where
  /-- What is lent on either side can be worked with side by side. -/
  lend : ∀ {w u : Workspace}, w.Lent s → u.Lent s' → w.tracing = s.debug → u.tracing = s'.debug →
    L.Works w u
  tracing : ∀ {w u}, L.Works w u → w.tracing = s.debug ∧ u.tracing = s'.debug
  create : ∀ initial limit, L.Fit (Buffer.create initial limit)
  initial : s'.initialCapacity = s.initialCapacity
  max : s'.maxCapacity = s.maxCapacity
  looksAhead : Reader.LooksAhead d L

variable {d : Dialect} {L : Likeness d} {s s' : Settings} {α : Type}

theorem couples_levels {x : Nat → Action Bench α}
    (h : ∀ levels, Couples L.coupling (x levels) (x levels)) :
    Couples L.coupling (fun s => x s.work.levels s) (fun s => x s.work.levels s) := by
  intro s t hst
  have hlevels : t.work.levels = s.work.levels := Tied.levels hst
  simp only [hlevels]
  exact h s.work.levels hst

theorem couples_task (hlook : Reader.LooksAhead d L) (t : Task) :
    Couples L.coupling (t.run d) (t.run d) := by
  cases t with
  | field f =>
      exact couples_levels fun levels =>
        Writer.couples_writeField (Writer.couples_writeObject levels) f
  | content name v =>
      exact couples_levels fun levels =>
        Writer.couples_writeBody (Writer.couples_writeObject levels) name v
  | request r =>
      exact couples_levels fun levels =>
        Reader.couples_answer (Reader.couples_readObject hlook levels) r
  | nextContent =>
      exact couples_levels fun levels =>
        Reader.couples_readBody (Reader.couples_readObject hlook levels)
  | nextName =>
      exact couples_levels fun levels =>
        Reader.couples_peekName (Reader.couples_readObject hlook levels)

/-- Two endpoints that speak the same dialect and remember the same ways of values. -/
structure Peers (L : Likeness d) (s s' : Settings) (e e' : Endpoint) : Prop where
  left : e.Kept d s
  right : e'.Kept d s'
  memo : L.Memos e.memo e'.memo

/-- Two endpoints at work on one buffer. -/
def peering (L : Likeness d) (s s' : Settings) : Coupling (Endpoint × Buffer) where
  Tied p q := L.Peers s s' p.1 q.1 ∧ q.2 = p.2 ∧ L.Fit p.2
  Alike := L.Alike
  fatal := L.fatal

/-- Two endpoints at work on one buffer, each with a workspace that it has lent. -/
def lending (L : Likeness d) (s s' : Settings) : Coupling (Endpoint × Workspace × Buffer) where
  Tied p q := L.Peers s s' p.1 q.1 ∧ L.Works p.2.1 q.2.1 ∧ q.2.2 = p.2.2 ∧ L.Fit p.2.2
  Alike := L.Alike
  fatal := L.fatal

theorem couples_use {act : Dialect → Action Bench α} (h : Couples L.coupling (act d) (act d)) :
    Couples (L.lending s s') (Endpoint.use act) (Endpoint.use act) := by
  rintro ⟨e, w, _⟩ ⟨e', u, b⟩ ⟨⟨hleft, hright, hmemo⟩, hwork, rfl, hfit⟩
  have hbench : L.Tied ⟨b, w, e.memo⟩ ⟨b, u, e'.memo⟩ := ⟨rfl, hfit, hwork, hmemo⟩
  obtain ⟨hagree, htied⟩ := h hbench
  simp only [Endpoint.use]
  rw [show act e.dialect = act d from congrArg act hleft.dialect,
    show act e'.dialect = act d from congrArg act hright.dialect]
  exact ⟨hagree, ⟨hleft.remember _, hright.remember _, htied.memo⟩, htied.work, htied.buffer,
    htied.fit⟩

variable (hmeets : L.Meets s s')

include hmeets

theorem Peers.acquire {e e' : Endpoint} (h : L.Peers s s' e e') :
    L.Peers s s' e.acquire.2 e'.acquire.2 ∧ L.Works e.acquire.1 e'.acquire.1 := by
  obtain ⟨hleft, hlent, htracing⟩ := h.left.acquire
  obtain ⟨hright, hlent', htracing'⟩ := h.right.acquire
  exact ⟨⟨hleft, hright, h.memo⟩, hmeets.lend hlent hlent' htracing htracing'⟩

theorem Peers.release {e e' : Endpoint} (h : L.Peers s s' e e') {w u : Workspace}
    (hwork : L.Works w u) : L.Peers s s' (e.release w) (e'.release u) := by
  obtain ⟨hw, hu⟩ := hmeets.tracing hwork
  exact ⟨h.left.release hw, h.right.release hu, h.memo⟩

theorem couples_perform {act : Dialect → Action Bench α}
    (h : Couples L.coupling (act d) (act d)) :
    Couples (L.peering s s') (Endpoint.perform act) (Endpoint.perform act) := by
  rintro ⟨e, _⟩ ⟨e', b⟩ ⟨hpeers, rfl, hfit⟩
  obtain ⟨hacquired, hwork⟩ := hpeers.acquire hmeets
  have htied : (L.lending s s').Tied (e.acquire.2, e.acquire.1, b)
      (e'.acquire.2, e'.acquire.1, b) := ⟨hacquired, hwork, rfl, hfit⟩
  obtain ⟨hagree, hused, hwork', hbuffer, hfit'⟩ := couples_use h htied
  exact ⟨hagree, hused.release hmeets hwork', hbuffer, hfit'⟩

theorem couples_writeInto (field : String) (v : Value) :
    Couples (L.peering s s') (Endpoint.writeInto field v) (Endpoint.writeInto field v) :=
  couples_perform hmeets (couples_task hmeets.looksAhead (.field (.object field v)))

theorem couples_readNext : Couples (L.peering s s') Endpoint.read Endpoint.read :=
  couples_perform hmeets (couples_task hmeets.looksAhead (.request (.object "value")))

theorem couples_call (c : Call) : Couples (L.peering s s') c.run c.run := by
  cases c with
  | write field v =>
      rintro ⟨e, _⟩ ⟨e', b⟩ ⟨hpeers, rfl, hfit⟩
      have hnew : e'.newBuffer = e.newBuffer := by
        rw [Endpoint.newBuffer, Endpoint.newBuffer, hpeers.left.initial, hpeers.right.initial,
          hpeers.left.max, hpeers.right.max, hmeets.initial, hmeets.max]
      have htied : (L.peering s s').Tied (e, e.newBuffer) (e', e'.newBuffer) :=
        ⟨hpeers, hnew, hmeets.create _ _⟩
      obtain ⟨hagree, hwritten, hbuffer, -⟩ := couples_writeInto hmeets field v htied
      simp only [Call.run, Endpoint.write]
      generalize Endpoint.writeInto field v (e, e.newBuffer) = out at hagree hwritten hbuffer ⊢
      generalize Endpoint.writeInto field v (e', e'.newBuffer) = out' at hagree hwritten hbuffer ⊢
      obtain ⟨r, e₁, b₁⟩ := out
      obtain ⟨r', e₂, b₂⟩ := out'
      obtain rfl : b₂ = b₁ := hbuffer
      cases hagree with
      | ok u => exact ⟨.ok b₂, hwritten, rfl, hfit⟩
      | error h => exact ⟨.error h, hwritten, rfl, hfit⟩
  | writeInto field v => exact couples_writeInto hmeets field v
  | read => exact couples_readNext hmeets
  | readAs c =>
      exact (couples_readNext hmeets).bind fun v =>
        .lift (agree_refl fun f hf => L.unframed (Value.plain_of_expect hf).frames)

omit hmeets

/-! ### Whatever happens -/

/-- Two stations that have lent workspaces under the same numbers. -/
structure Level (L : Likeness d) (s s' : Settings) (a b : Station) : Prop where
  peers : L.Peers s s' a.endpoint b.endpoint
  lent : ∀ i, Option.Rel L.Works (a.lent i) (b.lent i)

variable {a b : Station}

theorem Level.put (h : L.Level s s' a b) (i : Nat) {o o' : Option Workspace}
    (ho : Option.Rel L.Works o o') : L.Level s s' (a.put i o) (b.put i o') := by
  refine ⟨h.peers, fun j => ?_⟩
  simp only [Station.put]
  split
  · exact ho
  · exact h.lent j

include hmeets

theorem Level.step (h : L.Level s s' a b) {x : Event} (hx : x.On L.Fit) :
    L.Level s s' (a.step x) (b.step x) := by
  cases x with
  | call c buffer =>
      have htied : (L.peering s s').Tied (a.endpoint, buffer) (b.endpoint, buffer) :=
        ⟨h.peers, rfl, hx⟩
      exact ⟨(couples_call hmeets c htied).2.1, h.lent⟩
  | dispatch v =>
      refine ⟨⟨h.peers.left.remember _, h.peers.right.remember _, ?_⟩, h.lent⟩
      show L.Memos (a.endpoint.dialect.dispatch v a.endpoint.memo).2
        (b.endpoint.dialect.dispatch v b.endpoint.memo).2
      rw [h.peers.left.dialect, h.peers.right.dialect]
      exact (L.dispatch h.peers.memo v).2
  | borrow i =>
      obtain ⟨hpeers, hwork⟩ := h.peers.acquire hmeets
      have hlevel : L.Level s s' { a with endpoint := a.endpoint.acquire.2 }
          { b with endpoint := b.endpoint.acquire.2 } := ⟨hpeers, h.lent⟩
      exact hlevel.put i (.some hwork)
  | work i t buffer =>
      have hlent := h.lent i
      simp only [Station.step]
      generalize a.lent i = o at hlent ⊢
      generalize b.lent i = o' at hlent ⊢
      cases hlent with
      | none => exact h
      | @some w u hwork =>
          have htied : (L.lending s s').Tied (a.endpoint, w, buffer) (b.endpoint, u, buffer) :=
            ⟨h.peers, hwork, rfl, hx⟩
          obtain ⟨-, hpeers, hwork', -⟩ := couples_use (couples_task hmeets.looksAhead t) htied
          have hlevel : L.Level s s'
              { a with endpoint := (Endpoint.use t.run (a.endpoint, w, buffer)).2.1 }
              { b with endpoint := (Endpoint.use t.run (b.endpoint, u, buffer)).2.1 } :=
            ⟨hpeers, h.lent⟩
          exact hlevel.put i (.some hwork')
  | giveBack i =>
      have hlent := h.lent i
      simp only [Station.step]
      generalize a.lent i = o at hlent ⊢
      generalize b.lent i = o' at hlent ⊢
      cases hlent with
      | none => exact h
      | @some w u hwork =>
          have hlevel : L.Level s s' { a with endpoint := a.endpoint.release w }
              { b with endpoint := b.endpoint.release u } :=
            ⟨h.peers.release hmeets hwork, h.lent⟩
          exact hlevel.put i .none

theorem Level.after (h : L.Level s s' a b) {events : List Event}
    (hevents : ∀ x ∈ events, x.On L.Fit) : L.Level s s' (a.after events) (b.after events) := by
  induction events generalizing a b with
  | nil => exact h
  | cons x events ih =>
      obtain ⟨hx, hrest⟩ := List.forall_mem_cons.mp hevents
      exact ih (h.step hmeets hx) hrest

end Likeness

end Wireform

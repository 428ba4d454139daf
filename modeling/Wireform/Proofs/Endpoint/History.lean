import Wireform.Proofs.Endpoint.Lending

/-!
Everything that can happen to an endpoint. It is called to write and to read
whole objects, it is asked for the way of a value, and it lends workspaces, with
which pieces of work are done in any order until they are given back, if they
ever are. Work may fail anywhere, and buffers may have become anything between
two pieces of work.

However many workspaces have come and gone, those that are idle keep frames if
the settings say so, and only then. The pool makes no others, and it gets back
only what it has lent.
-/

namespace Wireform

/-- A piece of work with a workspace that has been lent. -/
inductive Task where
  | field (f : Field)
  /-- A value without an object around it. -/
  | content (name : String) (v : Value)
  | request (r : Request)
  | nextContent
  /-- A look at what comes. -/
  | nextName

namespace Task

def Answer : Task → Type
  | field _ | content .. => Unit
  | request r => r.Answer
  | nextContent => Value
  | nextName => Option String

def run : (t : Task) → Dialect → Action Bench t.Answer
  | field f, d => Writer.field d f
  | content name v, d => Writer.body d name v
  | request r, d => Reader.request d r
  | nextContent, d => Reader.body d
  | nextName, d => Reader.nextName d

end Task

/-- What an endpoint can be called to do. -/
inductive Call where
  | write (field : String) (v : Value)
  | writeInto (field : String) (v : Value)
  | read
  | readAs (c : Class)

namespace Call

def Answer : Call → Type
  | write .. => Buffer
  | writeInto .. => Unit
  | read | readAs _ => Value

/-- Calls an endpoint. Who writes to a buffer of its own leaves the buffer at hand alone. -/
def run : (c : Call) → Action (Endpoint × Buffer) c.Answer
  | write field v => fun (e, buffer) =>
    let (r, e) := Endpoint.write field v e
    (r, (e, buffer))
  | writeInto field v => Endpoint.writeInto field v
  | read => Endpoint.read
  | readAs c => Endpoint.readAs c

end Call

/-- What can happen to an endpoint. Workspaces that are lent go by numbers. -/
inductive Event where
  | call (c : Call) (buffer : Buffer)
  | dispatch (v : Value)
  | borrow (i : Nat)
  | work (i : Nat) (t : Task) (buffer : Buffer)
  | giveBack (i : Nat)

/-- The buffer that an event is about, if it is about one, has the property `P`. -/
def Event.On (P : Buffer → Prop) : Event → Prop
  | .call _ buffer | .work _ _ buffer => P buffer
  | _ => True

/-- An endpoint and the workspaces that it has lent. -/
structure Station where
  endpoint : Endpoint
  lent : Nat → Option Workspace := fun _ => none

def Endpoint.station (e : Endpoint) : Station := { endpoint := e }

namespace Station

def put (s : Station) (i : Nat) (w : Option Workspace) : Station :=
  { s with lent := fun j => if j = i then w else s.lent j }

/-- What has become of a station after an event. Nothing can be done with a workspace that is not
lent. -/
def step (s : Station) : Event → Station
  | .call c buffer => { s with endpoint := (c.run (s.endpoint, buffer)).2.1 }
  | .dispatch v =>
    { s with endpoint :=
      { s.endpoint with memo := (s.endpoint.dialect.dispatch v s.endpoint.memo).2 } }
  | .borrow i => { s with endpoint := s.endpoint.acquire.2 }.put i (some s.endpoint.acquire.1)
  | .work i t buffer =>
    match s.lent i with
    | none => s
    | some w =>
      let (_, endpoint, w, _) := Endpoint.use t.run (s.endpoint, w, buffer)
      { s with endpoint }.put i (some w)
  | .giveBack i =>
    match s.lent i with
    | none => s
    | some w => { s with endpoint := s.endpoint.release w }.put i none

def after (s : Station) (events : List Event) : Station := events.foldl step s

end Station

/-! ### Idle workspaces -/

namespace Pool

variable {σ α : Type} {P : α → Prop}

theorem mem_of_findFit {h : Handler σ α} {idle rest : List α} {discarded n : Nat} {s t : σ}
    {found : Option α} (hfind : findFit h idle discarded s = (found, rest, n, t)) :
    (∀ a, found = some a → a ∈ idle) ∧ ∀ a ∈ rest, a ∈ idle := by
  induction idle generalizing discarded s with
  | nil =>
      cases hfind
      exact ⟨(fun _ h => by cases h), fun _ h => h⟩
  | cons first idle ih =>
      rw [findFit] at hfind
      split at hfind
      · cases hfind
        refine ⟨fun a ha => ?_, fun a ha => List.mem_cons_of_mem _ ha⟩
        cases ha
        exact List.mem_cons_self
      · obtain ⟨hfound, hrest⟩ := ih hfind
        exact ⟨fun a ha => List.mem_cons_of_mem _ (hfound a ha),
          fun a ha => List.mem_cons_of_mem _ (hrest a ha)⟩

theorem forall_acquire {p : Pool σ α} (hidle : ∀ a ∈ p.idle, P a)
    (hcreate : ∀ s, P (p.handler.create s).1)
    (hactivate : ∀ a s, P a → P (p.handler.activate a s).1) :
    P p.acquire.1 ∧ ∀ a ∈ p.acquire.2.idle, P a := by
  unfold acquire
  rcases hfind : findFit p.handler p.idle p.discarded p.state with ⟨_ | a, rest, n, t⟩
  · obtain ⟨-, hrest⟩ := mem_of_findFit hfind
    exact ⟨hactivate _ _ (hcreate t), fun a ha => hidle a (hrest a ha)⟩
  · obtain ⟨hfound, hrest⟩ := mem_of_findFit hfind
    exact ⟨hactivate _ _ (hidle a (hfound a rfl)), fun a ha => hidle a (hrest a ha)⟩

theorem forall_release {p : Pool σ α} {a : α} (hidle : ∀ a ∈ p.idle, P a)
    (ha : ∀ s, P (p.handler.passivate a s).1) : ∀ b ∈ (p.release a).idle, P b := by
  unfold release
  simp only
  split
  · intro b hb
    rcases List.mem_append.mp hb with hb | hb
    · exact hidle b hb
    · cases List.mem_singleton.mp hb
      exact ha p.state
  · exact hidle

theorem forall_make {h : Handler σ α} (hcreate : ∀ s, P (h.create s).1) (n : Nat) (s : σ) :
    ∀ a ∈ (make h n s).1, P a := by
  induction n generalizing s with
  | zero => exact fun _ h => by cases h
  | succ n ih =>
      refine List.forall_mem_cons.mpr ⟨hcreate s, ih _⟩

end Pool

namespace Endpoint

/-- An endpoint of the dialect and the settings, whatever it has been used for. -/
structure Kept (d : Dialect) (s : Settings) (e : Endpoint) : Prop where
  dialect : e.dialect = d
  handler : e.pool.handler = Workspace.handler s
  idle : ∀ w ∈ e.pool.idle, w.tracing = s.debug
  initial : e.initialCapacity = s.initialCapacity
  max : e.maxCapacity = s.maxCapacity

variable {d : Dialect} {s : Settings} {e : Endpoint}

theorem kept_of_create (h : create d s = .ok e) : e.Kept d s ∧ e.memo = d.memo := by
  unfold create at h
  cases hs : s.validate with
  | error f =>
      rw [hs] at h
      cases h
  | ok u =>
      rw [hs] at h
      cases h
      exact ⟨⟨rfl, rfl, Pool.forall_make (fun _ => rfl) _ (), rfl, rfl⟩, rfl⟩

theorem Kept.acquire (h : e.Kept d s) : e.acquire.2.Kept d s ∧ e.acquire.1.Lent s ∧
    e.acquire.1.tracing = s.debug := by
  have hcreate : ∀ u, (e.pool.handler.create u).1.tracing = s.debug := by
    intro u
    rw [h.handler]
    rfl
  have hactivate : ∀ w u, w.tracing = s.debug →
      (e.pool.handler.activate w u).1.tracing = s.debug := by
    intro w u hw
    rw [h.handler]
    exact hw
  obtain ⟨hlent, hidle⟩ := Pool.forall_acquire h.idle hcreate hactivate
  exact ⟨⟨h.dialect, (Pool.handler_acquire e.pool).trans h.handler, hidle, h.initial, h.max⟩,
    Workspace.lent_acquire h.handler, hlent⟩

theorem Kept.release (h : e.Kept d s) {w : Workspace} (hw : w.tracing = s.debug) :
    (e.release w).Kept d s := by
  refine ⟨h.dialect, (Pool.handler_release e.pool w).trans h.handler,
    Pool.forall_release h.idle fun u => ?_, h.initial, h.max⟩
  rw [h.handler]
  exact hw

theorem Kept.remember (h : e.Kept d s) (memo : Memo) : Kept d s { e with memo } :=
  ⟨h.dialect, h.handler, h.idle, h.initial, h.max⟩

end Endpoint

end Wireform

import Wireform.Proofs.Buffer.Sharing
import Wireform.Proofs.Endpoint.Lending
import Wireform.Proofs.Trace.Path

/-!
Objects on fresh workspaces that keep frames. Along the levels each object tells
where it fails, since its body does if the formats relay, and the body does since
the objects one level further down do. On a workspace that has just been lent no
object is open, and then all frames of a failure are explained by what the watch
has seen.
-/

namespace Wireform

variable {d : Dialect} {base : Workspace} {n : Nat}

/-! ### Writing -/

namespace Writer

variable {watched : String → Value → Watched Unit} {object : String → Value → Action Bench Unit}

section Nested

variable (hd : d.Relays) (hobject : ∀ name v, Tells d base n (watched name v) (object name v))

include hobject

theorem tells_watchField {f : Field} (hf : f.nested = true) :
    Tells d base n (watchField d watched f) (writeField d object f) := by
  have hflag (present : Bool) : Tells d base n
      (Watched.step .raised (Bench.onBuffer (Buffer.writeBool present)))
      (Bench.onBuffer (Buffer.writeBool present)) :=
    .step (Bench.tending_onBuffer (Buffer.handling_put _ _))
  cases f with
  | object name v => exact hobject name v
  | nullable name v =>
      cases v with
      | none => exact hflag false
      | some v => exact (hflag true).bind fun _ => hobject name v
  | _ => cases hf

include hd

theorem tells_watchBody (name : String) (v : Value) :
    Tells d base n (watchBody d watched name v) (writeBody d object name v) := by
  have hroute : ∀ s : Bench, (Conduct.tending d).Fit s → ∀ route,
      (Bench.onMemo (d.dispatch v) s).1 = .ok route → route ∈ d.routes := fun s hs =>
    ((Dialect.dispatch_decides d v s.memo).keyed hs.2.2).2
  refine (Tells.step (Bench.tending_dispatch v)).bind_of hroute fun route hmem => ?_
  refine (Tells.step (Bench.tending_onBuffer (Buffer.handling_put _ _))).bind fun _ => ?_
  refine Tells.run (fun f hf => tells_watchField hobject hf) (fun f hf => ?_)
    ((hd route hmem).write name v)
  exact ⟨watchField_of_not_nested hf, tending_writeField hf object⟩

end Nested

theorem opens_watchObject {levels : Nat} (name : String) (v : Value)
    (hbody : Tells d base levels (watchBody d (watchObject d levels) name v)
      (writeBody d (writeObject d levels) name v)) :
    Opens d base (levels + 1) (· = frame name v) (watchObject d (levels + 1) name v)
      (writeObject d (levels + 1) name v) := by
  refine opens_object (begins_push _) (fun s hs => ⟨_, rfl, hs.1, ?_, hs.2.2⟩) hbody
  rw [Workspace.scratch_push]
  exact hs.2.1

theorem tells_watchObject (hd : d.Relays) (levels : Nat) (name : String) (v : Value) :
    Tells d base levels (watchObject d levels name v) (writeObject d levels name v) := by
  induction levels generalizing name v with
  | zero => exact .refused fun _ => rfl
  | succ levels ih => exact (opens_watchObject name v (tells_watchBody hd ih name v)).tells

end Writer

/-! ### Reading -/

namespace Reader

variable {watched : String → Watched Value} {object : String → Action Bench Value}

section Nested

variable (hd : d.Relays) (hobject : ∀ name, Tells d base n (watched name) (object name))

include hobject

theorem tells_watchAnswer {r : Request} (hr : r.nested = true) :
    Tells d base n (watchAnswer d watched r) (answer d object r) := by
  cases r with
  | object name => exact hobject name
  | objectAs c name =>
      exact (hobject name).bind fun v => .step (.lift fun f hf => Value.plain_of_expect hf)
  | nullable name =>
      refine (Tells.step (Bench.tending_onBuffer Buffer.reading_readBool.handling)).bind
        fun present => ?_
      cases present with
      | true => exact (hobject name).bind fun v => .pure _
      | false => exact .pure _
  | _ => cases hr

include hd

theorem tells_watchBody : Tells d base n (watchBody d watched) (readBody d object) := by
  refine (Tells.step (Bench.tending_onBuffer Buffer.reading_readShort.handling)).bind fun raw => ?_
  cases hroute : d.route? ⟨raw⟩ with
  | none =>
      simp only [hroute]
      exact .step (.fail (Fault.plain rfl))
  | some route =>
      simp only [hroute]
      refine Tells.run (fun r hr => tells_watchAnswer hobject hr) (fun r hr => ?_)
        (hd route (Dialect.mem_of_route? hroute)).read.relays
      exact ⟨watchAnswer_of_not_nested hr, tending_answer hr object⟩

end Nested

theorem opens_watchObject (hd : d.Relays) {levels : Nat} (name : String)
    (hbody : Tells d base levels (watchBody d (watchObject d levels))
      (readBody d (readObject d levels))) :
    Opens d base (levels + 1) (∃ type, · = frame name type) (watchObject d (levels + 1) name)
      (readObject d (levels + 1) name) := by
  refine opens_object (begins_watchPushFrame (tracks_watchObject levels) name) (fun s hs => ?_) hbody
  -- a look ahead comes back to where it began
  obtain ⟨type, scratch, hlength, hpeek⟩ := comesBack_readObject hd.calm ⟨hs.1, hs.2.1⟩ levels
  have hscratch : 0 < scratch.length := hlength ▸ hs.2.1
  unfold pushFrame
  rw [Action.bind_of_ok (Action.get_apply s)]
  split
  · rw [Action.bind_of_ok hpeek]
    refine ⟨_, rfl, hs.1, ?_, hs.2.2⟩
    rw [Workspace.scratch_push]
    exact hscratch
  · exact ⟨s, rfl, hs⟩

theorem tells_watchObject (hd : d.Relays) (levels : Nat) (name : String) :
    Tells d base levels (watchObject d levels name) (readObject d levels name) := by
  induction levels generalizing name with
  | zero => exact .refused fun _ => rfl
  | succ levels ih => exact (opens_watchObject hd name (tells_watchBody hd ih)).tells

end Reader

/-! ### Fresh workspaces -/

theorem Settings.maxDepth_pos {s : Settings} (h : s.validate = .ok ()) : 0 < s.maxDepth := by
  rcases Nat.eq_zero_or_pos s.maxDepth with hzero | hpos
  · unfold validate fault? at h
    simp only [hzero, if_true] at h
    split at h
    · cases h
    · next hfault =>
      split at hfault
      · cases hfault
      · split at hfault
        · cases hfault
        · cases hfault
  · exact hpos

theorem ready_of_lent {s : Settings} {w : Workspace} {b : Buffer} {m : Memo}
    (hs : s.validate = .ok ()) (hw : w.Lent s) (htracing : w.tracing = true) (hb : b.Valid)
    (hm : d.Keyed m) : ({ bench := ⟨b, w, m⟩ } : Watch).Ready d w s.maxDepth := by
  obtain ⟨hdepth, hframes⟩ := hw.empty
  refine ⟨⟨htracing, hframes, hdepth⟩, Watch.sound_start ⟨b, w, m⟩, ⟨hb, hw.scratch_pos hs, hm⟩,
    List.not_mem_nil, ?_⟩
  rw [List.length_nil, Nat.zero_add, hw.maxDepth]

/-- If an object cannot be written or read with a fresh workspace that keeps frames, the failure has
the frames of the objects that were open where it came up, the object itself outermost. -/
theorem Bench.frames_exact {p : Dialect.Blueprint} (hd : Dialect.build p = .ok d)
    (hp : Manner.relaying.OfBlueprint p) {s : Settings} (hs : s.validate = .ok ())
    {w : Workspace} (hw : w.Lent s) (htracing : w.tracing = true) {b : Buffer} (hb : b.Valid)
    {m : Memo} (hm : d.Reaches m) (field : String) :
    (∀ v f t, Writer.object d field v ⟨b, w, m⟩ = (.error f, t) →
      ∃ u origin, Writer.watchObject d s.maxDepth field v { bench := ⟨b, w, m⟩ } = (.error f, u) ∧
        u.bench = t ∧
        Moment.Explains origin s.maxDepth (Writer.frame field v) u.seen f) ∧
    ∀ f t, Reader.object d field ⟨b, w, m⟩ = (.error f, t) →
      ∃ u origin type, Reader.watchObject d s.maxDepth field { bench := ⟨b, w, m⟩ } = (.error f, u) ∧
        u.bench = t ∧
        Moment.Explains origin s.maxDepth (Reader.frame field type) u.seen f := by
  have hrelays : d.Relays := Manner.of_build hd hp
  have hready := ready_of_lent hs hw htracing hb (hm.keyed hd)
  have hmax := hw.maxDepth
  obtain ⟨levels, hlevels⟩ := Nat.exists_eq_succ_of_ne_zero (Nat.ne_of_gt (s.maxDepth_pos hs))
  constructor
  · intro v f t hwrite
    have hobject : Opens d w (levels + 1) _ _ _ := Writer.opens_watchObject field v
      (Writer.tells_watchBody hrelays (Writer.tells_watchObject hrelays levels) field v)
    rw [Writer.object, hw.levels] at hwrite
    rw [hlevels] at hready hwrite hmax ⊢
    obtain ⟨u, _, origin, hwatch, hbench, rfl, hexplains⟩ := hobject.explains hready rfl hwrite
    exact ⟨u, origin, hwatch, hbench, hmax ▸ hexplains⟩
  · intro f t hread
    have hobject : Opens d w (levels + 1) _ _ _ := Reader.opens_watchObject hrelays field
      (Reader.tells_watchBody hrelays (Reader.tells_watchObject hrelays levels))
    rw [Reader.object, hw.levels] at hread
    rw [hlevels] at hready hread hmax ⊢
    obtain ⟨u, _, origin, hwatch, hbench, ⟨type, rfl⟩, hexplains⟩ := hobject.explains hready rfl hread
    exact ⟨u, origin, type, hwatch, hbench, hmax ▸ hexplains⟩

/-! A tree of which one branch is written or read, and the other one is not. -/

namespace Sample

def grove : Dialect.Blueprint where
  registry := registry [(.structured, "Tree")]
  roster := ⟨["demo::Tree"]⟩

theorem relays_treeBody_write (v : Value) :
    (treeBody.write v).Relays Field.nested := by
  unfold treeBody
  simp only
  split
  · exact (Plan.relays_request _).bind fun _ => (Plan.relays_request _).bind fun _ =>
      Plan.relays_request _
  · exact Plan.relays_refuse (Fault.plain rfl)

theorem relays_grove : Manner.relaying.OfBlueprint grove where
  types := by
    refine List.forall_mem_singleton.mpr ⟨relays_treeBody_write, ?_⟩
    refine Manner.relaying.reads_bind (Manner.relaying.reads_request _) fun value => ?_
    refine Manner.relaying.reads_bind (Manner.relaying.reads_request _) fun left => ?_
    refine Manner.relaying.reads_bind (Manner.relaying.reads_request _) fun right => ?_
    exact Manner.relaying.reads_pure _
  formats := fun own hown => nomatch hown

def leaf (value : Int32) : Value := make "Tree" [("value", .int value)]

/-- The right branch has a branch of its own. -/
def tree : Value :=
  make "Tree" [("value", .int 1), ("left", leaf 2),
    ("right", make "Tree" [("value", .int 3), ("left", leaf 4)])]

/-- A tree with two leaves, the second of which is cut off before its last flag. -/
def cutTree : Buffer :=
  Buffer.ofBytes [0xff, 0x98, 0x00, 0x07, 0x02, 0x01, 0x01, 0xff, 0x98, 0x00, 0x07, 0x02, 0x02,
    0x00, 0x00, 0x01, 0xff, 0x98, 0x00, 0x07, 0x02, 0x03, 0x00]

def shallow : Workspace := .fresh (List.replicate 8 0) true 2

/-- No level is left for the branch of the right branch. -/
def tooDeep : Failure where
  fault := .nestingLimit 2
  frames := ["[SERIALIZE => right (type=driver::types::Tree)]",
    "[SERIALIZE => value (type=driver::types::Tree)]"]

/-- The flag for the right branch of the right branch is missing. -/
def tooShort : Failure where
  fault := .outOfBounds "read_bool" 23 1 0
  frames := ["[DESERIALIZE => right (type=demo::Tree)]", "[DESERIALIZE => value (type=demo::Tree)]"]

end Sample

theorem Bench.frames_exact_grove : ∃ d, Dialect.build Sample.grove = .ok d ∧
    (∃ u origin, Writer.watchObject d 2 "value" Sample.tree
        { bench := ⟨Buffer.create 0 200, Sample.shallow, d.memo⟩ } = (.error Sample.tooDeep, u) ∧
      Moment.Explains origin 2 (Writer.frame "value" Sample.tree) u.seen Sample.tooDeep) ∧
    ∃ u origin type, Reader.watchObject d 2 "value"
        { bench := ⟨Sample.cutTree, Sample.shallow, d.memo⟩ } = (.error Sample.tooShort, u) ∧
      Moment.Explains origin 2 (Reader.frame "value" type) u.seen Sample.tooShort := by
  obtain ⟨d, hd⟩ : ∃ d, Dialect.build Sample.grove = .ok d := ⟨_, rfl⟩
  have hs : ({ debug := true, scratchSize := 8, maxDepth := 2 } : Settings).validate = .ok () := rfl
  have hlent : Sample.shallow.Lent { debug := true, scratchSize := 8, maxDepth := 2 } :=
    Workspace.lent_fresh _
  have hfails : Shelf.failure? (Writer.object d "value" Sample.tree
        ⟨Buffer.create 0 200, Sample.shallow, d.memo⟩).1 = some Sample.tooDeep ∧
      Shelf.failure? (Reader.object d "value" ⟨Sample.cutTree, Sample.shallow, d.memo⟩).1 =
        some Sample.tooShort := by
    cases hd
    decide +kernel
  obtain ⟨hwrites, -⟩ := frames_exact hd Sample.relays_grove hs hlent rfl
    (Buffer.valid_create 0 200) .start "value"
  obtain ⟨-, hreads⟩ := frames_exact hd Sample.relays_grove hs hlent rfl
    (Buffer.valid_ofBytes _ : Sample.cutTree.Valid) .start "value"
  obtain ⟨u, origin, hwatch, -, hexplains⟩ := hwrites Sample.tree _ _
    (Prod.ext (Shelf.failure?_eq_some hfails.1) rfl)
  obtain ⟨u', origin', type, hwatch', -, hexplains'⟩ := hreads _ _
    (Prod.ext (Shelf.failure?_eq_some hfails.2) rfl)
  exact ⟨d, hd, ⟨u, origin, hwatch, hexplains⟩, u', origin', type, hwatch', hexplains'⟩

end Wireform

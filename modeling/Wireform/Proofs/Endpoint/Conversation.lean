import Wireform.Proofs.Endpoint.Lending
import Wireform.Proofs.Keeping
import Wireform.Proofs.Reading.Bench
import Wireform.Proofs.Writing.Object

/-!
Endpoints in the course of a conversation. An endpoint is used by borrowing
workspaces, doing pieces of work with them, field by field or object by object,
and giving them back, on any buffers and with any outcome. Whatever has
happened so far, it speaks the same dialect, its memo is one that the dialect
can get to, and it lends workspaces that are ready for work.
-/

namespace Wireform.Endpoint

/-- What an endpoint for a dialect can have become. Of a workspace that is worked with or given back
nothing is required, so it may be one that was lent long before. -/
inductive Reached (d : Dialect) (s : Settings) : Endpoint → Prop where
  | create {e : Endpoint} (h : create d s = .ok e) : Reached d s e
  | acquire {e : Endpoint} (h : Reached d s e) : Reached d s e.acquire.2
  | release {e : Endpoint} (h : Reached d s e) (work : Workspace) : Reached d s (e.release work)
  | write {e : Endpoint} (h : Reached d s e) (f : Field) (work : Workspace) (buffer : Buffer) :
      Reached d s (use (fun d => Writer.field d f) (e, work, buffer)).2.1
  | read {e : Endpoint} (h : Reached d s e) (r : Request) (work : Workspace) (buffer : Buffer) :
      Reached d s (use (fun d => Reader.request d r) (e, work, buffer)).2.1

/-- What never changes about an endpoint. -/
structure Sound (d : Dialect) (s : Settings) (e : Endpoint) : Prop where
  settings : s.validate = .ok ()
  dialect : e.dialect = d
  memo : d.Reaches e.memo
  handler : e.pool.handler = Workspace.handler s

variable {α : Type} {d : Dialect} {s : Settings} {e : Endpoint}

theorem Sound.of_create (h : create d s = .ok e) : e.Sound d s := by
  unfold create at h
  cases hs : s.validate with
  | error f =>
      rw [hs] at h
      cases h
  | ok u =>
      rw [hs] at h
      cases h
      exact ⟨hs, rfl, .start, rfl⟩

theorem Reached.sound (h : e.Reached d s) : e.Sound d s := by
  induction h with
  | create h => exact Sound.of_create h
  | @acquire e _ ih => exact ⟨ih.settings, ih.dialect, ih.memo,
      (Pool.handler_acquire e.pool).trans ih.handler⟩
  | @release e _ work ih => exact ⟨ih.settings, ih.dialect, ih.memo,
      (Pool.handler_release e.pool work).trans ih.handler⟩
  | @write e _ f work buffer ih =>
      obtain ⟨hs, rfl, hmemo, hhandler⟩ := ih
      exact ⟨hs, rfl, Writer.reaches_field f (s := ⟨buffer, work, e.memo⟩) hmemo, hhandler⟩
  | @read e _ r work buffer ih =>
      obtain ⟨hs, rfl, hmemo, hhandler⟩ := ih
      refine ⟨hs, rfl, ?_, hhandler⟩
      show e.dialect.Reaches (Reader.request e.dialect r ⟨buffer, work, e.memo⟩).2.memo
      rw [Reader.memo_request]
      exact hmemo

def bench (e : Endpoint) (b : Buffer) : Bench := ⟨b, e.acquire.1, e.memo⟩

theorem perform_eq {act : Dialect → Action Bench α} {b : Buffer} {r : Except Failure α} {t : Bench}
    (h : act e.dialect (e.bench b) = (r, t)) :
    perform act (e, b) = (r, (perform act (e, b)).2.1, t.buffer) := by
  have hr : (perform act (e, b)).1 = (act e.dialect (e.bench b)).1 := rfl
  have hbuffer : (perform act (e, b)).2.2 = (act e.dialect (e.bench b)).2.buffer := rfl
  rw [h] at hr hbuffer
  exact Prod.ext hr (Prod.ext rfl hbuffer)

theorem Reached.writeInto (h : e.Reached d s) (field : String) (v : Value) (b : Buffer) :
    (Endpoint.writeInto field v (e, b)).2.1.Reached d s :=
  (h.acquire.write (.object field v) e.acquire.1 b).release _

theorem Reached.readFrom (h : e.Reached d s) (b : Buffer) :
    (Endpoint.read (e, b)).2.1.Reached d s :=
  (h.acquire.read (.object "value") e.acquire.1 b).release _

section Bench

variable (h : e.Sound d s) {b : Buffer} (hb : b.Live)

include h hb

theorem Sound.ready : Bench.Ready s.maxDepth (e.bench b) := by
  have hlent := Workspace.lent_acquire h.handler
  exact ⟨hb, hlent.scratch_pos h.settings, Nat.le_of_eq hlent.levels.symm⟩

theorem Sound.writable : Bench.Writable d s.maxDepth (e.bench b) := by
  have hlent := Workspace.lent_acquire h.handler
  exact ⟨hb, Nat.le_of_eq hlent.levels.symm, h.memo⟩

end Bench

end Wireform.Endpoint

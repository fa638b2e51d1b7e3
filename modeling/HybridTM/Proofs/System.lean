import HybridTM.Hybrid.Worker
import HybridTM.Proofs.Runs
import Mathlib.Logic.Function.Basic

/-!
# Workers on one runtime

Any number of workers make their steps on one runtime in any order. What the bodies ask for is
open, except that no body writes the mode word; and faults may be injected at any time.

How long a stretch takes is open too, as far as 64 bits go: the ticks of all stretches are read off
one 64-bit clock, so that the hardware ticks of a window and those of a stretch after them fit
(`Heuristic.HasRoom`). Sums of ticks that do not are the subject of `Proofs/CostSums.lean`.
-/

set_option autoImplicit false

namespace HybridTM

/-- A step that a worker is asked to make. -/
inductive Request where
  /-- Begin a call. -/
  | call
  /-- Begin to drop the worker. -/
  | retire
  /-- Move the tally into the store. -/
  | flush
  /-- Make the next step of the worker's own. -/
  | advance
  /-- End a measured stretch. -/
  | account (ticks : UInt64)
  /-- The body reads. -/
  | read (a : Addr) (mask : Mask)
  /-- The body writes. -/
  | write (a : Addr) (v : Word) (mask : Mask)
  /-- The body aborts its hardware region. -/
  | abort (code : UInt8)
  /-- The body returns. -/
  | endBody (result : Except TxError Word)
  /-- The body panics. -/
  | panic

/-- What the body learns from a step. -/
inductive Reply where
  /-- Nothing. -/
  | done
  /-- The result of a read. -/
  | read (result : Except TxError Word)
  /-- The result of a write. -/
  | wrote (result : Except TxError Unit)
  /-- The error of an abort. -/
  | aborted (err : TxError)

/-- A body leaves the mode word alone. -/
def Request.SparesMode : Request → Prop
  | .write a _ _ => a ≠ Runtime.modeAddr
  | _ => True

/-- The clock has room for the ticks of another stretch after those of the hardware window. -/
def Heuristic.HasRoom (h : Heuristic) (ticks : UInt64) : Prop :=
  h.hardware.commitTicks.toNat + h.hardware.abortTicks.toNat + ticks.toNat < UInt64.size

instance (h : Heuristic) (ticks : UInt64) : Decidable (h.HasRoom ticks) := Nat.decLt _ _

/-- One step of a worker. -/
def Worker.act (w : Worker) (r : Runtime) : Request → Option (Reply × Worker × Runtime)
  | .call => w.call.map fun w => (.done, w, r)
  | .retire => (w.retire r).map (.done, ·)
  | .flush => some (.done, w.flush r)
  | .advance => (completed (w.advance r)).map (.done, ·)
  | .account ticks =>
      if w.heuristic.HasRoom ticks then (completed (w.account r ticks)).map (.done, ·) else none
  | .read a mask => (w.read r a mask).map fun (result, w) => (.read result, w, r)
  | .write a v mask => (w.write r a v mask).map fun (result, w) => (.wrote result, w, r)
  | .abort code => (w.abort code).map fun (err, w) => (.aborted err, w, r)
  | .endBody result => (w.endBody result).map fun w => (.done, w, r)
  | .panic => (w.panic r).map (.done, ·)

namespace Worker

variable {w w' : Worker} {r r' : Runtime} {reply : Reply}

/-- A step that answers nothing is what it was asked for. -/
theorem eq_some_of_done {step : Option (Worker × Runtime)}
    (h : step.map (Reply.done, ·) = some (reply, w', r')) :
    reply = .done ∧ step = some (w', r') := by
  obtain ⟨wr, hstep, heq⟩ := Option.map_eq_some_iff.1 h
  obtain ⟨hreply, hwr⟩ := Prod.mk.inj heq
  exact ⟨hreply.symm, hstep.trans (congrArg some hwr)⟩

/-- A step of the worker's own did not overflow. -/
theorem advance_of_act (h : w.act r .advance = some (reply, w', r')) :
    reply = .done ∧ w.advance r = some (.ok (w', r')) :=
  (eq_some_of_done h).imp id eq_some_of_completed

/-- Nor did the end of a stretch, for whose ticks there was room. -/
theorem account_of_act {ticks : UInt64} (h : w.act r (.account ticks) = some (reply, w', r')) :
    w.heuristic.HasRoom ticks ∧ reply = .done ∧ w.account r ticks = some (.ok (w', r')) := by
  obtain ⟨room, hdone⟩ := Option.ite_none_right_eq_some.1 h
  exact ⟨room, (eq_some_of_done hdone).imp id eq_some_of_completed⟩

end Worker

/-- Workers on one runtime. -/
structure System (ι : Type) where
  /-- The shared state. -/
  runtime : Runtime
  /-- The workers. -/
  worker : ι → Worker

/-- A runtime as it is created. -/
def Runtime.Created (r : Runtime) : Prop :=
  ∃ backend config data metrics, Runtime.create backend config data metrics = .ok r

theorem Runtime.create_of_toOption {backend : Backend} {config : HybridConfig} {data : List Word}
    {metrics : Metrics} {r : Runtime}
    (h : (create backend config data metrics).toOption = some r) :
    create backend config data metrics = .ok r := by
  cases hr : create backend config data metrics with
  | error e =>
    rw [hr] at h
    cases h
  | ok r' =>
    rw [hr] at h
    rw [Option.some.inj h]

namespace System

variable {ι : Type} [DecidableEq ι]

/-- New workers on a runtime. -/
def start (r : Runtime) : System ι := ⟨r, fun _ => .new r⟩

/-- One step of one worker. -/
def act (s : System ι) (i : ι) (q : Request) : Option (Reply × System ι) :=
  ((s.worker i).act s.runtime q).map fun (reply, w, r) =>
    (reply, ⟨r, Function.update s.worker i w⟩)

/-- The worker makes the step. -/
theorem worker_of_act {s s' : System ι} {i : ι} {q : Request} {reply : Reply}
    (h : s.act i q = some (reply, s')) :
    (s.worker i).act s.runtime q = some (reply, s'.worker i, s'.runtime) := by
  obtain ⟨⟨reply', w, r⟩, hworker, heq⟩ := Option.map_eq_some_iff.1 h
  obtain ⟨rfl, rfl⟩ := Prod.mk.inj heq
  simp only [Function.update_self]
  exact hworker

/-- Other faults are injected. -/
def withFaults (s : System ι) (f : Faults → Faults) : System ι :=
  { s with runtime := { s.runtime with backend := s.runtime.backend.modifyFaults f } }

/-- A worker makes a step, or other faults are injected. -/
inductive Step (s : System ι) : System ι → Prop
  | act (i : ι) (q : Request) (spares : q.SparesMode) {reply : Reply} {s' : System ι}
      (acts : s.act i q = some (reply, s')) : Step s s'
  | faults (f : Faults → Faults) : Step s (s.withFaults f)

/-- The states that steps lead to from new workers on a runtime. -/
def Reachable (r : Runtime) (s : System ι) : Prop :=
  Relation.ReflTransGen Step (start r) s

/-- The state after steps in the given order, if all of them are possible. -/
def run (s : System ι) : List (ι × Request) → Option (System ι)
  | [] => some s
  | (i, q) :: steps => (s.act i q).bind fun (_, s') => s'.run steps

theorem steps_of_run {s s' : System ι} {steps : List (ι × Request)}
    (spares : ∀ x ∈ steps, x.2.SparesMode) (h : s.run steps = some s') :
    Relation.ReflTransGen Step s s' := by
  refine reflTransGen_of_allowed (fun _ => rfl) (fun s x steps s' hq h => ?_) spares h
  obtain ⟨⟨reply, s₁⟩, hact, hrest⟩ := Option.bind_eq_some_iff.1 h
  exact ⟨s₁, .act x.1 x.2 hq hact, hrest⟩

/-- What is computed of the end of a run holds of a reachable state. -/
theorem reachable_of_run {α : Type} {backend : Backend} {config : HybridConfig} {data : List Word}
    {metrics : Metrics} {steps : List (ι × Request)} (spares : ∀ x ∈ steps, x.2.SparesMode)
    {f : System ι → α} {v : α}
    (h : ((Runtime.create backend config data metrics).toOption.bind fun r =>
      ((start r).run steps).map f) = some v) :
    ∃ r s, Runtime.create backend config data metrics = .ok r ∧ Reachable r s ∧ f s = v := by
  obtain ⟨r, hcreate, hrun⟩ := Option.bind_eq_some_iff.1 h
  obtain ⟨s, hrun, hs⟩ := Option.map_eq_some_iff.1 hrun
  exact ⟨r, s, Runtime.create_of_toOption hcreate, steps_of_run spares hrun, hs⟩

end System

end HybridTM

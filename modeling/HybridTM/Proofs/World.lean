import HybridTM.Proofs.Program
import HybridTM.Proofs.System
import Mathlib.Data.Fintype.Basic

/-!
# Calls of programs

Workers on one runtime whose bodies are programs. Whenever an attempt at a call begins, its body may
be any program. The world keeps the last invocation of each worker's body and a record of the calls
that returned; no worker reads these.

The clock has 64 bits and does not come round: a step that would take it past its end does not
happen.
-/

set_option autoImplicit false

namespace HybridTM

/-! ## Invocations -/

namespace Program

/-- What a program asks its worker for next. -/
def request : Program → Request
  | .ret value => .endBody (.ok value)
  | .fail err => .endBody (.error err)
  | .panic => .panic
  | .read i mask _ => .read (Runtime.wordAddr i) mask
  | .write i v mask _ => .write (Runtime.wordAddr i) v mask
  | .abort code _ => .abort code

/-- What a program does after a reply. -/
def resume : Program → Reply → Program
  | .read _ _ next, .read result => next result
  | .write _ _ _ next, .wrote result => next result
  | .abort _ next, .aborted err => next err
  | p, _ => p

/-- The access that a reply completes. A write that fails is none. -/
def access : Program → Reply → List Access
  | .read i mask _, .read result => [.read (Runtime.wordAddr i) mask result]
  | .write i v mask _, .wrote (.ok _) => [.write (Runtime.wordAddr i) v mask]
  | _, _ => []

end Program

/-- An invocation of a body. -/
structure Invocation where
  /-- Where it runs. -/
  path : Path
  /-- What the body does. -/
  program : Program
  /-- What it accessed so far. -/
  trace : List Access
  /-- What is left to do. -/
  rest : Program

/-- A call that committed. -/
structure Completed (ι : Type) where
  /-- The worker. -/
  worker : ι
  /-- Where its final invocation ran. -/
  path : Path
  /-- What the body did in its final invocation. -/
  program : Program
  /-- How the reads of the final invocation failed. -/
  failures : List (Option TxError)
  /-- The value that the call returned. -/
  value : Word

namespace Invocation

/-- An invocation of a program before its first step. -/
def start (path : Path) (p : Program) : Invocation := ⟨path, p, [], p⟩

/-- The invocation after a reply. -/
def resume (I : Invocation) (reply : Reply) : Invocation :=
  { I with trace := I.trace ++ I.rest.access reply, rest := I.rest.resume reply }

/-- The invocation after a worker's own step to a phase. A step of this kind that leads to a running
body begins an invocation, of whatever program. -/
def afterOwn (I : Invocation) (q : Request) (p : Program) (phase : Phase) : Invocation :=
  match q, phase.path? with
  | .advance, some path => .start path p
  | _, _ => I

/-- The record of a call whose final invocation this is. -/
def completed {ι : Type} (I : Invocation) (i : ι) (value : Word) : Completed ι :=
  ⟨i, I.path, I.program, failures I.trace, value⟩

end Invocation

/-! ## The world -/

/-- The value of a call that has committed and not yet returned. -/
def Phase.pending? : Phase → Option Word
  | .hardware _ (.done (.ok value)) => some value
  | .measuring value => some value
  | .switching (.leave (.returned value)) _ => some value
  | .switching (.endEpoch (.returned value)) _ => some value
  | .switching (.unlock (.returned value)) _ => some value
  | _ => none

/-- The value that a call returns with a step to a phase. -/
def Phase.returns? (p : Phase) : Request → Option Word
  | .advance | .account _ => p.returned?
  | _ => none

/-- The requests that no body makes. -/
def Request.isOwn : Request → Bool
  | .call | .retire | .flush | .advance | .account _ => true
  | .read _ _ | .write _ _ _ | .abort _ | .endBody _ | .panic => false

/-- Workers on one runtime whose bodies are programs. -/
structure World (ι : Type) where
  /-- The workers and their runtime. -/
  system : System ι
  /-- The last invocation of the body of each worker. -/
  body : ι → Invocation
  /-- The calls that returned, oldest first. -/
  returned : List (Completed ι)

namespace World

variable {ι : Type} [DecidableEq ι]

/-- New workers on a runtime. -/
def start (r : Runtime) : World ι := ⟨.start r, fun _ => .start .hardware .panic, []⟩

/-- The memory. -/
def memory (w : World ι) : Memory := w.system.runtime.memory

/-- The clock. -/
def clock (w : World ι) : Clock := w.system.runtime.engine.clock

/-- The call of a worker that has committed and not yet returned. -/
def pending? (w : World ι) (i : ι) : Option (Completed ι) :=
  (w.system.worker i).phase.pending?.map ((w.body i).completed i)

/-- The calls that have committed and not yet returned. -/
noncomputable def underway [Fintype ι] (w : World ι) : List (Completed ι) :=
  Finset.univ.toList.filterMap w.pending?

/-- The world after a step of a worker that was asked for and that changed its invocation. -/
def after (w : World ι) (i : ι) (q : Request) (system : System ι) (I : Invocation) : World ι where
  system
  body := Function.update w.body i I
  returned := w.returned ++
    (((system.worker i).phase.returns? q).map ((w.body i).completed i)).toList

/-- The body of a worker makes its next step. -/
def stepBody (w : World ι) (i : ι) : Option (World ι) :=
  (w.system.act i (w.body i).rest.request).map fun (reply, system) =>
    w.after i (w.body i).rest.request system ((w.body i).resume reply)

/-- A worker makes a step of its own. If this begins an invocation, the body does as the program
says. -/
def stepOwn (w : World ι) (i : ι) (q : Request) (p : Program) : Option (World ι) :=
  if q.isOwn then
    (w.system.act i q).map fun (_, system) =>
      w.after i q system ((w.body i).afterOwn q p (system.worker i).phase)
  else
    none

/-- A body makes a step, or a worker makes a step of its own, or other faults are injected. The
clock does not come round. -/
inductive Step (w : World ι) : World ι → Prop
  | body (i : ι) {w' : World ι} (steps : w.stepBody i = some w')
      (room : w.clock.now ≤ w'.clock.now) : Step w w'
  | own (i : ι) (q : Request) (p : Program) {w' : World ι} (steps : w.stepOwn i q p = some w')
      (room : w.clock.now ≤ w'.clock.now) : Step w w'
  | faults (f : Faults → Faults) : Step w { w with system := w.system.withFaults f }

/-- The worlds that steps lead to from new workers on a runtime. -/
def Reachable (r : Runtime) (w : World ι) : Prop :=
  Relation.ReflTransGen Step (start r) w

/-! ## Worlds are systems -/

theorem sparesMode_request (p : Program) : p.request.SparesMode := by
  cases p with
  | write i v mask next =>
    show Runtime.wordAddr i ≠ Runtime.modeAddr
    simp [Runtime.wordAddr, HybridTM.wordAddr, Runtime.modeAddr]
  | _ => trivial

theorem sparesMode_of_isOwn {q : Request} (h : q.isOwn = true) : q.SparesMode := by
  cases q <;> trivial

theorem Step.system {w w' : World ι} (h : Step w w') : System.Step w.system w'.system := by
  cases h with
  | body i steps room =>
    obtain ⟨⟨reply, s⟩, hact, rfl⟩ := Option.map_eq_some_iff.1 steps
    exact .act i _ (sparesMode_request _) hact
  | own i q p steps room =>
    unfold stepOwn at steps
    split at steps
    · next hown =>
      obtain ⟨⟨reply, s⟩, hact, rfl⟩ := Option.map_eq_some_iff.1 steps
      exact .act i q (sparesMode_of_isOwn hown) hact
    · cases steps
  | faults f => exact .faults f

theorem Reachable.system {r : Runtime} {w : World ι} (h : Reachable r w) :
    System.Reachable r w.system := by
  induction h with
  | refl => exact .refl
  | tail _ hstep ih => exact .tail ih hstep.system

/-! ## Runs -/

/-- The world after steps in the given order, if all of them are possible: a step without a request
is one of the body. -/
def runSteps (w : World ι) : List (ι × Option (Request × Program)) → Option (World ι)
  | [] => some w
  | (i, step) :: steps =>
      (match step with
        | none => w.stepBody i
        | some (q, p) => w.stepOwn i q p).bind fun w' =>
          if w.clock.now ≤ w'.clock.now then w'.runSteps steps else none

theorem steps_of_runSteps {w w' : World ι} {steps : List (ι × Option (Request × Program))}
    (h : w.runSteps steps = some w') : Relation.ReflTransGen Step w w' := by
  refine reflTransGen_of_run (fun _ => rfl) (fun w x steps w' h => ?_) h
  obtain ⟨w₁, hstep, hrest⟩ := Option.bind_eq_some_iff.1 h
  split at hrest
  · next room =>
    obtain ⟨i, _ | ⟨q, p⟩⟩ := x
    · exact ⟨w₁, .body i hstep room, hrest⟩
    · exact ⟨w₁, .own i q p hstep room, hrest⟩
  · cases hrest

/-- What is computed of the end of a run holds of a reachable world. -/
theorem reachable_of_runSteps {α : Type} {backend : Backend} {config : HybridConfig}
    {data : List Word} {metrics : Metrics} {steps : List (ι × Option (Request × Program))}
    {f : Runtime → World ι → α} {v : α}
    (h : ((Runtime.create backend config data metrics).toOption.bind fun r =>
      ((start r).runSteps steps).map (f r)) = some v) :
    ∃ r w, Runtime.create backend config data metrics = .ok r ∧ Reachable r w ∧ f r w = v := by
  obtain ⟨r, hcreate, hrun⟩ := Option.bind_eq_some_iff.1 h
  obtain ⟨w, hrun, hw⟩ := Option.map_eq_some_iff.1 hrun
  exact ⟨r, w, Runtime.create_of_toOption hcreate, steps_of_runSteps hrun, hw⟩

end World

end HybridTM

import HybridTM.Hybrid.Worker
import HybridTM.Scenario.Script
import HybridTM.Scenario.Software

/-!
# Scenarios of a runtime

One thread drives several workers of a runtime. A script may change words and the mode
under its own attempt, drop other workers, and run calls of other workers to their end;
a commit hook does the same for a number of calls. Each call may have a helper that stands
by and changes the mode once somebody waits. Every measured stretch takes one tick.
-/

namespace HybridTM

/-- A change of the mode, which is made only in the mode that is expected. -/
structure ModeChange where
  /-- The expected mode. -/
  expected : ModeSnapshot
  /-- The mode after the change. -/
  next : ModeSnapshot

/-- An action beside an attempt of a worker. -/
inductive RuntimeAct where
  /-- Run a call of a worker to its end, with a helper that makes a change of the mode. -/
  | call (worker : Nat) (helper : Option ModeChange) (script : List (ScriptStep RuntimeAct))
  /-- Change the mode. -/
  | transition (change : ModeChange)
  /-- Look at the mode. -/
  | mode
  /-- Drop a worker. -/
  | dropWorker (worker : Nat)
  /-- Replace a worker by a new one. -/
  | newWorker (worker : Nat)
  /-- Store a word. -/
  | set (word : Nat) (v : Word)
  /-- Compare-and-swap a word through the backend. -/
  | exchange (word : Nat) (current new : Word)
  /-- Commit a separate software transaction that makes these writes. -/
  | commitOther (writes : List (Nat × Word × Mask))
  /-- Look at the clock. -/
  | clock

instance : Inhabited RuntimeAct := ⟨.mode⟩

/-- The result of an action. -/
inductive RuntimeActResult where
  /-- Nothing to report. -/
  | done
  /-- Whether the mode was changed. -/
  | swapped (changed : Bool)
  /-- The mode. -/
  | mode (s : ModeSnapshot)
  /-- What a compare-and-swap found. -/
  | exchanged (seen : Except Word Word)
  /-- How the separate transaction ended. -/
  | committed (result : Except TxError CommitKind)
  /-- The clock. -/
  | clock (c : Clock)
  /-- How a call ended, the traces of its attempts, and the worker after it. -/
  | called (ending : CallEnd) (traces : List (List (TraceEntry Path RuntimeActResult)))
      (worker : Option Worker)

/-- A script for a worker. -/
abbrev RuntimeScript := List (ScriptStep RuntimeAct)

/-- The trace of one attempt. -/
abbrev RuntimeTrace := List (TraceEntry Path RuntimeActResult)

/-- The state of a scenario of a runtime. -/
structure RuntimeScene where
  /-- The runtime. -/
  runtime : Runtime
  /-- The workers; `none` stands for a dropped one. -/
  workers : Array (Option Worker)
  /-- The calls of the hook that still do something. -/
  hookCalls : Nat
  /-- What the hook does. -/
  hookActs : List RuntimeAct
  /-- The helpers of the calls that run, the innermost call first; `none` stands for a
  helper that made its change, and for a call without one. -/
  helpers : List (Option ModeChange)

namespace RuntimeScene

/-- A scenario with new workers. -/
def new (r : Runtime) (workers : Nat) : RuntimeScene :=
  ⟨r, Array.replicate workers (some (.new r)), 0, [], []⟩

/-- The scenario with a worker in its place. -/
def put (i : Nat) (w : Worker) (s : RuntimeScene) : RuntimeScene :=
  { s with workers := s.workers.setIfInBounds i (some w) }

/-- Let a worker take a step. -/
def step {α : Type} (i : Nat) (f : Worker → Runtime → Option (α × Worker × Runtime)) :
    Scene RuntimeScene α := fun s => do
  let w ← s.workers.getD i none
  let (a, w, runtime) ← f w s.runtime
  some (a, { s with runtime }.put i w)

/-- Let a worker take a step that answers nothing. -/
def stepOnly (i : Nat) (f : Worker → Runtime → Option (Worker × Runtime)) :
    Scene RuntimeScene Unit :=
  step i fun w r => (f w r).map fun (w, r) => ((), w, r)

/-! ## Dropping workers -/

/-- Let a worker that retires come to rest. -/
def settle : (fuel : Nat) → Worker → Runtime → Runtime
  | 0, _, r => r
  | fuel + 1, w, r =>
      match Worker.completed (w.advance r) with
      | none => r
      | some (w, r) => settle fuel w r

/-- Drop a worker, if it is still there. -/
def dropWorker (i : Nat) (s : RuntimeScene) : RuntimeScene :=
  match s.workers.getD i none with
  | none => s
  | some w =>
      let runtime := match w.retire s.runtime with
        | none => s.runtime
        | some (w, r) => settle sceneFuel w r
      { s with runtime, workers := s.workers.setIfInBounds i none }

/-! ## Helpers -/

/-- Let the first helper change the mode that finds the mode it expects. -/
def releaseFirst? (r : Runtime) :
    List (Option ModeChange) → Option (Runtime × List (Option ModeChange))
  | [] => none
  | helper :: rest =>
      match helper.filter (·.expected = r.mode) with
      | some change => some ((r.transition change.expected change.next).2, none :: rest)
      | none => (releaseFirst? r rest).map fun (r, rest) => (r, helper :: rest)

/-- Let a helper change the mode. The result says whether one did. -/
def release : Scene RuntimeScene Bool := fun s =>
  match releaseFirst? s.runtime s.helpers with
  | none => some (false, s)
  | some (runtime, helpers) => some (true, { s with runtime, helpers })

/-- Dismiss the helper of the innermost call. If nobody waited for it, it acts now. -/
def dismissHelper (s : RuntimeScene) : RuntimeScene :=
  let runtime := ((releaseFirst? s.runtime (s.helpers.take 1)).map (·.1)).getD s.runtime
  { s with runtime, helpers := s.helpers.tail }

/-- Run a call with a helper. -/
def withHelper {α : Type} (helper : Option ModeChange) (call : Scene RuntimeScene α) :
    Scene RuntimeScene α := do
  modify fun s => { s with helpers := helper :: s.helpers }
  let a ← call
  modify dismissHelper
  return a

/-! ## Running scripts -/

/-- What a script can do in an attempt of a worker. -/
def access (i : Nat) (act : RuntimeAct → Scene RuntimeScene RuntimeActResult) :
    ScriptAccess RuntimeScene Path RuntimeAct RuntimeActResult where
  read word mask := step i fun w r =>
    (w.read r (Runtime.wordAddr word) mask).map fun (result, w) => (result, w, r)
  write word v mask := step i fun w r =>
    (w.write r (Runtime.wordAddr word) v mask).map fun (result, w) => (result, w, r)
  abort code := step i fun w r =>
    match w.abort code with
    | none => some (.hardware (.explicit code), w, r)
    | some (err, w) => some (err, w, r)
  inspect := step i fun w r => w.path?.map fun p => (p, w, r)
  -- A panic in a call of another worker ends that call and goes no further.
  act action := return .ended (← act action)

/-- Act beside an attempt; `call` runs a call of another worker. -/
def actWith (call : Nat → RuntimeScript → Scene RuntimeScene RuntimeActResult) :
    RuntimeAct → Scene RuntimeScene RuntimeActResult
  | .call worker helper script => withHelper helper (call worker script)
  | .transition change => do
      let s ← get
      let (swapped, runtime) := s.runtime.transition change.expected change.next
      set { s with runtime }
      return .swapped swapped
  | .mode => return .mode (← get).runtime.mode
  | .dropWorker worker => do
      modify (dropWorker worker)
      return .done
  | .newWorker worker => do
      let w := Worker.new (← get).runtime
      modify (put worker w ∘ dropWorker worker)
      return .done
  | .set word v => do
      modify fun s =>
        { s with
          runtime := s.runtime.withMemory (s.runtime.memory.write (Runtime.wordAddr word) v) }
      return .done
  | .exchange word current new => do
      let s ← get
      let (seen, runtime) := s.runtime.compareExchange (Runtime.wordAddr word) current new
      set { s with runtime }
      return .exchanged seen
  | .commitOther writes => fun s =>
      (s.runtime.engine.commitOther Runtime.wordAddr writes).map fun (result, engine) =>
        (.committed result, { s with runtime := { s.runtime with engine } })
  | .clock => return .clock (← get).runtime.engine.clock

/-- Run the hook. -/
def runHook (act : RuntimeAct → Scene RuntimeScene RuntimeActResult) :
    Scene RuntimeScene Unit := do
  let s ← get
  if s.hookCalls = 0 then
    return
  else
    set { s with hookCalls := s.hookCalls - 1 }
    s.hookActs.forM fun action => discard (act action)

/-- End the body of a worker. -/
def endBody (i : Nat) : BodyEnd → Scene RuntimeScene Unit
  | .panicked => stepOnly i fun w r => w.panic r
  | .returned result => stepOnly i fun w r => (w.endBody result).map fun w => (w, r)

mutual

/-- Run a script on the call that a worker has begun, until it is at rest. -/
def runCall (i : Nat) (script : RuntimeScript) :
    (fuel attempt : Nat) → Scene RuntimeScene (CallEnd × List RuntimeTrace)
  | 0, _ => fun _ => none
  | fuel + 1, attempt => do
      match (← get).workers.getD i none with
      | none => return (.absent, [])
      | some w =>
          match w.phase with
          | .resting (some (.returned value)) => return (.returned (.ok value), [])
          | .resting _ => return (.panicked, [])
          | .measuring _ | .hardware _ (.done _) =>
              stepOnly i fun w r => Worker.completed (w.account r 1)
              runCall i script fuel attempt
          | phase =>
              if w.path?.isSome then
                let (ending, trace) ←
                  (access i (actWith fun j script => call j script fuel)).run
                    (attempt + 1) script 0
                endBody i ending
                let (ending, traces) ← runCall i script fuel (attempt + 1)
                return (ending, trace :: traces)
              else
                if phase matches .hardware _ (.hook ..) then
                  runHook (actWith fun j script => call j script fuel)
                let s ← get
                match Worker.completed (w.advance s.runtime) with
                | some (w, runtime) =>
                    set ({ s with runtime }.put i w)
                    runCall i script fuel attempt
                -- The worker waits; only a helper can change that.
                | none => if ← release then runCall i script fuel attempt else fun _ => none

/-- Run a script as a call of a worker. -/
def call (i : Nat) (script : RuntimeScript) :
    (fuel : Nat) → Scene RuntimeScene RuntimeActResult
  | 0 => fun _ => none
  | fuel + 1 => do
      match (← get).workers.getD i none with
      | none => return .called .absent [] none
      | some _ =>
          stepOnly i fun w r => w.call.map fun w => (w, r)
          let (ending, traces) ← runCall i script fuel 0
          return .called ending traces ((← get).workers.getD i none)

end

/-- Act in a scenario. -/
def act (action : RuntimeAct) : Scene RuntimeScene RuntimeActResult :=
  actWith (fun worker script => call worker script sceneFuel) action

end RuntimeScene

end HybridTM

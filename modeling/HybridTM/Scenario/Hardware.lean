import HybridTM.Hardware.Execution
import HybridTM.Scenario.Script

/-!
# Scenarios of hardware regions

One thread runs scripts as hardware regions over a row of words. A script may change words
under its own region, also by running another region to its end, and a commit hook changes
words for a number of calls. A panic in the other region unwinds the script that runs it.
-/

namespace HybridTM

/-- A change of a word by another agent. -/
inductive WordAct where
  /-- Store a word. -/
  | set (word : Nat) (v : Word)
  /-- Compare-and-swap a word through the backend. -/
  | exchange (word : Nat) (current new : Word)

/-- The result of a change of a word. -/
inductive WordActResult where
  /-- Nothing to report. -/
  | done
  /-- What a compare-and-swap found. -/
  | exchanged (seen : Except Word Word)

/-- An action beside a region. -/
inductive HardwareAct where
  /-- Change a word. -/
  | word (action : WordAct)
  /-- Run another region to its end. -/
  | execute (script : List (ScriptStep WordAct))

/-- The result of running a script as a region: how it ended, and the trace of its body if
the body ran. -/
structure ExecutionReport (β : Type) where
  /-- How the execution ended. -/
  ending : BodyEnd
  /-- The trace of the body. -/
  traces : List (List (TraceEntry Unit β))

/-- The result of an action beside a region. -/
inductive HardwareActResult where
  /-- The result of a change of a word. -/
  | word (result : WordActResult)
  /-- What the other region returned, and the trace of its body. -/
  | executed (result : Except TxError Word)
      (traces : List (List (TraceEntry Unit WordActResult)))

/-- The state of a scenario of hardware regions. -/
structure HardwareScene where
  /-- The backend. -/
  backend : Backend
  /-- The memory. -/
  memory : Memory
  /-- The calls of the hook that still do something. -/
  hookCalls : Nat
  /-- What the hook does. -/
  hookActs : List WordAct
  /-- The region that runs. -/
  region : Option Region

namespace HardwareScene

/-- A scenario before any region. -/
def new (backend : Backend) (ws : List Word) : HardwareScene :=
  ⟨backend, .ofWords ws, 0, [], none⟩

/-- Change a word. -/
def actOnWord : WordAct → Scene HardwareScene WordActResult
  | .set word v => do
      modify fun s => { s with memory := s.memory.write (wordAddr word) v }
      return .done
  | .exchange word current new => do
      let s ← get
      let (seen, backend, memory) :=
        s.backend.compareExchange s.memory (wordAddr word) current new
      set { s with backend, memory }
      return .exchanged seen

/-- Run the hook. -/
def runHook : Scene HardwareScene Unit := do
  let s ← get
  if s.hookCalls = 0 then
    return
  else
    set { s with hookCalls := s.hookCalls - 1 }
    s.hookActs.forM fun action => discard (actOnWord action)

/-- Let the region that runs do something. -/
def withRegion {α : Type} (f : Region → Backend → Memory → α × Region) :
    Scene HardwareScene α := fun s =>
  s.region.map fun r =>
    let (a, r) := f r s.backend s.memory
    (a, { s with region := some r })

/-- What a script can do in its region. -/
def access {α β : Type} (act : α → Scene HardwareScene (ActEnd β)) :
    ScriptAccess HardwareScene Unit α β where
  read word mask :=
    withRegion fun r b m =>
      let (result, r) := b.read r m (wordAddr word) mask
      (result.mapError .hardware, r)
  write word v mask :=
    withRegion fun r b _ =>
      let (result, r) := b.write r (wordAddr word) v mask
      (result.mapError .hardware, r)
  abort code :=
    withRegion fun r _ _ =>
      let (abort, r) := r.abort code
      (.hardware abort, r)
  inspect := return ()
  act := act

/-- Run a script as a region to its end. -/
def runExecution {α β : Type} (act : α → Scene HardwareScene (ActEnd β))
    (script : List (ScriptStep α)) :
    (fuel : Nat) → Execution → Scene HardwareScene (ExecutionReport β)
  | 0, _ => fun _ => none
  | _ + 1, .done result => return ⟨.returned (result.mapError .hardware), []⟩
  | fuel + 1, .running r => do
      modify fun s => { s with region := some r }
      let (ending, trace) ← (access act).run 1 script 0
      match ending, (← get).region with
      | .returned result, some r =>
          let report ← runExecution act script fuel (.endBody r result)
          return { report with traces := trace :: report.traces }
      | _, _ => return ⟨.panicked, [trace]⟩
  | fuel + 1, x => do
      if x matches .hook .. then runHook
      let s ← get
      match x.advance s.backend s.memory with
      | none => fun _ => none
      | some (x, backend, memory) =>
          set { s with backend, memory }
          runExecution act script fuel x

/-- Act beside a region. -/
def act : HardwareAct → Scene HardwareScene (ActEnd HardwareActResult)
  | .word action => return .ended (.word (← actOnWord action))
  | .execute script => do
      let outer := (← get).region
      let report ←
        runExecution (fun action => return .ended (← actOnWord action)) script sceneFuel .starting
      modify fun s => { s with region := outer }
      match report.ending with
      | .returned result => return .ended (.executed result report.traces)
      | .panicked => return .panicked

/-- Run a script as a region. -/
def execute (script : List (ScriptStep HardwareAct)) :
    Scene HardwareScene (ExecutionReport HardwareActResult) :=
  runExecution act script sceneFuel .starting

end HardwareScene

end HybridTM

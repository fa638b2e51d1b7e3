import HybridTM.Scenario.Script
import HybridTM.Software.Call

/-!
# Scenarios of the software engine

One thread drives an engine with several transactions and thread contexts. A helper may
stand by that releases the clock once somebody waits for it.
-/

namespace HybridTM

/-- The state of a scenario of the software engine. -/
structure SoftwareScene where
  /-- The engine. -/
  engine : Engine
  /-- The metrics store that contexts flush into. -/
  metrics : Metrics
  /-- The transactions; `none` stands for a dropped one. -/
  txs : Array (Option Transaction)
  /-- The thread contexts. -/
  contexts : Array Context
  /-- The value at which a helper will release the clock. -/
  helper : Option Timestamp
  /-- The call that runs. -/
  call : Call

/-- An action beside an attempt of the engine. -/
inductive SoftwareAct where
  /-- Store a word without a transaction. -/
  | set (word : Nat) (v : Word)
  /-- Commit a separate transaction that makes these writes. -/
  | commitOther (writes : List (Nat × Word × Mask))
  /-- Look at the clock. -/
  | clock

/-- The result of an action. -/
inductive SoftwareActResult where
  /-- Nothing to report. -/
  | done
  /-- How the separate transaction ended. -/
  | committed (result : Except TxError CommitKind)
  /-- The clock. -/
  | clock (c : Clock)

/-- Commit a separate transaction that makes the given writes. If it fails it is
dropped. -/
def Engine.commitOther (e : Engine) (addr : Nat → Addr) (writes : List (Nat × Word × Mask)) :
    Option (Except TxError CommitKind × Engine) := do
  let tx := writes.foldl (fun tx (word, v, mask) => tx.write (addr word) v mask)
    ((Transaction.idle e.clock).begin e.clock)
  let (result, tx, shared) ← tx.commit e.shared
  some (result, { e with shared }.dropTransaction tx)

namespace SoftwareScene

/-- A scenario with idle transactions and fresh contexts. -/
def new (config : SoftwareConfig) (ws : List Word) (txs contexts : Nat) : SoftwareScene :=
  let engine := Engine.new config (.ofWords ws)
  { engine
    metrics := .empty
    txs := Array.replicate txs (some (.idle engine.clock))
    contexts := Array.replicate contexts engine.newContext
    helper := none
    call := .new engine.clock }

/-- Let the helper release the clock, if there is one. -/
def release (s : SoftwareScene) : SoftwareScene :=
  match s.helper with
  | none => s
  | some lockedAt =>
      { s with helper := none, engine := s.engine.withClock (s.engine.clock.unlock lockedAt) }

/-- Take a step that may have to wait for the clock. -/
def await {α : Type} (f : SoftwareScene → Option (α × SoftwareScene)) :
    Scene SoftwareScene α := fun s =>
  match f s with
  | some result => some result
  | none => if s.helper.isSome then f s.release else none

/-- Act beside an attempt. -/
def act : SoftwareAct → Scene SoftwareScene SoftwareActResult
  | .set word v => do
      modify fun s =>
        { s with engine := s.engine.withMemory (s.engine.memory.write (wordAddr word) v) }
      return .done
  | .commitOther writes =>
      await fun s => (s.engine.commitOther wordAddr writes).map fun (result, engine) =>
        (.committed result, { s with engine })
  | .clock => return .clock (← get).engine.clock

/-- What a script can do in an attempt of the call that runs. -/
def access : ScriptAccess SoftwareScene Transaction SoftwareAct SoftwareActResult where
  read word mask := await fun s =>
    (s.call.read s.engine (wordAddr word) mask).map fun (result, call) =>
      (result, { s with call })
  write word v mask := do
    modify fun s => { s with call := s.call.write (wordAddr word) v mask }
    return .ok ()
  abort code := return .hardware (.explicit code)
  inspect := return (← get).call.tx
  act action := return .ended (← act action)

/-- A script for the engine. -/
abbrev SoftwareScript := List (ScriptStep SoftwareAct)

/-- The trace of one attempt. -/
abbrev SoftwareTrace := List (TraceEntry Transaction SoftwareActResult)

/-! ## Calls -/

/-- Run a step with a context. -/
def withContext {α : Type} (context : Nat)
    (f : Context → SoftwareScene → Option (α × Context × SoftwareScene)) :
    Scene SoftwareScene α :=
  await fun s => do
    let c ← s.contexts[context]?
    let (a, c, s) ← f c s
    some (a, { s with contexts := s.contexts.setIfInBounds context c })

/-- Run a script on a call until an attempt commits or the script panics. -/
def runCall (context : Nat) (script : SoftwareScript) :
    (fuel attempt : Nat) → Scene SoftwareScene (CallEnd × List SoftwareTrace)
  | 0, _ => fun _ => none
  | fuel + 1, attempt => do
      match (← get).call.stage with
      | .running =>
          let (ending, trace) ← access.run (attempt + 1) script 0
          match ending with
          | .panicked =>
              modify fun s => { s with engine := s.engine.dropTransaction s.call.tx }
              return (.panicked, [trace])
          | .returned result =>
              modify fun s => { s with call := s.call.endBody result }
              let (ending, traces) ← runCall context script fuel (attempt + 1)
              return (ending, trace :: traces)
      | _ =>
          let progress ← withContext context fun c s =>
            (s.call.advance false c s.engine).map fun (progress, c, engine) =>
              (progress, c, { s with engine })
          match progress with
          | .committed value => return (.returned (.ok value), [])
          | .going call =>
              modify fun s => { s with call }
              runCall context script fuel attempt

/-- Run a script atomically. -/
def atomically (context : Nat) (script : SoftwareScript) :
    Scene SoftwareScene (CallEnd × List SoftwareTrace) := do
  modify fun s => { s with call := .new s.engine.clock }
  runCall context script sceneFuel 0

/-! ## Single attempts -/

/-- Replace a transaction, dropping the old one. -/
def replace (i : Nat) (tx : Option Transaction) (s : SoftwareScene) : SoftwareScene :=
  let engine := match s.txs.getD i none with
    | none => s.engine
    | some old => s.engine.dropTransaction old
  { s with engine, txs := s.txs.setIfInBounds i tx }

/-- Put back the transaction of the call. -/
def keep (i : Nat) (s : SoftwareScene) : SoftwareScene :=
  { s with txs := s.txs.setIfInBounds i (some s.call.tx) }

/-- Roll the attempt back. -/
def abortAttempt (context : Nat) (err : TxError) : Scene SoftwareScene (Except TxError Word) :=
  withContext context fun c s =>
    let (reported, c, tx, engine) := s.engine.abort c s.call.tx err
    some (.error reported, c, { s with engine, call := { s.call with tx } })

/-- Commit the attempt, or roll it back. -/
def commitAttempt (context : Nat) (value : Word) :
    Scene SoftwareScene (Except TxError Word) := do
  let result ← withContext context fun c s => do
    let (result, c, tx, engine) ← s.engine.commit c s.call.tx
    some (result, c, { s with engine, call := { s.call with tx } })
  match result with
  | .ok _ => return .ok value
  | .error err => abortAttempt context err

/-- Run one attempt of a script on a transaction. A panic leaves the transaction as it
is. -/
def attempt (alone : Bool) (context i : Nat) (script : SoftwareScript) :
    Scene SoftwareScene (CallEnd × List SoftwareTrace) := do
  match (← get).txs.getD i none with
  | none => return (.absent, [])
  | some tx =>
      modify fun s => { s with call := ⟨tx, .starting⟩ }
      withContext context fun c s =>
        (s.call.start alone c s.engine).map fun (call, engine) => ((), c, { s with call, engine })
      let (ending, trace) ← access.run 1 script 0
      match ending with
      | .panicked =>
          modify (keep i)
          return (.panicked, [trace])
      | .returned result =>
          let result ← match result with
            | .ok value => commitAttempt context value
            | .error err => abortAttempt context err
          modify (keep i)
          return (.returned result, [trace])

end SoftwareScene

end HybridTM

import HybridTM.Abort
import HybridTM.Word

/-!
# Scripted bodies

A script is a body as a list of steps: accesses, errors, and actions beside the attempt by
which it stages what other agents do meanwhile. A step may be limited to some attempts of
the call, so that a body fails first and succeeds later. Running a script leaves a trace
of what its steps came to; a panic ends the body at once and leaves no entry.

Scenarios run in one thread. A computation of a scenario is stuck when it would wait and
nobody is left to end the waiting.
-/

namespace HybridTM

/-- A computation on the state of a scenario; no result if it is stuck. -/
abbrev Scene (σ : Type) := StateT σ Option

/-- What a step of a script does; it may act beside the attempt by actions of type `α`. -/
inductive ScriptAct (α : Type) where
  /-- Read a word. -/
  | read (word : Nat) (mask : Mask)
  /-- Write a word. -/
  | write (word : Nat) (v : Word) (mask : Mask)
  /-- Write the value that was read last. -/
  | writeLast (word : Nat) (mask : Mask)
  /-- Read a word and write the sum of it and `v`. -/
  | add (word : Nat) (v : Word) (mask : Mask)
  /-- Abort with a code. -/
  | abort (code : UInt8)
  /-- Fail with an error. -/
  | fail (err : TxError)
  /-- Panic. -/
  | panic
  /-- Look at the attempt. -/
  | inspect
  /-- Act beside the attempt. -/
  | beside (action : α)

/-- A step of a script. -/
structure ScriptStep (α : Type) where
  /-- What the step does. -/
  act : ScriptAct α
  /-- The attempts on which it runs, counted from one; all of them if none is named. -/
  attempts : List Nat
  /-- Whether the body goes on after an error of the step. -/
  swallow : Bool

/-- An entry of a trace; `ι` describes attempts and `β` results of actions. -/
inductive TraceEntry (ι β : Type) where
  /-- A value that was read. -/
  | value (v : Word)
  /-- An error. -/
  | error (err : TxError)
  /-- A look at the attempt. -/
  | view (i : ι)
  /-- The result of an action. -/
  | beside (r : β)

/-- How a body ended. -/
inductive BodyEnd where
  /-- It returned a value or an error. -/
  | returned (result : Except TxError Word)
  /-- It panicked. -/
  | panicked

/-- How an action beside an attempt ended. -/
inductive ActEnd (β : Type) where
  /-- It came to a result. -/
  | ended (result : β)
  /-- It panicked, and the panic unwinds the body as well. -/
  | panicked

/-- How a call of a scripted body ended. -/
inductive CallEnd where
  /-- It returned a value or an error. -/
  | returned (result : Except TxError Word)
  /-- The body panicked. -/
  | panicked
  /-- There was nobody to make the call. -/
  | absent

/-- What a script can do in its attempt and beside it. -/
structure ScriptAccess (σ ι α β : Type) where
  /-- Read. -/
  read : Nat → Mask → Scene σ (Except TxError Word)
  /-- Write. -/
  write : Nat → Word → Mask → Scene σ (Except TxError Unit)
  /-- Abort; the result is the error that the body gets. -/
  abort : UInt8 → Scene σ TxError
  /-- Look at the attempt. -/
  inspect : Scene σ ι
  /-- Act beside the attempt. -/
  act : α → Scene σ (ActEnd β)

/-- What a step came to: its entries, the value read last, and its fault; a fault without
an error is a panic. -/
structure StepEnd (ι β : Type) where
  /-- The entries. -/
  entries : List (TraceEntry ι β)
  /-- The value read last. -/
  last : Word
  /-- The fault. -/
  fault : Option (Option TxError)

namespace StepEnd

variable {ι β : Type}

/-- A step that left entries. -/
def fine (last : Word) (entries : List (TraceEntry ι β)) : StepEnd ι β := ⟨entries, last, none⟩

/-- A step that failed. -/
def failed (last : Word) (err : TxError) : StepEnd ι β := ⟨[.error err], last, some (some err)⟩

/-- A step that panicked. -/
def panicked (last : Word) : StepEnd ι β := ⟨[], last, some none⟩

/-- A step that wrote. -/
def ofWrite (last : Word) (entries : List (TraceEntry ι β)) (result : Except TxError Unit) :
    StepEnd ι β :=
  match result with
  | .ok _ => fine last entries
  | .error err => ⟨entries ++ [.error err], last, some (some err)⟩

end StepEnd

namespace ScriptAccess

variable {σ ι α β : Type}

/-- Run one step. -/
def runStep (access : ScriptAccess σ ι α β) (last : Word) : ScriptAct α → Scene σ (StepEnd ι β)
  | .read word mask => do
      match ← access.read word mask with
      | .ok v => return .fine v [.value v]
      | .error err => return .failed last err
  | .write word v mask => return .ofWrite last [] (← access.write word v mask)
  | .writeLast word mask => return .ofWrite last [] (← access.write word last mask)
  | .add word v mask => do
      match ← access.read word mask with
      | .ok old => return .ofWrite old [.value old] (← access.write word (old + v) mask)
      | .error err => return .failed last err
  | .abort code => return .failed last (← access.abort code)
  | .fail err => return .failed last err
  | .panic => return .panicked last
  | .inspect => return .fine last [.view (← access.inspect)]
  | .beside action => do
      match ← access.act action with
      | .ended r => return .fine last [.beside r]
      | .panicked => return .panicked last

/-- Run a script on the attempt of the given number, after the value read last. -/
def run (access : ScriptAccess σ ι α β) (attempt : Nat) :
    List (ScriptStep α) → Word → Scene σ (BodyEnd × List (TraceEntry ι β))
  | [], last => return (.returned (.ok last), [])
  | step :: rest, last => do
      if step.attempts.isEmpty || step.attempts.contains attempt then
        let came ← access.runStep last step.act
        match came.fault with
        | some none => return (.panicked, came.entries)
        | some (some err) =>
            if step.swallow then
              let (ending, entries) ← access.run attempt rest came.last
              return (ending, came.entries ++ entries)
            else
              return (.returned (.error err), came.entries)
        | none =>
            let (ending, entries) ← access.run attempt rest came.last
            return (ending, came.entries ++ entries)
      else
        access.run attempt rest last

end ScriptAccess

/-- The number of steps after which a scenario is given up. -/
def sceneFuel : Nat := 1000000

end HybridTM

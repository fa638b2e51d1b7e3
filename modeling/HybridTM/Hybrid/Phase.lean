import HybridTM.Hardware.Execution
import HybridTM.Mode
import HybridTM.Software.Call

/-!
# Phases of a worker

What a worker is in the middle of. A call goes around `dispatch` until its body has
committed somewhere: in a hardware region, in the software engine as part of an epoch, or
alone under the global lock. Every change of the mode word on the way is an errand of
three steps, which load the word, swap it and, if the mode changed, show it on the gauge.
-/

namespace HybridTM

/-- Where a body runs. -/
inductive Path where
  /-- In a hardware region. -/
  | hardware
  /-- In an optimistic software transaction. -/
  | software
  /-- In a software transaction that holds the clock. -/
  | serial
  /-- Alone under the global lock. -/
  | glock
  deriving DecidableEq, Repr

namespace Path

/-- The wording of a path. -/
def message : Path → String
  | .hardware => "hardware"
  | .software => "software"
  | .serial => "serial"
  | .glock => "glock"

/-- The diagnostic text of a path. -/
def text : Path → String
  | .hardware => "Hardware"
  | .software => "Software"
  | .serial => "Serial"
  | .glock => "Glock"

/-- The path of a software transaction in a role. -/
def ofRole : Role → Path
  | .readOnly | .readWrite => .software
  | .serial => .serial
  | .exclusive => .glock

end Path

/-- How the last activity of a worker ended. -/
inductive Ending where
  /-- A call returned a value. -/
  | returned (value : Word)
  /-- A body panicked and the call was unwound. -/
  | unwound
  /-- The worker was dropped. -/
  | retired
  deriving DecidableEq, Repr

/-- What a change of the mode word is for. While a call is not yet committed, it carries
the failures in hardware so far, and afterwards its ending. -/
inductive Errand where
  /-- Register for an epoch of the worker's own. -/
  | register (failures : UInt32)
  /-- Turn the runtime to software. -/
  | flip (failures : UInt32)
  /-- Join the epoch of another worker. -/
  | join (failures : UInt32)
  /-- Take the global lock. -/
  | lock (failures : UInt32)
  /-- Leave the epoch that was joined. -/
  | leave (ending : Ending)
  /-- End the worker's own epoch. -/
  | endEpoch (ending : Ending)
  /-- Give the global lock back. -/
  | unlock (ending : Ending)
  deriving DecidableEq, Repr

/-- How far an errand has come. -/
inductive SwapStage where
  /-- The word is about to be loaded. -/
  | load
  /-- The word is about to be swapped. -/
  | swap (seen next : ModeSnapshot)
  /-- The word was swapped and the new mode is about to be shown. -/
  | announce (seen next : ModeSnapshot)
  deriving DecidableEq, Repr

/-- What entitles a software call to run. -/
inductive Place where
  /-- The worker's own epoch. -/
  | epoch
  /-- An epoch that the worker joined. -/
  | joined
  /-- The global lock. -/
  | lock
  deriving DecidableEq, Repr

/-- What a worker is in the middle of. -/
inductive Phase where
  /-- Nothing, after the given ending. -/
  | resting (last : Option Ending)
  /-- A call that is about to choose its path, after so many failures in hardware. -/
  | dispatch (failures : UInt32)
  /-- A region that has not yet read the mode word. -/
  | checking (failures : UInt32) (r : Region)
  /-- A hardware execution. Once it is done its cost is to be accounted for. -/
  | hardware (failures : UInt32) (x : Execution)
  /-- A change of the mode word. -/
  | switching (errand : Errand) (stage : SwapStage)
  /-- A call of the software engine. -/
  | software (place : Place) (call : Call)
  /-- A commit of the worker's own epoch whose cost is to be accounted for. -/
  | measuring (value : Word)

/-- The path of the body that is running. -/
def Phase.path? : Phase → Option Path
  | .hardware _ (.running _) => some .hardware
  | .software _ ⟨tx, .running⟩ => some (.ofRole tx.role)
  | _ => none

/-- The value that the last call returned. -/
def Phase.returned? : Phase → Option Word
  | .resting (some (.returned value)) => some value
  | _ => none

/-- What an errand makes of the contents of the mode word, if it applies to them. -/
def Errand.change? : Errand → ModeSnapshot → Option ModeSnapshot
  | .register _ => ModeSnapshot.enterDeferred?
  | .flip _ => ModeSnapshot.flipToSoftware?
  | .join _ => ModeSnapshot.enterUndeferred?
  | .lock _ => ModeSnapshot.acquireLock?
  | .leave _ => ModeSnapshot.leaveUndeferred?
  | .endEpoch _ => ModeSnapshot.leaveDeferred?
  | .unlock _ => fun s => if s = .locked then some .initial else none

/-- Whether an errand starts over when another agent was faster. The others give up after
one swap. -/
def Errand.isPersistent : Errand → Bool
  | .register _ | .flip _ | .leave _ | .endEpoch _ => true
  | .join _ | .lock _ | .unlock _ => false

end HybridTM

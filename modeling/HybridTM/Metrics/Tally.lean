import HybridTM.Abort
import HybridTM.Metrics.Store

/-!
# Event tallies

Each thread counts its own commits, aborts and mode switches in a tally and moves the
counts into the shared store now and then. All counts wrap at 64 bits.
-/

namespace HybridTM

/-- The events that one thread has counted and not yet flushed. -/
structure Tally where
  /-- Hardware commits. -/
  commitsHardware : UInt64 := 0
  /-- Optimistic software commits. -/
  commitsSoftware : UInt64 := 0
  /-- Software commits that held the clock throughout. -/
  commitsSerial : UInt64 := 0
  /-- Commits under the global lock. -/
  commitsGlock : UInt64 := 0
  /-- Optimistic software commits without writes; they count above as well. -/
  commitsReadOnly : UInt64 := 0
  /-- Validation failures. -/
  abortsValidation : UInt64 := 0
  /-- Hardware conflicts. -/
  abortsConflict : UInt64 := 0
  /-- Hardware capacity overflows. -/
  abortsCapacity : UInt64 := 0
  /-- Explicit hardware aborts. -/
  abortsExplicit : UInt64 := 0
  /-- All other aborts. -/
  abortsOther : UInt64 := 0
  /-- Attempts to take the clock. -/
  lockAttempts : UInt64 := 0
  /-- Escalations to serial execution. -/
  serialEscalations : UInt64 := 0
  /-- Switches from hardware to software that this thread began. -/
  switchesToSoftware : UInt64 := 0
  /-- Switches from software to hardware that this thread completed. -/
  switchesToHardware : UInt64 := 0
  /-- Acquisitions of the global lock. -/
  glockAcquisitions : UInt64 := 0
  deriving DecidableEq, Repr

namespace Tally

/-- The tally of a thread that counted nothing. -/
def zero : Tally := {}

/-- Count an aborted attempt under the class of its error. -/
def recordAbort (t : Tally) (err : TxError) : Tally :=
  match err with
  | .validationFailure | .commitRace | .exhausted _ =>
      { t with abortsValidation := t.abortsValidation + 1 }
  | .hardware abort =>
      match abort.reason with
      | .conflict => { t with abortsConflict := t.abortsConflict + 1 }
      | .capacity => { t with abortsCapacity := t.abortsCapacity + 1 }
      | .explicit _ => { t with abortsExplicit := t.abortsExplicit + 1 }
      | _ => { t with abortsOther := t.abortsOther + 1 }

/-- Commits on every path. -/
def commits (t : Tally) : UInt64 :=
  t.commitsHardware + t.commitsSoftware + t.commitsSerial + t.commitsGlock

/-- Aborts in hardware. -/
def hardwareAborts (t : Tally) : UInt64 :=
  t.abortsConflict + t.abortsCapacity + t.abortsExplicit + t.abortsOther

/-- Aborts of every kind. -/
def aborts (t : Tally) : UInt64 :=
  t.abortsValidation + t.abortsConflict + t.abortsCapacity + t.abortsExplicit + t.abortsOther

/-- Every count with the name it has in the store. -/
def named (t : Tally) : List (String × UInt64) :=
  [(MetricName.commitHardware, t.commitsHardware),
    (MetricName.commitSoftware, t.commitsSoftware),
    (MetricName.commitSerial, t.commitsSerial),
    (MetricName.commitGlock, t.commitsGlock),
    (MetricName.commitReadOnly, t.commitsReadOnly),
    (MetricName.abortValidation, t.abortsValidation),
    (MetricName.abortConflict, t.abortsConflict),
    (MetricName.abortCapacity, t.abortsCapacity),
    (MetricName.abortExplicit, t.abortsExplicit),
    (MetricName.abortOther, t.abortsOther),
    (MetricName.lockAttempts, t.lockAttempts),
    (MetricName.serialEscalations, t.serialEscalations),
    (MetricName.switchesToSoftware, t.switchesToSoftware),
    (MetricName.switchesToHardware, t.switchesToHardware),
    (MetricName.glockAcquired, t.glockAcquisitions)]

/-- Move all counts into the store. The tally is zero after that. -/
def flush (t : Tally) (m : Metrics) : Tally × Metrics :=
  (zero, t.named.foldl (fun m (name, count) => m.add name count) m)

/-- Every count with the name of its field, in declared order. -/
def counts (t : Tally) : List (String × UInt64) :=
  [("commits_hw", t.commitsHardware), ("commits_sw", t.commitsSoftware),
    ("commits_serial", t.commitsSerial), ("commits_glock", t.commitsGlock),
    ("commits_read_only", t.commitsReadOnly), ("aborts_validation", t.abortsValidation),
    ("aborts_conflict", t.abortsConflict), ("aborts_capacity", t.abortsCapacity),
    ("aborts_explicit", t.abortsExplicit), ("aborts_other", t.abortsOther),
    ("lock_attempts", t.lockAttempts), ("serial_escalations", t.serialEscalations),
    ("switches_to_sw", t.switchesToSoftware), ("switches_to_hw", t.switchesToHardware),
    ("glock_acquisitions", t.glockAcquisitions)]

/-- The diagnostic text of a tally. -/
def text (t : Tally) : String :=
  recordText "TxStats" (t.counts.map fun (field, count) => (field, toString count.toNat))

end Tally

end HybridTM

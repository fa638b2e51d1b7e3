import Std.Data.HashMap
import HybridTM.Metrics.Histogram

/-!
# The metrics store

Counters, gauges and histograms by name. An entry comes into being when something is
recorded under its name; looking a name up creates nothing, and adding zero to a counter
is no record. Counters wrap at 64 bits.
-/

namespace HybridTM

/-- Everything recorded so far. -/
structure Metrics where
  /-- Histograms of observed values. -/
  histograms : Std.HashMap String Histogram
  /-- Sums of increments. -/
  counters : Std.HashMap String UInt64
  /-- Latest values. -/
  gauges : Std.HashMap String Int64

namespace Metrics

/-- A store in which nothing is recorded. -/
def empty : Metrics := ⟨∅, ∅, ∅⟩

/-- The value of a counter, zero if nothing was added under its name. -/
def counter (m : Metrics) (name : String) : UInt64 := m.counters.getD name 0

/-- Add to a counter. -/
def add (m : Metrics) (name : String) (delta : UInt64) : Metrics :=
  if delta = 0 then
    m
  else
    { m with counters := m.counters.insert name (m.counter name + delta) }

/-- Set a gauge. -/
def setGauge (m : Metrics) (name : String) (value : Int64) : Metrics :=
  { m with gauges := m.gauges.insert name value }

/-- The value of a gauge, if it was ever set. -/
def gauge? (m : Metrics) (name : String) : Option Int64 := m.gauges[name]?

/-- The histogram of a name, if anything was observed under it. -/
def histogram? (m : Metrics) (name : String) : Option Histogram := m.histograms[name]?

/-- Record an observation. -/
def observe (m : Metrics) (name : String) (value : UInt64) : Metrics :=
  let h := m.histograms.getD name .standard
  { m with histograms := m.histograms.insert name (h.observe value) }

/-! ## What a record changes -/

@[simp]
theorem counter_empty (name : String) : empty.counter name = 0 := by
  simp [counter, empty]

/-- An addition changes the counter of its own name only. -/
theorem counter_add (m : Metrics) (name other : String) (delta : UInt64) :
    (m.add name delta).counter other =
      if name = other then m.counter name + delta else m.counter other := by
  unfold add
  split
  · next h =>
      subst h
      split <;> simp_all
  · simp only [counter, Std.HashMap.getD_insert, beq_iff_eq]

@[simp]
theorem counter_setGauge (m : Metrics) (name other : String) (value : Int64) :
    (m.setGauge name value).counter other = m.counter other :=
  rfl

@[simp]
theorem counter_observe (m : Metrics) (name other : String) (value : UInt64) :
    (m.observe name value).counter other = m.counter other :=
  rfl

/-- A gauge shows what was set last under its name. -/
theorem gauge?_setGauge (m : Metrics) (name other : String) (value : Int64) :
    (m.setGauge name value).gauge? other =
      if name = other then some value else m.gauge? other := by
  simp only [gauge?, setGauge, Std.HashMap.getElem?_insert, beq_iff_eq]

/-- An observation changes the histogram of its own name only. -/
theorem histogram?_observe (m : Metrics) (name other : String) (value : UInt64) :
    (m.observe name value).histogram? other =
      if name = other then some (((m.histogram? name).getD .standard).observe value)
      else m.histogram? other := by
  simp only [histogram?, observe, Std.HashMap.getElem?_insert, beq_iff_eq,
    Std.HashMap.getD_eq_getD_getElem?]

end Metrics

/-! ## Names -/

namespace MetricName

/-- Hardware commits. -/
def commitHardware : String := "tx.commit.hw"
/-- Optimistic software commits. -/
def commitSoftware : String := "tx.commit.sw"
/-- Software commits that held the clock throughout. -/
def commitSerial : String := "tx.commit.serial"
/-- Commits under the global lock. -/
def commitGlock : String := "tx.commit.glock"
/-- Software commits without writes. -/
def commitReadOnly : String := "tx.commit.read_only"
/-- Validation failures. -/
def abortValidation : String := "tx.abort.validation"
/-- Hardware conflicts. -/
def abortConflict : String := "tx.abort.conflict"
/-- Hardware capacity overflows. -/
def abortCapacity : String := "tx.abort.capacity"
/-- Explicit hardware aborts. -/
def abortExplicit : String := "tx.abort.explicit"
/-- All other aborts. -/
def abortOther : String := "tx.abort.other"
/-- Attempts to take the clock. -/
def lockAttempts : String := "norec.lock_attempts"
/-- Escalations to serial execution. -/
def serialEscalations : String := "norec.serial_escalations"
/-- Switches from hardware to software. -/
def switchesToSoftware : String := "mode.to_sw"
/-- Switches from software to hardware. -/
def switchesToHardware : String := "mode.to_hw"
/-- Acquisitions of the global lock. -/
def glockAcquired : String := "mode.glock"
/-- The current mode, as a gauge. -/
def modeCurrent : String := "mode.current"
/-- Sampled mean costs of hardware transactions. -/
def costHardware : String := "cost.hw"
/-- Sampled mean costs of software transactions. -/
def costSoftware : String := "cost.sw"

end MetricName

end HybridTM

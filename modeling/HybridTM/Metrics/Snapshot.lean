import HybridTM.Metrics.Store

/-!
# Metrics snapshots

A snapshot is a point-in-time report of the store: commits by path, aborts by class, mode
switches and sampled costs.
-/

namespace HybridTM

/-- Commits by path. -/
structure CommitCounts where
  /-- In hardware. -/
  hardware : UInt64
  /-- In optimistic software transactions. -/
  software : UInt64
  /-- In software transactions that held the clock throughout. -/
  serial : UInt64
  /-- Under the global lock. -/
  glock : UInt64
  /-- In software without writes; they count above as well. -/
  readOnly : UInt64
  deriving DecidableEq, Repr

/-- Commits on every path. -/
def CommitCounts.total (c : CommitCounts) : UInt64 :=
  c.hardware + c.software + c.serial + c.glock

/-- Aborts by class. -/
structure AbortCounts where
  /-- Validation failures in software. -/
  validation : UInt64
  /-- Conflicts in hardware. -/
  conflict : UInt64
  /-- Footprints too large for hardware. -/
  capacity : UInt64
  /-- Explicit aborts in hardware. -/
  explicit : UInt64
  /-- Everything else. -/
  other : UInt64
  deriving DecidableEq, Repr

/-- Aborts of every class. -/
def AbortCounts.total (a : AbortCounts) : UInt64 :=
  a.validation + a.conflict + a.capacity + a.explicit + a.other

/-- Mode switches and the current mode. -/
structure ModeActivity where
  /-- The mode by name, `unknown` before a runtime reported one. -/
  current : String
  /-- Switches from hardware to software. -/
  toSoftware : UInt64
  /-- Switches from software to hardware. -/
  toHardware : UInt64
  /-- Acquisitions of the global lock. -/
  glock : UInt64
  /-- Escalations to serial execution. -/
  serialEscalations : UInt64
  deriving DecidableEq, Repr

/-- Sampled costs in ticks. -/
structure CostSummary where
  /-- The number of samples. -/
  samples : UInt64
  /-- Their mean. -/
  mean : Float
  /-- The largest. -/
  max : UInt64
  /-- The number of samples in each bucket, the overflow bucket last. -/
  buckets : List UInt64

/-- A report of the store at one moment. -/
structure MetricsSnapshot where
  /-- Commits by path. -/
  commits : CommitCounts
  /-- Aborts by class. -/
  aborts : AbortCounts
  /-- Mode switches and the current mode. -/
  mode : ModeActivity
  /-- Attempts to take the clock. -/
  lockAttempts : UInt64
  /-- Sampled hardware costs, if there are samples. -/
  hardwareCost : Option CostSummary
  /-- Sampled software costs, if there are samples. -/
  softwareCost : Option CostSummary

namespace CostSummary

/-- The summary of a histogram of costs. -/
def ofHistogram (h : Histogram) : CostSummary where
  samples := h.count
  mean := h.mean
  max := h.max
  buckets := h.counts

/-- Whether two summaries agree, with means compared as numbers. -/
def agrees (a b : CostSummary) : Bool :=
  a.samples == b.samples && a.mean == b.mean && a.max == b.max && a.buckets == b.buckets

end CostSummary

namespace MetricsSnapshot

/-- The name of the mode that a gauge shows. -/
def modeLabel : Option Int64 → String
  | some gauge =>
      if gauge = 0 then "hw" else if gauge = 1 then "sw" else if gauge = 2 then "glock"
      else "unknown"
  | none => "unknown"

/-- The report of a store. -/
def ofMetrics (m : Metrics) : MetricsSnapshot where
  commits :=
    { hardware := m.counter MetricName.commitHardware
      software := m.counter MetricName.commitSoftware
      serial := m.counter MetricName.commitSerial
      glock := m.counter MetricName.commitGlock
      readOnly := m.counter MetricName.commitReadOnly }
  aborts :=
    { validation := m.counter MetricName.abortValidation
      conflict := m.counter MetricName.abortConflict
      capacity := m.counter MetricName.abortCapacity
      explicit := m.counter MetricName.abortExplicit
      other := m.counter MetricName.abortOther }
  mode :=
    { current := modeLabel (m.gauge? MetricName.modeCurrent)
      toSoftware := m.counter MetricName.switchesToSoftware
      toHardware := m.counter MetricName.switchesToHardware
      glock := m.counter MetricName.glockAcquired
      serialEscalations := m.counter MetricName.serialEscalations }
  lockAttempts := m.counter MetricName.lockAttempts
  hardwareCost := (m.histogram? MetricName.costHardware).map .ofHistogram
  softwareCost := (m.histogram? MetricName.costSoftware).map .ofHistogram

/-- The fraction of attempts that aborted, zero before any attempt. -/
def abortRatio (s : MetricsSnapshot) : Float :=
  let attempts := s.commits.total + s.aborts.total
  if attempts = 0 then 0 else s.aborts.total.toFloat / attempts.toFloat

/-- Whether two costs are both absent, or both present and in agreement. -/
def costsAgree : Option CostSummary → Option CostSummary → Bool
  | none, none => true
  | some a, some b => a.agrees b
  | _, _ => false

/-- Whether two reports agree, with means compared as numbers. -/
def agrees (a b : MetricsSnapshot) : Bool :=
  a.commits == b.commits && a.aborts == b.aborts && a.mode == b.mode &&
    a.lockAttempts == b.lockAttempts && costsAgree a.hardwareCost b.hardwareCost &&
    costsAgree a.softwareCost b.softwareCost

end MetricsSnapshot

end HybridTM

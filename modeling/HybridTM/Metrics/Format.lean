import HybridTM.Json.Fields
import HybridTM.Json.Float
import HybridTM.Json.Parse
import HybridTM.Json.Print
import HybridTM.Metrics.Snapshot
import HybridTM.Metrics.Tally

/-!
# Metrics as JSON

The JSON form of snapshots and tallies. Fields are written in declared order, and all of
them have to be given when a record is read, except that a cost may be absent.
-/

namespace HybridTM

/-! ## Counts -/

namespace CommitCounts

/-- The field names in declared order. -/
def fieldNames : List String := ["hardware", "software", "serial", "glock", "read_only"]

/-- The JSON form. -/
def toJson (c : CommitCounts) : Json :=
  .record [("hardware", .ofWord c.hardware), ("software", .ofWord c.software),
    ("serial", .ofWord c.serial), ("glock", .ofWord c.glock),
    ("read_only", .ofWord c.readOnly)]

/-- The counts that a JSON value stands for. -/
def ofJson? (v : Json) : Option CommitCounts := do
  let f ← v.fields? fieldNames
  some {
    hardware := ← f.required "hardware" Json.word?
    software := ← f.required "software" Json.word?
    serial := ← f.required "serial" Json.word?
    glock := ← f.required "glock" Json.word?
    readOnly := ← f.required "read_only" Json.word? }

end CommitCounts

namespace AbortCounts

/-- The field names in declared order. -/
def fieldNames : List String := ["validation", "conflict", "capacity", "explicit", "other"]

/-- The JSON form. -/
def toJson (a : AbortCounts) : Json :=
  .record [("validation", .ofWord a.validation), ("conflict", .ofWord a.conflict),
    ("capacity", .ofWord a.capacity), ("explicit", .ofWord a.explicit),
    ("other", .ofWord a.other)]

/-- The counts that a JSON value stands for. -/
def ofJson? (v : Json) : Option AbortCounts := do
  let f ← v.fields? fieldNames
  some {
    validation := ← f.required "validation" Json.word?
    conflict := ← f.required "conflict" Json.word?
    capacity := ← f.required "capacity" Json.word?
    explicit := ← f.required "explicit" Json.word?
    other := ← f.required "other" Json.word? }

end AbortCounts

namespace ModeActivity

/-- The field names in declared order. -/
def fieldNames : List String := ["current", "to_sw", "to_hw", "glock", "serial_escalations"]

/-- The JSON form. -/
def toJson (m : ModeActivity) : Json :=
  .record [("current", .ofText m.current), ("to_sw", .ofWord m.toSoftware),
    ("to_hw", .ofWord m.toHardware), ("glock", .ofWord m.glock),
    ("serial_escalations", .ofWord m.serialEscalations)]

/-- The activity that a JSON value stands for. -/
def ofJson? (v : Json) : Option ModeActivity := do
  let f ← v.fields? fieldNames
  some {
    current := ← f.required "current" Json.text?
    toSoftware := ← f.required "to_sw" Json.word?
    toHardware := ← f.required "to_hw" Json.word?
    glock := ← f.required "glock" Json.word?
    serialEscalations := ← f.required "serial_escalations" Json.word? }

end ModeActivity

/-! ## Costs -/

namespace CostSummary

/-- The field names in declared order. -/
def fieldNames : List String := ["samples", "mean", "max", "buckets"]

/-- The JSON form. -/
def toJson (c : CostSummary) : Json :=
  .record [("samples", .ofWord c.samples), ("mean", .ofFloat c.mean), ("max", .ofWord c.max),
    ("buckets", .array (c.buckets.map .ofWord))]

/-- The bucket counts that a JSON value stands for. -/
def buckets? (v : Json) : Option (List UInt64) := do
  let items ← v.items?
  items.mapM Json.word?

/-- The summary that a JSON value stands for. -/
def ofJson? (v : Json) : Option CostSummary := do
  let f ← v.fields? fieldNames
  some {
    samples := ← f.required "samples" Json.word?
    mean := ← f.required "mean" Json.float?
    max := ← f.required "max" Json.word?
    buckets := ← f.required "buckets" buckets? }

end CostSummary

/-! ## Snapshots -/

namespace MetricsSnapshot

/-- The field names in declared order. -/
def fieldNames : List String :=
  ["commits", "aborts", "mode", "lock_attempts", "hw_cost", "sw_cost"]

/-- The JSON form of a cost that may be absent. -/
def costToJson : Option CostSummary → Json
  | none => .null
  | some c => c.toJson

/-- The JSON form. -/
def toJson (s : MetricsSnapshot) : Json :=
  .record [("commits", s.commits.toJson), ("aborts", s.aborts.toJson), ("mode", s.mode.toJson),
    ("lock_attempts", .ofWord s.lockAttempts), ("hw_cost", costToJson s.hardwareCost),
    ("sw_cost", costToJson s.softwareCost)]

/-- The snapshot that a JSON value stands for. -/
def ofJson? (v : Json) : Option MetricsSnapshot := do
  let f ← v.fields? fieldNames
  some {
    commits := ← f.required "commits" CommitCounts.ofJson?
    aborts := ← f.required "aborts" AbortCounts.ofJson?
    mode := ← f.required "mode" ModeActivity.ofJson?
    lockAttempts := ← f.required "lock_attempts" Json.word?
    hardwareCost := ← f.optional "hw_cost" CostSummary.ofJson?
    softwareCost := ← f.optional "sw_cost" CostSummary.ofJson? }

/-- The report as text, one field to a line. -/
def render (s : MetricsSnapshot) : String := s.toJson.pretty

/-- The snapshot that a text stands for. -/
def parse? (text : String) : Option MetricsSnapshot := do
  let v ← Json.parse? text
  ofJson? v

end MetricsSnapshot

/-! ## Tallies -/

namespace Tally

/-- The tally that a JSON value stands for. -/
def ofJson? (v : Json) : Option Tally := do
  let f ← v.fields? (zero.counts.map Prod.fst)
  some {
    commitsHardware := ← f.required "commits_hw" Json.word?
    commitsSoftware := ← f.required "commits_sw" Json.word?
    commitsSerial := ← f.required "commits_serial" Json.word?
    commitsGlock := ← f.required "commits_glock" Json.word?
    commitsReadOnly := ← f.required "commits_read_only" Json.word?
    abortsValidation := ← f.required "aborts_validation" Json.word?
    abortsConflict := ← f.required "aborts_conflict" Json.word?
    abortsCapacity := ← f.required "aborts_capacity" Json.word?
    abortsExplicit := ← f.required "aborts_explicit" Json.word?
    abortsOther := ← f.required "aborts_other" Json.word?
    lockAttempts := ← f.required "lock_attempts" Json.word?
    serialEscalations := ← f.required "serial_escalations" Json.word?
    switchesToSoftware := ← f.required "switches_to_sw" Json.word?
    switchesToHardware := ← f.required "switches_to_hw" Json.word?
    glockAcquisitions := ← f.required "glock_acquisitions" Json.word? }

/-- The JSON form. -/
def toJson (t : Tally) : Json :=
  .record (t.counts.map fun (field, count) => (field, .ofWord count))

end Tally

end HybridTM

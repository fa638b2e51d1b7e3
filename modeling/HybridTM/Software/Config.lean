import HybridTM.Contention.Format
import HybridTM.Json.Print

/-!
# Configuration of the software engine

How many validation failures in a row a thread may have before its next attempt holds the
clock throughout, and how threads hold back meanwhile.
-/

namespace HybridTM

/-- The settings of the software engine. -/
structure SoftwareConfig where
  /-- The failures in a row after which an attempt runs serially. -/
  maxFailures : UInt32 := 5
  /-- The contention policy of every thread. -/
  contention : Policy := .default
  deriving DecidableEq, Repr

namespace SoftwareConfig

/-- The settings of an engine that was given none. -/
def default : SoftwareConfig := {}

/-- The diagnostic text. -/
def text (c : SoftwareConfig) : String :=
  recordText "NorecConfig" [("max_consecutive_failures", toString c.maxFailures.toNat),
    ("contention", c.contention.text)]

/-- The field names in declared order. -/
def fieldNames : List String := ["max_consecutive_failures", "contention"]

/-- The JSON form. -/
def toJson (c : SoftwareConfig) : Json :=
  .record [("max_consecutive_failures", .ofCount c.maxFailures),
    ("contention", c.contention.toJson)]

/-- The settings that a JSON value stands for, which lies within `outer` other
containers. What is not given takes its default. -/
def ofJson? (outer : Nat) (v : Json) : Option SoftwareConfig := do
  let f ← v.fields? fieldNames
  some {
    maxFailures :=
      ← f.withDefault "max_consecutive_failures" Json.count? default.maxFailures
    contention :=
      ← f.withDefault "contention" (Policy.ofJson? (outer + 1)) default.contention }

end SoftwareConfig

end HybridTM

import HybridTM.Json.Parse
import HybridTM.Software.Config

/-!
# Configuration of a runtime

Every setting has a default. A configuration is checked setting by setting in declared
order, and the first one that the runtime cannot work with is reported.
-/

namespace HybridTM

/-- The settings of a runtime. -/
structure HybridConfig where
  /-- The failed hardware attempts of a call after which it takes the global lock. -/
  maxRetries : UInt32 := 5
  /-- The hardware commits or aborts from one cost sample to the next. -/
  samplingRate : UInt32 := 128
  /-- The mean hardware cost in ticks above which a thread turns to software. -/
  costThreshold : UInt64 := 20000
  /-- The percentage of explicit aborts above which a thread turns to software. -/
  explicitRateThreshold : UInt32 := 50
  /-- The first software window in commits. -/
  windowInitial : UInt32 := 16
  /-- The largest software window in commits. -/
  windowMax : UInt32 := 4096
  /-- Whether to refuse to start without hardware regions. -/
  requireHardware : Bool := false
  /-- The settings of the software engine. -/
  software : SoftwareConfig := {}
  deriving DecidableEq, Repr

/-- Why there is no runtime. -/
inductive ConfigError where
  /-- A setting has a value that the runtime cannot work with. -/
  | invalidValue (field reason : String)
  /-- The configuration text stands for no configuration. -/
  | parse
  /-- Hardware regions are required and the backend has none. -/
  | hardwareUnavailable (backend : String)
  deriving DecidableEq, Repr

namespace ConfigError

/-- What the wording of a parse error begins with. -/
def parsePreamble : String := "failed to parse configuration: "

/-- The wording of an error. What is wrong with a text that does not parse is not kept. -/
def message : ConfigError → String
  | .invalidValue field reason => "invalid value for " ++ field ++ ": " ++ reason
  | .parse => parsePreamble
  | .hardwareUnavailable backend =>
      "hardware transactions required but the " ++ backend ++
        " backend does not support them"

end ConfigError

namespace HybridConfig

/-- The settings of a runtime that was given none. -/
def default : HybridConfig := {}

/-! ## Checking -/

/-- The complaint about a setting that is zero. -/
def atLeastOne : String := "must be at least 1"

/-- Check every setting. -/
def validate (c : HybridConfig) : Except ConfigError Unit :=
  if c.maxRetries = 0 then
    .error (.invalidValue "htm_max_retries" atLeastOne)
  else if c.samplingRate = 0 then
    .error (.invalidValue "sampling_rate" atLeastOne)
  else if 100 < c.explicitRateThreshold then
    .error (.invalidValue "explicit_abort_rate_threshold"
      (toString c.explicitRateThreshold.toNat ++ " is not a percentage"))
  else if c.windowInitial = 0 then
    .error (.invalidValue "sw_window_initial" atLeastOne)
  else if c.windowMax < c.windowInitial then
    .error (.invalidValue "sw_window_max"
      (toString c.windowMax.toNat ++ " is below sw_window_initial " ++
        toString c.windowInitial.toNat))
  else if c.software.maxFailures = 0 then
    .error (.invalidValue "norec.max_consecutive_failures" atLeastOne)
  else
    .ok ()

/-! ## Text -/

/-- The diagnostic text. -/
def text (c : HybridConfig) : String :=
  recordText "HybridConfig" [("htm_max_retries", toString c.maxRetries.toNat),
    ("sampling_rate", toString c.samplingRate.toNat),
    ("hw_cost_threshold", toString c.costThreshold.toNat),
    ("explicit_abort_rate_threshold", toString c.explicitRateThreshold.toNat),
    ("sw_window_initial", toString c.windowInitial.toNat),
    ("sw_window_max", toString c.windowMax.toNat),
    ("require_htm", boolText c.requireHardware), ("norec", c.software.text)]

/-- The field names in declared order. -/
def fieldNames : List String :=
  ["htm_max_retries", "sampling_rate", "hw_cost_threshold", "explicit_abort_rate_threshold",
    "sw_window_initial", "sw_window_max", "require_htm", "norec"]

/-- The JSON form. -/
def toJson (c : HybridConfig) : Json :=
  .record [("htm_max_retries", .ofCount c.maxRetries),
    ("sampling_rate", .ofCount c.samplingRate),
    ("hw_cost_threshold", .ofWord c.costThreshold),
    ("explicit_abort_rate_threshold", .ofCount c.explicitRateThreshold),
    ("sw_window_initial", .ofCount c.windowInitial),
    ("sw_window_max", .ofCount c.windowMax),
    ("require_htm", .bool c.requireHardware), ("norec", c.software.toJson)]

/-- The settings that a JSON value stands for. What is not given takes its default. -/
def ofJson? (v : Json) : Option HybridConfig := do
  let f ← v.fields? fieldNames
  some {
    maxRetries := ← f.withDefault "htm_max_retries" Json.count? default.maxRetries
    samplingRate := ← f.withDefault "sampling_rate" Json.count? default.samplingRate
    costThreshold := ← f.withDefault "hw_cost_threshold" Json.word? default.costThreshold
    explicitRateThreshold :=
      ← f.withDefault "explicit_abort_rate_threshold" Json.count?
        default.explicitRateThreshold
    windowInitial := ← f.withDefault "sw_window_initial" Json.count? default.windowInitial
    windowMax := ← f.withDefault "sw_window_max" Json.count? default.windowMax
    requireHardware := ← f.withDefault "require_htm" Json.bool? default.requireHardware
    software := ← f.withDefault "norec" (SoftwareConfig.ofJson? 1) default.software }

/-- The compact text of a configuration. -/
def render (c : HybridConfig) : String := c.toJson.compact

/-- The configuration that a text stands for, unchecked. -/
def read (text : String) : Except ConfigError HybridConfig :=
  match (Json.parse? text).bind ofJson? with
  | some c => .ok c
  | none => .error .parse

/-- The configuration that a text stands for, checked. -/
def load (text : String) : Except ConfigError HybridConfig := do
  let c ← read text
  c.validate
  .ok c

end HybridConfig

end HybridTM

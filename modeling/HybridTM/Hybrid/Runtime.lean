import HybridTM.Hardware.Backend
import HybridTM.Hybrid.Config
import HybridTM.Metrics.Snapshot
import HybridTM.Mode
import HybridTM.Software.Engine

/-!
# The shared state of a runtime

A runtime owns a hardware backend, a software engine with the memory that both work on,
and a metrics store. One word of that memory is the mode word. It changes only by
compare-and-swap through the backend, so that regions that read it notice, and a swap that
changes the mode is followed by a store to a gauge.
-/

namespace HybridTM

/-- The shared state of a runtime. -/
structure Runtime where
  /-- The settings. -/
  config : HybridConfig
  /-- Where hardware regions come from. -/
  backend : Backend
  /-- The software engine with the memory. -/
  engine : Engine
  /-- The metrics store. -/
  metrics : Metrics

namespace Runtime

/-! ## Memory -/

/-- The address of the mode word. -/
def modeAddr : Addr := 0

/-- The address of a word of data. -/
def wordAddr (i : Nat) : Addr := HybridTM.wordAddr (i + 1)

/-- The memory. -/
def memory (r : Runtime) : Memory := r.engine.memory

/-- The runtime with another memory. -/
def withMemory (r : Runtime) (m : Memory) : Runtime :=
  { r with engine := r.engine.withMemory m }

/-- Compare-and-swap a word through the backend. -/
def compareExchange (r : Runtime) (a : Addr) (current new : Word) :
    Except Word Word × Runtime :=
  let (seen, backend, m) := r.backend.compareExchange r.memory a current new
  (seen, { r.withMemory m with backend })

/-! ## The mode -/

/-- The contents of the mode word. -/
def mode (r : Runtime) : ModeSnapshot := .decode (r.memory.read modeAddr)

/-- Show a mode on the gauge. -/
def showMode (r : Runtime) (mode : Mode) : Runtime :=
  { r with metrics := r.metrics.setGauge MetricName.modeCurrent (.ofNat mode.bits) }

/-- Replace the mode word if it still holds `expected`. -/
def swapMode (r : Runtime) (expected next : ModeSnapshot) : Bool × Runtime :=
  let (seen, r) := r.compareExchange modeAddr expected.encode next.encode
  (seen matches .ok _, r)

/-- Replace the mode word if it still holds `expected`, and show a change of mode on the
gauge. -/
def transition (r : Runtime) (expected next : ModeSnapshot) : Bool × Runtime :=
  let (swapped, r) := r.swapMode expected next
  (swapped, if swapped && expected.mode != next.mode then r.showMode next.mode else r)

/-! ## Creation -/

/-- A runtime over a backend, with the words of data as given and the mode word in its
initial state. -/
def create (backend : Backend) (config : HybridConfig) (data : List Word)
    (metrics : Metrics) : Except ConfigError Runtime := do
  config.validate
  if config.requireHardware && !backend.isSupported then
    .error (.hardwareUnavailable backend.name)
  else
    let m := Memory.ofWords (ModeSnapshot.initial.encode :: data)
    let r : Runtime := { config, backend, engine := .new config.software m, metrics }
    .ok (r.showMode .hw)

/-- The report on what has been flushed. -/
def report (r : Runtime) : MetricsSnapshot := .ofMetrics r.metrics

/-- The diagnostic text of a runtime. -/
def text (r : Runtime) : String :=
  recordText "HybridRuntime" [("htm", quotedText r.backend.name), ("mode", r.mode.text),
    ("config", r.config.text)]

end Runtime

end HybridTM

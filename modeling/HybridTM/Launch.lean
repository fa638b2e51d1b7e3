import HybridTM.Hybrid.Runtime

/-!
# Starting a process

A process that cannot have its runtime reports why on standard error and exits with a
status of its own, before any transaction runs. Log output goes to one subscriber, which
is installed once.
-/

namespace HybridTM

/-- What a process leaves behind. -/
structure Exit where
  /-- The exit status. -/
  status : Nat
  /-- What it wrote to standard output. -/
  stdout : String
  /-- What it wrote to standard error. -/
  stderr : String
  deriving DecidableEq, Repr

/-- The exit status after a configuration error. -/
def configErrorStatus : Nat := 2

/-- The report of a configuration error. -/
def ConfigError.report (e : ConfigError) : String := "hytm: configuration error: " ++ e.message

/-- A process that creates a runtime and prints its mode. -/
def launch (backend : Backend) (config : HybridConfig) : Exit :=
  match Runtime.create backend config [] .empty with
  | .ok r => ⟨0, r.mode.mode.message ++ "\n", ""⟩
  | .error e => ⟨configErrorStatus, "", e.report ++ "\n"⟩

/-- Whether a log subscriber is installed. -/
structure Logging where
  /-- Whether there is a subscriber. -/
  installed : Bool
  deriving DecidableEq, Repr

namespace Logging

/-- No subscriber. -/
def none : Logging := ⟨false⟩

/-- Install a subscriber unless there is one. The result says whether it was installed
now. -/
def tryInstall (l : Logging) : Bool × Logging := (!l.installed, ⟨true⟩)

end Logging

end HybridTM

import HybridTM.Hardware.Backend

/-!
# Executions of hardware regions

An execution runs a body once as a hardware region. Between its steps other agents may
act. The steps of the body are the caller's; `advance` takes the steps before and after
it. When the body returned a value and the region is not doomed, a hook that is set is
called before the commit: the execution stays at `hook` until whoever set the hook has
run it and lets the execution go on.
-/

namespace HybridTM

/-- Where an execution stands. -/
inductive Execution where
  /-- Before the region. -/
  | starting
  /-- The body is running. -/
  | running (r : Region)
  /-- The body returned a value. -/
  | returned (r : Region) (value : Word)
  /-- The hook is running. -/
  | hook (name : Hook) (r : Region) (value : Word)
  /-- The region is about to commit. -/
  | committing (r : Region) (value : Word)
  /-- The region committed with a value or aborted. -/
  | done (result : Except HardwareAbort Word)

namespace Execution

/-- The next step of the execution itself. While its body is running, and after its end,
it has none. -/
def advance (x : Execution) (b : Backend) (m : Memory) :
    Option (Execution × Backend × Memory) :=
  match x with
  | .starting =>
      match b.enter with
      | (.error abort, b) => some (.done (.error abort), b, m)
      | (.ok r, b) => some (.running r, b, m)
  | .running _ => none
  | .returned r value =>
      match r.doomed, b.dueHook with
      | some abort, _ => some (.done (.error abort), b, m)
      | none, some name => some (.hook name r value, b, m)
      | none, none => some (.committing r value, b, m)
  | .hook _ r value => some (.committing r value, b, m)
  | .committing r value =>
      match b.commit r m with
      | .error abort => some (.done (.error abort), b, m)
      | .ok (b, m) => some (.done (.ok value), b, m)
  | .done _ => none

/-- The body reads. -/
def read (r : Region) (b : Backend) (m : Memory) (a : Addr) (mask : Mask) :
    Except TxError Word × Execution :=
  let (result, r) := b.read r m a mask
  (result.mapError .hardware, .running r)

/-- The body writes. -/
def write (r : Region) (b : Backend) (a : Addr) (v : Word) (mask : Mask) :
    Except TxError Unit × Execution :=
  let (result, r) := b.write r a v mask
  (result.mapError .hardware, .running r)

/-- The body aborts the region. The result is the error that the body is expected to
return. -/
def abort (r : Region) (code : UInt8) : TxError × Execution :=
  let (abort, r) := r.abort code
  (.hardware abort, .running r)

/-- The body returns. -/
def endBody (r : Region) (result : Except TxError Word) : Execution :=
  match result with
  | .ok value => .returned r value
  | .error err => .done (.error (r.failure err))

end Execution

end HybridTM

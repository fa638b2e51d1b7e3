import HybridTM.Software.Engine

/-!
# Calls of the software engine

A call runs a body until one of its attempts commits. Between its steps other threads may
act. The steps of the body are the caller's; `advance` takes the engine's own steps in
between: it begins attempts, commits them and rolls them back. A call that runs alone
makes exclusive attempts; any other makes the attempts its context is due and counts each
escalation to serial execution.
-/

namespace HybridTM

/-- Where the current attempt of a call stands. -/
inductive CallStage where
  /-- Before its beginning. -/
  | starting
  /-- Its body is running. -/
  | running
  /-- Its body returned a value. -/
  | committing (value : Word)
  /-- Its body or its commit failed. -/
  | aborting (err : TxError)
  deriving DecidableEq, Repr

/-- A call with its transaction, which all attempts share. -/
structure Call where
  /-- The transaction. -/
  tx : Transaction
  /-- Where the current attempt stands. -/
  stage : CallStage

/-- What a call is after a step of its own. -/
inductive CallProgress where
  /-- It goes on. -/
  | going (call : Call)
  /-- Its body has committed with a value. -/
  | committed (value : Word)

namespace Call

/-- A call before its first attempt. -/
def new (clock : Clock) : Call := ⟨.idle clock, .starting⟩

/-- Begin an attempt. -/
def start (call : Call) (alone : Bool) (c : Context) (e : Engine) :
    Option (Call × Engine) :=
  if alone then
    some (⟨e.beginExclusive call.tx, .running⟩, e)
  else
    (e.beginAttempt c call.tx).map fun (tx, e) => (⟨tx, .running⟩, e)

/-- Count an escalation if the bound was reached in an attempt that ran with others. -/
def noteExhausted (alone : Bool) (err : TxError) (c : Context) : Context :=
  match err with
  | .exhausted _ => if alone then c else c.countEscalation
  | _ => c

/-- The next step of the call itself. While its body is running it has none, and `none`
also stands for a step that has to wait. -/
def advance (call : Call) (alone : Bool) (c : Context) (e : Engine) :
    Option (CallProgress × Context × Engine) :=
  match call.stage with
  | .starting => (call.start alone c e).map fun (call, e) => (.going call, c, e)
  | .running => none
  | .committing value =>
      match e.commit c call.tx with
      | none => none
      | some (.ok _, c, _, e) => some (.committed value, c, e)
      | some (.error err, c, tx, e) => some (.going ⟨tx, .aborting err⟩, c, e)
  | .aborting err =>
      let (err, c, tx, e) := e.abort c call.tx err
      some (.going ⟨tx, .starting⟩, noteExhausted alone err c, e)

/-- The body reads. -/
def read (call : Call) (e : Engine) (a : Addr) (mask : Mask) :
    Option (Except TxError Word × Call) :=
  (call.tx.read e.shared a mask).map fun (result, tx) => (result, { call with tx })

/-- The body writes. -/
def write (call : Call) (a : Addr) (v : Word) (mask : Mask) : Call :=
  { call with tx := call.tx.write a v mask }

/-- The body returns. -/
def endBody (call : Call) (result : Except TxError Word) : Call :=
  { call with
    stage := match result with
      | .ok value => .committing value
      | .error err => .aborting err }

end Call

end HybridTM

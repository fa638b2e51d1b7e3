import HybridTM.Contention.Manager
import HybridTM.Metrics.Tally
import HybridTM.Transaction

/-!
# Thread contexts

What a thread carries from one software attempt to the next: its contention manager, the
failures since its last commit and its tally. Recording a retryable failure that brings
the count to the bound announces that the next attempt will be serial.
-/

namespace HybridTM

/-- The state of one thread in the software engine. -/
structure Context where
  /-- The contention manager. -/
  manager : Manager
  /-- The retryable failures since the last commit. -/
  failures : UInt32
  /-- The events counted and not yet flushed. -/
  tally : Tally

namespace Context

/-- The context of a thread that has run nothing. -/
def new (manager : Manager) : Context := ⟨manager, 0, .zero⟩

/-- Whether the next attempt is serial under a bound. -/
def serialDue (c : Context) (bound : UInt32) : Bool := bound ≤ c.failures

/-- Take note of a commit, in the engine or outside it. -/
def notifyCommit (c : Context) (token : Token) : Context × Token :=
  let (manager, token) := c.manager.onCommit token
  ({ c with manager, failures := 0 }, token)

/-- Count attempts to take the clock. -/
def countAttempts (c : Context) (lockAttempts : Word) : Context :=
  { c with tally := { c.tally with lockAttempts := c.tally.lockAttempts + lockAttempts } }

end Context

/-- The tally with one more commit. -/
def Tally.recordCommit (t : Tally) (kind : CommitKind) : Tally :=
  match kind with
  | .readOnly =>
      { t with
        commitsSoftware := t.commitsSoftware + 1
        commitsReadOnly := t.commitsReadOnly + 1 }
  | .readWrite => { t with commitsSoftware := t.commitsSoftware + 1 }
  | .serial => { t with commitsSerial := t.commitsSerial + 1 }
  | .exclusive => { t with commitsGlock := t.commitsGlock + 1 }

namespace Context

/-- Record a committed attempt. -/
def recordCommit (c : Context) (kind : CommitKind) (lockAttempts : Word) (token : Token) :
    Context × Token :=
  let c := c.countAttempts lockAttempts
  { c with tally := c.tally.recordCommit kind }.notifyCommit token

/-- Record a failed attempt. The result is the error to report: the failure itself, or
that the bound is reached. -/
def recordAbort (c : Context) (err : TxError) (lockAttempts : Word) (bound : UInt32)
    (token : Token) : TxError × Context × Token :=
  let c := c.countAttempts lockAttempts
  let (manager, token) := c.manager.onAbort token
  let c := { c with manager, tally := c.tally.recordAbort err }
  if err.isRetryable then
    let c := { c with failures := c.failures + 1 }
    (if bound ≤ c.failures then .exhausted c.failures else err, c, token)
  else
    (err, c, token)

/-- Count an escalation to serial execution. -/
def countEscalation (c : Context) : Context :=
  { c with
    tally := { c.tally with serialEscalations := c.tally.serialEscalations + 1 } }

/-- Move the counts into the store. -/
def flush (c : Context) (m : Metrics) : Context × Metrics :=
  let (tally, m) := c.tally.flush m
  ({ c with tally }, m)

/-- The diagnostic text of a context. -/
def text (c : Context) : String :=
  recordText "ThreadContext" [("cm", quotedText c.manager.name),
    ("consecutive_failures", toString c.failures.toNat), ("stats", c.tally.text)]

end Context

end HybridTM

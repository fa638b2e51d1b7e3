import HybridTM.Software.Config
import HybridTM.Software.Context

/-!
# The software engine

The engine is the memory, the clock and the hourglass token that threads share. An
attempt begins, runs a body on its transaction, and ends by a commit or, when the body or
the commit failed, by a rollback; commits and rollbacks are recorded in the context of
their thread.

Every function is one atomic step. A step that would have to wait, for the clock or for
the token, answers `none`.
-/

namespace HybridTM

/-- What the threads of the software engine share. -/
structure Engine where
  /-- The settings. -/
  config : SoftwareConfig
  /-- Memory and clock. -/
  shared : Shared
  /-- The hourglass token. -/
  token : Token

namespace Engine

/-- An engine over a memory, before any transaction. -/
def new (config : SoftwareConfig) (memory : Memory) : Engine :=
  ⟨config, ⟨memory, .zero⟩, false⟩

/-- The memory. -/
def memory (e : Engine) : Memory := e.shared.memory

/-- The clock. -/
def clock (e : Engine) : Clock := e.shared.clock

/-- The engine with another memory. -/
def withMemory (e : Engine) (memory : Memory) : Engine :=
  { e with shared := { e.shared with memory } }

/-- The engine with another clock. -/
def withClock (e : Engine) (clock : Clock) : Engine :=
  { e with shared := { e.shared with clock } }

/-- The context of a new thread. -/
def newContext (e : Engine) : Context := .new e.config.contention.build

/-- Begin an attempt: a serial one when the thread has failed too often, and otherwise an
optimistic one once the contention manager lets it. -/
def beginAttempt (e : Engine) (c : Context) (tx : Transaction) :
    Option (Transaction × Engine) :=
  if c.serialDue e.config.maxFailures then do
    let (tx, clock) ← tx.beginSerial e.clock
    some (tx, e.withClock clock)
  else if c.manager.mayBegin e.token then
    some (tx.begin e.clock, e)
  else
    none

/-- Begin an attempt of a thread that runs alone. -/
def beginExclusive (e : Engine) (tx : Transaction) : Transaction :=
  tx.beginExclusive e.clock

/-- Commit an attempt and record it. A failed commit leaves the attempt to be aborted. -/
def commit (e : Engine) (c : Context) (tx : Transaction) :
    Option (Except TxError CommitKind × Context × Transaction × Engine) :=
  match tx.commit e.shared with
  | none => none
  | some (.ok kind, tx, shared) =>
      let (attempts, tx) := tx.takeLockAttempts
      let (c, token) := c.recordCommit kind attempts e.token
      some (.ok kind, c, tx, { e with shared, token })
  | some (.error err, tx, shared) => some (.error err, c, tx, { e with shared })

/-- Roll an attempt back and record its failure. The result is the error to report. -/
def abort (e : Engine) (c : Context) (tx : Transaction) (err : TxError) :
    TxError × Context × Transaction × Engine :=
  let (tx, clock) := tx.rollback e.clock
  let (attempts, tx) := tx.takeLockAttempts
  let (err, c, token) := c.recordAbort err attempts e.config.maxFailures e.token
  (err, c, tx, { e.withClock clock with token })

/-- The engine after a transaction was dropped, in whatever state it was. -/
def dropTransaction (e : Engine) (tx : Transaction) : Engine :=
  e.withClock (tx.released e.clock)

/-- The engine after a context was dropped. -/
def dropContext (e : Engine) (c : Context) : Engine :=
  { e with token := c.manager.drop e.token }

end Engine

end HybridTM

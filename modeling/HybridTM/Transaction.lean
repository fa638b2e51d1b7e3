import HybridTM.Abort
import HybridTM.Clock
import HybridTM.Log.Reads
import HybridTM.Log.Writes

/-!
# Software transactions

A transaction is one thread's view of shared memory between its beginning and its commit.
An optimistic transaction logs the values it reads and buffers its writes. Whenever the
clock has moved since its start, it compares the log with memory and, if all of it is
current, moves its start forward; otherwise it fails. A commit publishes the buffer while
it holds the clock. A serial transaction holds the clock from its beginning, and an
exclusive one is promised by its caller to run alone; neither validates.

Every call is one atomic step on `Shared`. A call that would have to wait for the clock
answers `none`.
-/

namespace HybridTM

/-- What software transactions share. -/
structure Shared where
  /-- The words of memory. -/
  memory : Memory
  /-- The clock that orders commits. -/
  clock : Clock

/-- What an attempt is allowed to do. -/
inductive Role where
  /-- Nothing written yet: commits without the clock. -/
  | readOnly
  /-- Has buffered writes: commits under the clock. -/
  | readWrite
  /-- Holds the clock from beginning to end. -/
  | serial
  /-- Runs alone by outside arrangement and leaves the clock be. -/
  | exclusive
  deriving DecidableEq, Repr

/-- Whether reads go straight to memory, without validation. -/
def Role.isIrrevocable : Role → Bool
  | .serial | .exclusive => true
  | .readOnly | .readWrite => false

/-- How an attempt committed. -/
inductive CommitKind where
  /-- Without writes and without the clock. -/
  | readOnly
  /-- Optimistically, under the clock. -/
  | readWrite
  /-- As a serial attempt. -/
  | serial
  /-- As an exclusive attempt. -/
  | exclusive
  deriving DecidableEq, Repr

/-- A software transaction, running or idle. -/
structure Transaction where
  /-- The clock value of the state that all reads so far agree with. -/
  start : Timestamp
  /-- What the attempt is allowed to do. -/
  role : Role
  /-- What was read from memory. -/
  reads : ReadLog
  /-- What is to be written. -/
  writes : WriteLog
  /-- Attempts to take the clock since they were last collected. -/
  lockAttempts : Word
  /-- Whether the transaction has begun and not yet finished. -/
  active : Bool

namespace Transaction

/-! ## Beginning -/

/-- A transaction that has not begun. -/
def idle (clock : Clock) : Transaction where
  start := clock.snapshot
  role := .readOnly
  reads := .empty
  writes := .empty
  lockAttempts := 0
  active := false

/-- The transaction at the start of an attempt in a role, with empty logs. -/
def reset (tx : Transaction) (role : Role) : Transaction :=
  { tx with role, reads := .empty, writes := .empty, active := true }

/-- Begin an optimistic attempt. During another's commit it starts from the state before
that commit. -/
def begin (tx : Transaction) (clock : Clock) : Transaction :=
  { tx.reset .readOnly with start := clock.snapshot }

/-- Begin an attempt that runs alone by outside arrangement. -/
def beginExclusive (tx : Transaction) (clock : Clock) : Transaction :=
  { tx.reset .exclusive with start := clock.snapshot }

/-- Begin an attempt that holds the clock, once the clock is free. -/
def beginSerial (tx : Transaction) (clock : Clock) : Option (Transaction × Clock) := do
  let now ← clock.unlocked?
  let locked ← clock.lock? now
  some ({ tx.reset .serial with start := now, lockAttempts := tx.lockAttempts + 1 }, locked)

/-! ## Validation -/

/-- Compare the read log with memory while no commit is in progress. The result is the
clock value that the log is consistent with. -/
def validate (tx : Transaction) (s : Shared) : Option (Except TxError Timestamp) := do
  let now ← s.clock.unlocked?
  if tx.reads.isConsistent s.memory then
    some (.ok now)
  else
    some (.error .validationFailure)

/-- The clock value that the next read agrees with: the start while the clock stands
there, and the value of a validation after that. -/
def currentStart (tx : Transaction) (s : Shared) : Option (Except TxError Timestamp) :=
  if s.clock.now = tx.start then some (.ok tx.start) else tx.validate s

/-! ## Reading and writing -/

/-- Read the masked bits of the word at `a`; the other bits of the result are zero.
Buffered bits come from the buffer and the rest from memory. An optimistic attempt logs
what it takes from memory. -/
def read (tx : Transaction) (s : Shared) (a : Addr) (mask : Mask) :
    Option (Except TxError Word × Transaction) :=
  let (buffered, covered) := tx.writes.lookup a mask
  if covered = mask then
    some (.ok (buffered &&& mask), tx)
  else
    -- Only the bits that are not buffered come from memory, and only they are logged.
    let remaining := mask &&& ~~~covered
    let value := s.memory.read a
    let result := merge (value &&& remaining) buffered covered
    if tx.role.isIrrevocable then
      some (.ok result, tx)
    else
      match tx.currentStart s with
      | none => none
      | some (.error e) => some (.error e, tx)
      | some (.ok start) =>
          some (.ok result, { tx with start, reads := tx.reads.record a value remaining })

/-- Buffer a write of the masked bits of `v` to the word at `a`. -/
def write (tx : Transaction) (a : Addr) (v : Word) (mask : Mask) : Transaction :=
  let role := if tx.role = .readOnly then .readWrite else tx.role
  { tx with role, writes := tx.writes.insert a v mask }

/-! ## Ending -/

/-- The transaction after its attempt, idle again. -/
def finish (tx : Transaction) : Transaction :=
  { tx with role := .readOnly, reads := .empty, writes := .empty, active := false }

/-- Write the buffer to memory and release the clock taken at `start`. -/
def publish (tx : Transaction) (s : Shared) (start : Timestamp) : Transaction × Shared :=
  ({ tx with start := start + 2 },
    { memory := tx.writes.writeBack s.memory, clock := s.clock.unlock start })

/-- Publish the attempt. A writer whose start is past validates, and on success takes the
clock at the value it validated at. A failed commit leaves the attempt running. -/
def commit (tx : Transaction) (s : Shared) :
    Option (Except TxError CommitKind × Transaction × Shared) :=
  match tx.role with
  | .readOnly => some (.ok .readOnly, tx.finish, s)
  | .readWrite =>
      let tried := { tx with lockAttempts := tx.lockAttempts + 1 }
      match s.clock.lock? tx.start with
      | some locked =>
          -- Nothing was published since the start, so the reads still hold.
          let (tx, s) := tried.publish { s with clock := locked } tx.start
          some (.ok .readWrite, tx.finish, s)
      | none =>
          -- Others have published: the log decides whether they matter.
          match tx.validate s with
          | none => none
          | some (.error _) => some (.error .commitRace, tried, s)
          | some (.ok now) =>
              let retried := { tried with lockAttempts := tried.lockAttempts + 1 }
              match s.clock.lock? now with
              | some locked =>
                  let (tx, s) := retried.publish { s with clock := locked } now
                  some (.ok .readWrite, tx.finish, s)
              | none => none
  | .serial =>
      let (tx, s) := tx.publish s tx.start
      some (.ok .serial, tx.finish, s)
  | .exclusive =>
      some (.ok .exclusive, tx.finish, { s with memory := tx.writes.writeBack s.memory })

/-- The clock after an attempt ended without a commit: a serial attempt releases it. -/
def released (tx : Transaction) (clock : Clock) : Clock :=
  if tx.active ∧ tx.role = .serial then clock.unlock tx.start else clock

/-- Abandon the attempt and discard its logs. An idle transaction stays as it is. -/
def rollback (tx : Transaction) (clock : Clock) : Transaction × Clock :=
  if tx.active then (tx.finish, tx.released clock) else (tx, clock)

/-- The attempts to take the clock since the last call, and the transaction with that
count at zero. -/
def takeLockAttempts (tx : Transaction) : Word × Transaction :=
  (tx.lockAttempts, { tx with lockAttempts := 0 })

end Transaction

end HybridTM

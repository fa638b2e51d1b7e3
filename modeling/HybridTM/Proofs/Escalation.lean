import HybridTM.Proofs.Attempt
import HybridTM.Proofs.Records
import HybridTM.Proofs.Runs

/-!
# Escalation to serial execution

One thread makes calls on the software engine, one after the other, while other threads change the
engine between its steps (`Caller`). Its bodies return an error only to pass on one that a read of
the same invocation gave. Then each invocation that fails brings the context one failure closer to
the bound (`Caller.Underway`), and the one that finds the bound reached is serial and cannot fail
(`Caller.Unfailing`). So a call invokes its body at most once more than failures are left until the
bound, and escalations and serial commits stay in step (`Caller.bounded_of_reachable`).
-/

set_option autoImplicit false

namespace HybridTM

/-! ## Threads that make calls -/

/-- A thread on a software engine that makes calls, with what it has done in the last of them. -/
structure Caller where
  /-- The engine. -/
  engine : Engine
  /-- The context of the thread. -/
  context : Context
  /-- The call that is under way. -/
  call : Option Call
  /-- The context when the last call began. -/
  entry : Context
  /-- The invocations of the body in the last call. -/
  invocations : Nat
  /-- The errors that the reads of the last invocation gave. -/
  errors : List TxError
  /-- The role in which the last call committed. -/
  committed : Option Role

/-- What can happen to a thread. -/
inductive CallerAct where
  /-- It begins a call. -/
  | enter
  /-- Its call makes the next step of its own. -/
  | advance
  /-- Its body reads. -/
  | read (a : Addr) (mask : Mask)
  /-- Its body writes. -/
  | write (a : Addr) (v : Word) (mask : Mask)
  /-- Its body returns. -/
  | endBody (result : Except TxError Word)
  /-- Others leave another engine behind. -/
  | others (engine : Engine)

namespace Caller

/-- A thread before its first call. -/
def start (engine : Engine) (context : Context) : Caller where
  engine := engine
  context := context
  call := none
  entry := context
  invocations := 0
  errors := []
  committed := none

/-- A body returns an error only if a read of the same invocation gave it. Others leave the settings
alone. -/
def Allowed (t : Caller) : CallerAct → Prop
  | .endBody (.error err) => err ∈ t.errors
  | .others engine => engine.config = t.engine.config
  | _ => True

/-- The errors of an invocation after a further read. -/
def collect (errors : List TxError) : Except TxError Word → List TxError
  | .ok _ => errors
  | .error err => errors ++ [err]

/-- What follows a step of a call. An attempt that begins invokes the body. -/
def progress (t : Caller) (call : Call) : CallProgress → Caller
  | .going call' =>
      if call'.stage = .running then
        { t with call := some call', invocations := t.invocations + 1, errors := [] }
      else
        { t with call := some call' }
  | .committed _ => { t with call := none, committed := some call.tx.role }

/-- One step. -/
def act (t : Caller) (x : CallerAct) : Option Caller :=
  match x, t.call with
  | .enter, none =>
      some { t with
        call := some (.new t.engine.clock), entry := t.context, invocations := 0, errors := [],
        committed := none }
  | .advance, some call =>
      (call.advance false t.context t.engine).map fun (progress, context, engine) =>
        { t with context, engine }.progress call progress
  | .read a mask, some ⟨tx, .running⟩ =>
      (tx.read t.engine.shared a mask).map fun (result, tx) =>
        { t with
          call := some ⟨tx, .running⟩, errors := collect t.errors result }
  | .write a v mask, some ⟨tx, .running⟩ =>
      some { t with call := some (Call.write ⟨tx, .running⟩ a v mask) }
  | .endBody result, some ⟨tx, .running⟩ =>
      some { t with call := some (Call.endBody ⟨tx, .running⟩ result) }
  | .others engine, _ => some { t with engine }
  | _, _ => none

instance (t : Caller) : (x : CallerAct) → Decidable (t.Allowed x)
  | .endBody (.error err) => inferInstanceAs (Decidable (err ∈ t.errors))
  | .others engine => inferInstanceAs (Decidable (engine.config = t.engine.config))
  | .endBody (.ok _) | .enter | .advance | .read _ _ | .write _ _ _ =>
      inferInstanceAs (Decidable True)

/-- One step that is allowed. -/
inductive Step (t : Caller) : Caller → Prop
  | act (x : CallerAct) (allowed : t.Allowed x) {t' : Caller} (acts : t.act x = some t') : Step t t'

/-- What steps lead to from a thread before its first call. -/
def Reachable (engine : Engine) (context : Context) (t : Caller) : Prop :=
  Relation.ReflTransGen Step (start engine context) t

/-- The state after steps in the given order, if all of them are allowed and possible. -/
def run (t : Caller) : List CallerAct → Option Caller
  | [] => some t
  | x :: steps => if t.Allowed x then (t.act x).bind fun t' => t'.run steps else none

/-- The failures that were left until a bound when the last call began. -/
def slack (t : Caller) (b : UInt32) : Nat := b.toNat - t.entry.failures.toNat

/-! ## What is promised -/

/-- An invocation that cannot fail: it is serial, none of its reads has failed or can fail, and when
its body has returned a value the call commits, whatever the engine holds. -/
structure Unfailing (t : Caller) (call : Call) : Prop where
  /-- It is serial. -/
  serial : call.tx.role = .serial
  /-- No read has failed. -/
  clean : t.errors = []
  /-- It is running or about to commit. -/
  stage : call.stage = .running ∨ ∃ value, call.stage = .committing value
  /-- Every read succeeds. -/
  reads : ∀ e a mask, ∃ v tx, call.read e a mask = some (.ok v, ⟨tx, call.stage⟩)
  /-- A commit succeeds. -/
  commits : ∀ e value, call.stage = .committing value →
    ∃ c e', call.advance false t.context e = some (.committed value, c, e')

end Caller

/-! ## Serial attempts -/

namespace Transaction

variable {tx tx' : Transaction} {s s' : Shared}

/-- An attempt that holds the clock, or runs alone, reads without validation. -/
theorem read_of_irrevocable (h : tx.role.isIrrevocable = true) (s : Shared) (a : Addr)
    (mask : Mask) : ∃ v, tx.read s a mask = some (.ok v, tx) := by
  unfold read
  simp only [h, if_true]
  split
  · exact ⟨_, rfl⟩
  · exact ⟨_, rfl⟩

/-- A read fails by validation only. -/
theorem read_error {a : Addr} {mask : Mask} {err : TxError}
    (h : tx.read s a mask = some (.error err, tx')) :
    err = .validationFailure ∧ tx.role.isIrrevocable = false := by
  obtain ⟨bits, covered, -, h | h | h | h⟩ := read_cases h
  · obtain ⟨-, herror, -⟩ := h
    cases herror
  · obtain ⟨-, -, herror⟩ := h
    cases herror
  · obtain ⟨-, start, -, herror, -⟩ := h
    cases herror
  · obtain ⟨hrole, e, hstart, herror, -⟩ := h
    refine ⟨?_, hrole⟩
    obtain rfl := Except.error.inj herror
    unfold currentStart validate at hstart
    split at hstart
    · cases hstart
    · obtain ⟨now, -, hvalid⟩ := Option.bind_eq_some_iff.1 hstart
      split at hvalid
      · cases hvalid
      · exact (Except.error.inj (Option.some.inj hvalid)).symm

/-- A serial attempt commits. -/
theorem commit_of_serial (h : tx.role = .serial) (s : Shared) :
    ∃ tx' s', tx.commit s = some (.ok .serial, tx', s') := by
  unfold commit
  rw [h]
  exact ⟨_, _, rfl⟩

/-- The kind of a commit is serial just for a serial attempt. -/
theorem commit_serial_iff {kind : CommitKind} (h : tx.commit s = some (.ok kind, tx', s')) :
    kind = .serial ↔ tx.role = .serial := by
  rcases commit_cases h with ⟨hrole, hkind, -⟩ | ⟨hrole, now, locked, -, -, hkind, -⟩ |
    ⟨-, -, hkind, -⟩ | ⟨hrole, hkind, -⟩ | ⟨hrole, hkind, -⟩
  · obtain rfl := Except.ok.inj hkind
    simp [hrole]
  · obtain rfl := Except.ok.inj hkind
    simp [hrole]
  · cases hkind
  · obtain rfl := Except.ok.inj hkind
    simp [hrole]
  · obtain rfl := Except.ok.inj hkind
    simp [hrole]

end Transaction

/-! ## What is recorded -/

namespace Tally

theorem recordCommit_serial (t : Tally) (kind : CommitKind) :
    (t.recordCommit kind).commitsSerial = t.commitsSerial + (if kind = .serial then 1 else 0) ∧
      (t.recordCommit kind).serialEscalations = t.serialEscalations := by
  cases kind <;> simp [recordCommit]

/-- An abort is neither a commit nor an escalation. -/
theorem recordAbort_serial (t : Tally) (err : TxError) :
    (t.recordAbort err).commitsSerial = t.commitsSerial ∧
      (t.recordAbort err).serialEscalations = t.serialEscalations := by
  unfold recordAbort
  split
  · exact ⟨rfl, rfl⟩
  · exact ⟨rfl, rfl⟩
  · exact ⟨rfl, rfl⟩
  · split <;> exact ⟨rfl, rfl⟩

end Tally

namespace Context

variable (c : Context) (alone : Bool) {err : TxError} (attempts : Word) (bound : UInt32)
  (token : Token)

theorem commitsSerial_afterAbort (err : TxError) :
    (c.afterAbort alone err attempts bound token).1.tally.commitsSerial =
      c.tally.commitsSerial := by
  obtain ⟨escalations, htally⟩ := c.tally_afterAbort alone err attempts bound token
  rw [htally]
  exact (Tally.recordAbort_serial _ err).1

/-- Beside others a failure that may go away is an escalation if it reaches the bound. -/
theorem escalations_afterAbort (h : err.isRetryable = true) :
    (c.afterAbort false err attempts bound token).1.tally.serialEscalations =
      c.tally.serialEscalations + (if bound ≤ c.failures + 1 then 1 else 0) := by
  have hrecord := (Tally.recordAbort_serial (c.countAttempts attempts).tally err).2
  have hkept (c' : Context) : Call.noteExhausted false err c' = c' := by
    cases err with
    | exhausted n => cases h
    | _ => rfl
  unfold afterAbort recordAbort
  by_cases hbound : bound ≤ c.failures + 1
  · have hexhausted : bound ≤ (c.countAttempts attempts).failures + 1 := hbound
    simp only [h, if_true, if_pos hexhausted, if_pos hbound]
    exact congrArg (· + 1) hrecord
  · have hbelow : ¬ bound ≤ (c.countAttempts attempts).failures + 1 := hbound
    simp only [h, if_true, if_neg hbelow, if_neg hbound, hkept, UInt64.add_zero]
    exact hrecord

end Context

namespace Caller

/-! ## The invariant -/

/-- What holds while a call is under way. -/
structure Underway (b : UInt32) (t : Caller) (call : Call) : Prop where
  /-- Every invocation but the one that is running has failed. -/
  failures : t.context.failures.toNat + (if call.stage = .starting then 0 else 1) =
    t.entry.failures.toNat + t.invocations
  /-- Beyond the bound no invocation fails. -/
  reached : t.context.failures.toNat ≤ max b.toNat t.entry.failures.toNat
  /-- An escalation was announced when the bound was reached. -/
  escalations : t.entry.failures < b → t.context.tally.serialEscalations =
    t.entry.tally.serialEscalations + (if b ≤ t.context.failures then 1 else 0)
  /-- There was no serial commit. -/
  commits : t.context.tally.commitsSerial = t.entry.tally.commitsSerial
  /-- The invocation is serial if the bound is reached. -/
  serial : call.stage ≠ .starting → (call.tx.role = .serial ↔ b ≤ t.context.failures)
  /-- A serial invocation has no errors, and the errors of another may go away. -/
  errors : call.stage ≠ .starting →
    ∀ err ∈ t.errors, err.isRetryable = true ∧ call.tx.role ≠ .serial
  /-- So may the one that it failed with. -/
  aborting : ∀ err, call.stage = .aborting err → err.isRetryable = true ∧ call.tx.role ≠ .serial

/-- What holds between calls. -/
structure Resting (b : UInt32) (t : Caller) : Prop where
  /-- The last call invoked its body once more than failures were left, at most. -/
  invocations : t.invocations ≤ t.slack b + 1
  /-- If it came to that, it committed serially. -/
  last : t.invocations = t.slack b + 1 → t.committed = some .serial ∧ t.errors = []
  /-- It escalated if it ended in a serial commit. -/
  escalations : t.entry.failures < b → t.context.tally.serialEscalations =
    t.entry.tally.serialEscalations + (if t.committed = some .serial then 1 else 0)
  /-- It counted its commit. -/
  commits : t.context.tally.commitsSerial =
    t.entry.tally.commitsSerial + (if t.committed = some .serial then 1 else 0)
  /-- It left no failures behind. -/
  failures : t.context.failures ≤ t.entry.failures

/-- What holds of a thread that began with a context on an engine with a bound. -/
structure Sound (b : UInt32) (c : Context) (t : Caller) : Prop where
  /-- The engine has this bound. -/
  bound : t.engine.config.maxFailures = b
  /-- While a call is under way. -/
  underway : ∀ call, t.call = some call → t.Underway b call
  /-- Between calls. -/
  resting : t.call = none → t.Resting b
  /-- Calls begin below the bound and in balance, if the first did. -/
  entry : c.failures < b → c.tally.serialEscalations = c.tally.commitsSerial →
    t.entry.failures < b ∧ t.entry.tally.serialEscalations = t.entry.tally.commitsSerial

variable {b : UInt32} {t t' : Caller} {call call' : Call} {c : Context}

theorem sound_start (e : Engine) (c : Context) :
    (start e c).Sound e.config.maxFailures c where
  bound := rfl
  underway call h := by cases h
  resting _ := {
    invocations := Nat.zero_le _
    last := fun h => absurd h (Nat.succ_ne_zero _).symm
    escalations := fun _ => (UInt64.add_zero _).symm
    commits := (UInt64.add_zero _).symm
    failures := UInt32.le_refl _ }
  entry hbelow hbalanced := ⟨hbelow, hbalanced⟩

namespace Underway

/-- A call that begins has had no failure. -/
theorem enter (b : UInt32) (t : Caller) (call : Call) (h : call.stage = .starting) :
    ({ t with
      call := some call, entry := t.context, invocations := 0, errors := [],
      committed := none } : Caller).Underway b call where
  failures := by rw [if_pos h]
  reached := Nat.le_max_right _ _
  escalations hbelow := by rw [if_neg (UInt32.not_le.2 hbelow), UInt64.add_zero]
  commits := rfl
  serial hstage := absurd h hstage
  errors hstage := absurd h hstage
  aborting err hstage := by rw [h] at hstage; cases hstage

/-- A body is invoked, in the serial role if the bound is reached. -/
theorem begin (U : t.Underway b call) (hstage : call.stage = .starting) {tx : Transaction}
    (hrole : tx.role = .serial ↔ b ≤ t.context.failures) (e : Engine) :
    ({ t with
      engine := e, call := some ⟨tx, .running⟩, invocations := t.invocations + 1,
      errors := [] } : Caller).Underway b ⟨tx, .running⟩ := by
  have hfailures := U.failures
  rw [if_pos hstage] at hfailures
  refine ⟨?_, U.reached, U.escalations, U.commits, fun _ => hrole, nofun, nofun⟩
  rw [if_neg (by simp)]
  exact congrArg (· + 1) hfailures

/-- A commit that failed. -/
theorem failed (U : t.Underway b call) {value : Word} (hstage : call.stage = .committing value)
    {err : TxError} {tx : Transaction} {s : Shared}
    (fails : call.tx.commit t.engine.shared = some (.error err, tx, s)) (e : Engine) :
    ({ t with engine := e, call := some ⟨tx, .aborting err⟩ } : Caller).Underway b
      ⟨tx, .aborting err⟩ := by
  have hpast : call.stage ≠ .starting := by rw [hstage]; simp
  obtain ⟨rfl, hwriter, -, n, rfl⟩ := Transaction.commit_failed fails
  have hshared : call.tx.role ≠ .serial := by rw [hwriter]; decide
  have hfailures := U.failures
  rw [if_neg hpast] at hfailures
  refine ⟨?_, U.reached, U.escalations, U.commits, fun _ => ?_, fun _ err herr => ?_, ?_⟩
  · rw [if_neg (by simp)]
    exact hfailures
  · exact U.serial hpast
  · exact ⟨(U.errors hpast err herr).1, hshared⟩
  · rintro err' ⟨⟩
    exact ⟨rfl, hshared⟩

/-- An attempt that failed was not serial, so that the failure is within the bound. -/
theorem rollback (U : t.Underway b call) {err : TxError} (hstage : call.stage = .aborting err)
    (attempts : Word) (token : Token) (tx : Transaction) (e : Engine) :
    ({ t with
      context := (t.context.afterAbort false err attempts b token).1
      engine := e, call := some ⟨tx, .starting⟩ } : Caller).Underway b ⟨tx, .starting⟩ := by
  have hpast : call.stage ≠ .starting := by rw [hstage]; simp
  obtain ⟨hretry, hshared⟩ := U.aborting err hstage
  have hbelow : t.context.failures < b := by
    rw [← UInt32.not_le, ← U.serial hpast]
    exact hshared
  have hnext : (t.context.failures + 1).toNat = t.context.failures.toNat + 1 := by
    have hlt := UInt32.lt_iff_toNat_lt.1 hbelow
    have hmax : b.toNat < 2 ^ 32 := b.toNat_lt
    rw [UInt32.toNat_add, UInt32.toNat_one, Nat.mod_eq_of_lt (by omega)]
  have hfailures := U.failures
  rw [if_neg hpast] at hfailures
  refine ⟨?_, ?_, fun hentry => ?_, ?_, fun h => absurd rfl h, fun h => absurd rfl h, nofun⟩
  · simp only [if_true, Context.failures_afterAbort, hretry, hnext]
    exact hfailures
  · simp only [Context.failures_afterAbort, hretry, if_true, hnext]
    exact Nat.le_trans (UInt32.lt_iff_toNat_lt.1 hbelow) (Nat.le_max_left _ _)
  · simp only [Context.failures_afterAbort, hretry, if_true]
    rw [Context.escalations_afterAbort _ _ _ _ hretry, U.escalations hentry,
      if_neg (UInt32.not_le.2 hbelow), UInt64.add_zero]
  · rw [Context.commitsSerial_afterAbort]
    exact U.commits

/-- A commit ends the call. -/
theorem commit (U : t.Underway b call) {value : Word} (hstage : call.stage = .committing value)
    {kind : CommitKind} {tx : Transaction} {s : Shared}
    (commits : call.tx.commit t.engine.shared = some (.ok kind, tx, s)) (attempts : Word)
    (token : Token) (e : Engine) :
    ({ t with
      context := (t.context.recordCommit kind attempts token).1
      engine := e, call := none, committed := some call.tx.role } : Caller).Resting b := by
  have hpast : call.stage ≠ .starting := by rw [hstage]; simp
  have hserial := U.serial hpast
  have hreached := U.reached
  have hfailures := U.failures
  rw [if_neg hpast] at hfailures
  obtain ⟨htally, hescalations⟩ :=
    Tally.recordCommit_serial (t.context.countAttempts attempts).tally kind
  refine ⟨?_, fun hlast => ?_, fun hentry => ?_, ?_, UInt32.zero_le⟩
  · simp only [slack]
    omega
  · -- So many invocations are only possible once the bound is reached.
    simp only [slack] at hlast
    have hrole : call.tx.role = .serial := hserial.2 (UInt32.le_iff_toNat_le.2 (by omega))
    refine ⟨congrArg some hrole, List.eq_nil_iff_forall_not_mem.2 fun err herr => ?_⟩
    exact (U.errors hpast err herr).2 hrole
  · simp only [Option.some.injEq, hserial]
    exact hescalations.trans (U.escalations hentry)
  · simp only [Option.some.injEq]
    have hkind : (if kind = .serial then 1 else 0 : UInt64) =
        if call.tx.role = .serial then 1 else 0 := by
      simp only [Transaction.commit_serial_iff commits]
    exact htally.trans (congrArg₂ (· + ·) U.commits hkind)

/-- The body reads, and an error is collected. -/
theorem read {tx tx' : Transaction} (U : t.Underway b ⟨tx, .running⟩) {s : Shared} {a : Addr}
    {mask : Mask} {result : Except TxError Word} (h : tx.read s a mask = some (result, tx')) :
    ({ t with call := some ⟨tx', .running⟩, errors := collect t.errors result } : Caller).Underway b
      ⟨tx', .running⟩ := by
  have hrole := (Transaction.kept_read h).1
  have herrors : ∀ err ∈ t.errors, err.isRetryable = true ∧ tx'.role ≠ .serial := by
    rw [hrole]
    exact U.errors (by simp)
  refine ⟨U.failures, U.reached, U.escalations, U.commits, ?_, fun _ => ?_, nofun⟩
  · rw [hrole]
    exact U.serial
  · cases result with
    | ok v => exact herrors
    | error err =>
      -- Only an attempt that validates can fail to read.
      obtain ⟨rfl, hvalidates⟩ := Transaction.read_error h
      intro err herr
      rcases List.mem_append.1 herr with herr | herr
      · exact herrors err herr
      · obtain rfl := List.mem_singleton.1 herr
        refine ⟨rfl, fun hserial => ?_⟩
        rw [hrole] at hserial
        rw [hserial] at hvalidates
        cases hvalidates

/-- The body writes. -/
theorem write {tx : Transaction} (U : t.Underway b ⟨tx, .running⟩) (a : Addr) (v : Word)
    (mask : Mask) : ({ t with call := some ⟨tx.write a v mask, .running⟩ } : Caller).Underway b
      ⟨tx.write a v mask, .running⟩ := by
  have hserial := tx.serial_write_iff a v mask
  refine ⟨U.failures, U.reached, U.escalations, U.commits, ?_, fun _ err herr => ?_, nofun⟩
  · rw [hserial]
    exact U.serial
  · rw [Ne, hserial]
    exact U.errors (by simp) err herr

/-- The body returns, with an error only if a read gave it. -/
theorem endBody {tx : Transaction} (U : t.Underway b ⟨tx, .running⟩)
    {result : Except TxError Word} (allowed : t.Allowed (.endBody result)) :
    ({ t with call := some (Call.endBody ⟨tx, .running⟩ result) } : Caller).Underway b
      (Call.endBody ⟨tx, .running⟩ result) := by
  have herrors := U.errors (by simp)
  cases result with
  | ok value =>
    exact ⟨U.failures, U.reached, U.escalations, U.commits, fun _ => U.serial (by simp),
      fun _ => herrors, nofun⟩
  | error err =>
    refine ⟨U.failures, U.reached, U.escalations, U.commits, fun _ => U.serial (by simp),
      fun _ => herrors, ?_⟩
    rintro err' ⟨⟩
    exact herrors err allowed

/-- The last invocation that the bound leaves cannot fail. -/
theorem unfailing (U : t.Underway b call) (h : t.invocations = t.slack b + 1) :
    t.Unfailing call := by
  have hreached := U.reached
  have hfailures := U.failures
  simp only [slack] at h
  -- Before an invocation begins there have been fewer.
  have hpast : call.stage ≠ .starting := by
    intro hstage
    rw [if_pos hstage] at hfailures
    omega
  rw [if_neg hpast] at hfailures
  have hrole : call.tx.role = .serial :=
    (U.serial hpast).2 (UInt32.le_iff_toNat_le.2 (by omega))
  refine ⟨hrole, List.eq_nil_iff_forall_not_mem.2 fun err herr => ?_, ?_, fun e a mask => ?_,
    fun e value hstage => ?_⟩
  · exact (U.errors hpast err herr).2 hrole
  · cases hstage : call.stage with
    | starting => exact absurd hstage hpast
    | running => exact Or.inl rfl
    | committing value => exact Or.inr ⟨value, rfl⟩
    | aborting err => exact absurd hrole (U.aborting err hstage).2
  · obtain ⟨v, hread⟩ := Transaction.read_of_irrevocable (by rw [hrole]; rfl) e.shared a mask
    exact ⟨v, call.tx, by rw [Call.read, hread]; rfl⟩
  · obtain ⟨tx, s, hcommit⟩ := Transaction.commit_of_serial hrole e.shared
    exact ⟨_, _, by simp only [Call.advance, hstage, Engine.commit, hcommit]; rfl⟩

end Underway

/-! ## Steps -/

namespace Sound

/-- A step of the call itself. -/
theorem progress (S : t.Sound b c) (U : t.Underway b call) {c' : Context} {e : Engine}
    {progress : CallProgress}
    (h : call.advance false t.context t.engine = some (progress, c', e)) :
    (({ t with context := c', engine := e } : Caller).progress call progress).Sound b c := by
  obtain ⟨R, hconfig⟩ := Call.record_of_advance h
  have hbound : e.config.maxFailures = t.engine.config.maxFailures := by rw [hconfig]
  obtain rfl := S.bound
  generalize e.token = token, e.shared = s at R
  cases R with
  | exclusive stage only => cases only
  | optimistic stage others early allowed =>
    refine ⟨hbound, ?_, nofun, S.entry⟩
    rintro call' ⟨⟩
    exact U.begin stage ⟨fun hrole => (by cases hrole),
      fun hle => absurd early (UInt32.not_lt.2 hle)⟩ e
  | serial stage others due begins =>
    refine ⟨hbound, ?_, nofun, S.entry⟩
    rintro call' ⟨⟩
    obtain ⟨now, -, heq⟩ := Option.bind_eq_some_iff.1 begins
    obtain ⟨locked, -, heq⟩ := Option.bind_eq_some_iff.1 heq
    obtain ⟨rfl, -⟩ := Prod.mk.inj (Option.some.inj heq)
    exact U.begin stage ⟨fun _ => due, fun _ => rfl⟩ e
  | failed stage fails =>
    refine ⟨hbound, ?_, nofun, S.entry⟩
    rintro call' ⟨⟩
    exact U.failed stage fails e
  | rollback stage =>
    refine ⟨hbound, ?_, nofun, S.entry⟩
    rintro call' ⟨⟩
    exact U.rollback stage _ _ _ e
  | commit stage commits =>
    exact ⟨hbound, nofun, fun _ => U.commit stage commits _ _ e, S.entry⟩

/-- Every step that is allowed. -/
theorem act (S : t.Sound b c) {x : CallerAct} (allowed : t.Allowed x) (h : t.act x = some t') :
    t'.Sound b c := by
  unfold Caller.act at h
  split at h
  · next hcall =>
    obtain rfl := Option.some.inj h
    have R := S.resting hcall
    refine ⟨S.bound, ?_, nofun, fun hbelow hbalanced => ?_⟩
    · rintro call' ⟨⟩
      exact .enter b t _ rfl
    · -- The last call left the context below the bound and in balance.
      obtain ⟨hentry, hcounts⟩ := S.entry hbelow hbalanced
      refine ⟨UInt32.lt_of_le_of_lt R.failures hentry, ?_⟩
      exact (R.escalations hentry).trans (by rw [R.commits, hcounts])
  · next call hcall =>
    obtain ⟨⟨progress, context, engine⟩, hadvance, rfl⟩ := Option.map_eq_some_iff.1 h
    exact S.progress (S.underway call hcall) hadvance
  · next a mask tx hcall =>
    obtain ⟨⟨result, tx'⟩, hread, rfl⟩ := Option.map_eq_some_iff.1 h
    refine ⟨S.bound, ?_, nofun, S.entry⟩
    rintro call' ⟨⟩
    exact (S.underway _ hcall).read hread
  · next a v mask tx hcall =>
    obtain rfl := Option.some.inj h
    refine ⟨S.bound, ?_, nofun, S.entry⟩
    rintro call' ⟨⟩
    exact (S.underway _ hcall).write a v mask
  · next result tx hcall =>
    obtain rfl := Option.some.inj h
    refine ⟨S.bound, ?_, nofun, S.entry⟩
    rintro call' ⟨⟩
    exact (S.underway _ hcall).endBody allowed
  · next engine =>
    -- What others do to memory, clock and token does not matter.
    obtain rfl := Option.some.inj h
    have hconfig : engine.config = t.engine.config := allowed
    refine ⟨by rw [hconfig, S.bound], fun call hcall => ?_, fun hcall => ?_, S.entry⟩
    · exact { S.underway call hcall with }
    · exact { S.resting hcall with }
  · cases h

end Sound

theorem sound_of_reachable {e : Engine} (h : Reachable e c t) :
    t.Sound e.config.maxFailures c := by
  induction h with
  | refl => exact sound_start e c
  | tail _ hstep S =>
    obtain ⟨x, allowed, hact⟩ := hstep
    exact S.act allowed hact

theorem steps_of_run {steps : List CallerAct} (h : t.run steps = some t') :
    Relation.ReflTransGen Step t t' := by
  refine reflTransGen_of_run (fun _ => rfl) (fun t x steps t' h => ?_) h
  unfold run at h
  split at h
  · next allowed =>
    obtain ⟨t₁, hact, hrest⟩ := Option.bind_eq_some_iff.1 h
    exact ⟨t₁, .act x allowed hact, hrest⟩
  · cases h

end Caller

end HybridTM

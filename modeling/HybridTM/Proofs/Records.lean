import HybridTM.Proofs.Turns

/-!
# What calls record

What the engine's own next step of a software call leaves in the context of its thread and in the
hourglass token, beside what it does to memory and clock (`Call.Record`). The list is complete
(`Call.record_of_advance`), so that whatever counts commits, failures or holders of the token need
not look into the function.
-/

set_option autoImplicit false

namespace HybridTM

/-- The tally with another number of escalations. -/
def Tally.withEscalations (t : Tally) (n : UInt64) : Tally := { t with serialEscalations := n }

namespace Context

/-- The context and the token after the failure of an attempt was recorded, by a call that runs
alone or beside others. -/
def afterAbort (c : Context) (alone : Bool) (err : TxError) (attempts : Word) (bound : UInt32)
    (token : Token) : Context × Token :=
  let (err, c, token) := c.recordAbort err attempts bound token
  (Call.noteExhausted alone err c, token)

section

variable (c : Context) (alone : Bool) (err : TxError) (attempts : Word) (bound : UInt32)
  (token : Token)

/-- The contention manager hears of every failure. -/
theorem manager_afterAbort :
    ((c.afterAbort alone err attempts bound token).1.manager,
      (c.afterAbort alone err attempts bound token).2) = c.manager.onAbort token := by
  unfold afterAbort recordAbort
  cases err.isRetryable <;> cases alone <;> simp only [Bool.false_eq_true, if_false, if_true] <;>
    unfold Call.noteExhausted <;> split <;> rfl

/-- A failure counts toward the bound if another attempt may succeed. -/
theorem failures_afterAbort : (c.afterAbort alone err attempts bound token).1.failures =
    if err.isRetryable then c.failures + 1 else c.failures := by
  unfold afterAbort recordAbort
  cases err.isRetryable <;> cases alone <;> simp only [Bool.false_eq_true, if_false, if_true] <;>
    unfold Call.noteExhausted <;> split <;> rfl

/-- Beside the attempts to take the clock and the failure only an escalation can be tallied. -/
theorem tally_afterAbort : ∃ n, (c.afterAbort alone err attempts bound token).1.tally =
    ((c.countAttempts attempts).tally.recordAbort err).withEscalations n := by
  unfold afterAbort recordAbort
  cases err.isRetryable <;> cases alone <;> simp only [Bool.false_eq_true, if_false, if_true] <;>
    unfold Call.noteExhausted <;> split <;> exact ⟨_, rfl⟩

end

end Context

namespace Call

/-- What a step of a call does to its context, the token, and memory and clock. -/
inductive Record (call : Call) (alone : Bool) (c : Context) (e : Engine) :
    CallProgress → Context → Token → Shared → Prop
  /-- An attempt of a thread that runs alone begins. -/
  | exclusive (stage : call.stage = .starting) (only : alone = true) :
      Record call alone c e (.going ⟨call.tx.beginExclusive e.clock, .running⟩) c e.token e.shared
  /-- An optimistic attempt begins, as the contention manager allows. -/
  | optimistic (stage : call.stage = .starting) (others : alone = false)
      (early : c.failures < e.config.maxFailures) (allowed : c.manager.mayBegin e.token = true) :
      Record call alone c e (.going ⟨call.tx.begin e.clock, .running⟩) c e.token e.shared
  /-- A serial attempt begins. -/
  | serial (stage : call.stage = .starting) (others : alone = false)
      (due : e.config.maxFailures ≤ c.failures) {tx : Transaction} {clock : Clock}
      (begins : call.tx.beginSerial e.clock = some (tx, clock)) :
      Record call alone c e (.going ⟨tx, .running⟩) c e.token { e.shared with clock }
  /-- The attempt commits. -/
  | commit {value : Word} (stage : call.stage = .committing value) {kind : CommitKind}
      {tx : Transaction} {s : Shared} (commits : call.tx.commit e.shared = some (.ok kind, tx, s)) :
      Record call alone c e (.committed value) (c.recordCommit kind tx.lockAttempts e.token).1
        (c.recordCommit kind tx.lockAttempts e.token).2 s
  /-- The attempt fails to commit. -/
  | failed {value : Word} (stage : call.stage = .committing value) {err : TxError}
      {tx : Transaction} {s : Shared} (fails : call.tx.commit e.shared = some (.error err, tx, s)) :
      Record call alone c e (.going ⟨tx, .aborting err⟩) c e.token s
  /-- The attempt is rolled back. -/
  | rollback {err : TxError} (stage : call.stage = .aborting err) :
      Record call alone c e (.going ⟨rolledBack call.tx e.clock, .starting⟩)
        (c.afterAbort alone err (call.tx.rollback e.clock).1.lockAttempts e.config.maxFailures
          e.token).1
        (c.afterAbort alone err (call.tx.rollback e.clock).1.lockAttempts e.config.maxFailures
          e.token).2
        { e.shared with clock := (call.tx.rollback e.clock).2 }

variable {call : Call} {alone : Bool} {c c' : Context} {e e' : Engine} {progress : CallProgress}

/-- Every step of a call is recorded, and the settings of the engine stay. -/
theorem record_of_advance (h : call.advance alone c e = some (progress, c', e')) :
    Record call alone c e progress c' e'.token e'.shared ∧ e'.config = e.config := by
  unfold advance at h
  split at h
  · next hstage =>
    obtain ⟨⟨call', e₁⟩, hstart, heq⟩ := Option.map_eq_some_iff.1 h
    obtain ⟨rfl, rfl, rfl⟩ : CallProgress.going call' = progress ∧ c = c' ∧ e₁ = e' := by
      simpa using heq
    unfold start at hstart
    split at hstart
    · next halone =>
      obtain ⟨rfl, rfl⟩ := Prod.mk.inj (Option.some.inj hstart)
      exact ⟨.exclusive hstage halone, rfl⟩
    · next halone =>
      rw [Bool.not_eq_true] at halone
      obtain ⟨⟨tx, e₂⟩, hbegin, heq⟩ := Option.map_eq_some_iff.1 hstart
      obtain ⟨rfl, rfl⟩ := Prod.mk.inj heq
      -- The failures of the context decide which attempt is due.
      unfold Engine.beginAttempt at hbegin
      split at hbegin
      · next hdue =>
        obtain ⟨⟨tx', clock⟩, hserial, heq⟩ := Option.bind_eq_some_iff.1 hbegin
        obtain ⟨rfl, rfl⟩ := Prod.mk.inj (Option.some.inj heq)
        exact ⟨.serial hstage halone (of_decide_eq_true hdue) hserial, rfl⟩
      · next hearly =>
        split at hbegin
        · next hallowed =>
          obtain ⟨rfl, rfl⟩ := Prod.mk.inj (Option.some.inj hbegin)
          rw [Bool.not_eq_true] at hearly
          exact ⟨.optimistic hstage halone (UInt32.not_le.1 (of_decide_eq_false hearly)) hallowed,
            rfl⟩
        · cases hbegin
  · cases h
  · next value hstage =>
    unfold Engine.commit at h
    rcases hcommit : call.tx.commit e.shared with _ | ⟨_ | kind, tx, shared⟩
    · rw [hcommit] at h
      cases h
    · rw [hcommit] at h
      obtain ⟨rfl, rfl, rfl⟩ : _ ∧ _ ∧ _ := by simpa using h
      exact ⟨.failed hstage hcommit, rfl⟩
    · rw [hcommit] at h
      obtain ⟨rfl, rfl, rfl⟩ : _ ∧ _ ∧ _ := by simpa using h
      exact ⟨.commit hstage hcommit, rfl⟩
  · next err hstage =>
    obtain ⟨rfl, rfl, rfl⟩ : _ ∧ _ ∧ _ := by simpa using h
    exact ⟨.rollback hstage, rfl⟩

end Call

end HybridTM

import HybridTM.Proofs.Attempt

/-!
# What transactions do to the clock

Everything a transaction can be asked to do is one action (`TxAction`), and an action reaches the
clock only by taking and releasing it (`Transaction.clockActs`): these acts, made in order, lead
from the clock before the action to the clock after it, and each attempt to take the clock is
counted once (`Transaction.perform_clockActs`).
-/

set_option autoImplicit false

namespace HybridTM

/-! ## Actions -/

/-- What a transaction can be asked to do. -/
inductive TxAction where
  /-- Begin an optimistic attempt. -/
  | begin
  /-- Begin a serial attempt. -/
  | beginSerial
  /-- Begin an exclusive attempt. -/
  | beginExclusive
  /-- Read. -/
  | read (a : Addr) (mask : Mask)
  /-- Write. -/
  | write (a : Addr) (v : Word) (mask : Mask)
  /-- Commit. -/
  | commit
  /-- Roll back. -/
  | rollback
  /-- Drop the transaction and make a new one in its place. -/
  | drop
  deriving DecidableEq

/-- What a transaction answers. -/
inductive TxAnswer where
  /-- Nothing. -/
  | done
  /-- The result of a read. -/
  | value (result : Except TxError Word)
  /-- How a commit ended. -/
  | committed (result : Except TxError CommitKind)

/-- What callers promise: an attempt begins when none is under way, and only an attempt that is
under way reads, writes and commits. -/
def TxAction.Allowed (tx : Transaction) : TxAction → Prop
  | .begin | .beginSerial | .beginExclusive => tx.active = false
  | .read _ _ | .write _ _ _ | .commit => tx.active = true
  | .rollback | .drop => True

instance (tx : Transaction) : (x : TxAction) → Decidable (x.Allowed tx)
  | .begin | .beginSerial | .beginExclusive => inferInstanceAs (Decidable (tx.active = false))
  | .read _ _ | .write _ _ _ | .commit => inferInstanceAs (Decidable (tx.active = true))
  | .rollback | .drop => inferInstanceAs (Decidable True)

namespace Transaction

/-- Do as asked. An action that would have to wait for the clock is not possible. -/
def perform (tx : Transaction) (s : Shared) : TxAction → Option (TxAnswer × Transaction × Shared)
  | .begin => some (.done, tx.begin s.clock, s)
  | .beginSerial => (tx.beginSerial s.clock).map fun (tx, clock) => (.done, tx, { s with clock })
  | .beginExclusive => some (.done, tx.beginExclusive s.clock, s)
  | .read a mask => (tx.read s a mask).map fun (result, tx) => (.value result, tx, s)
  | .write a v mask => some (.done, tx.write a v mask, s)
  | .commit => (tx.commit s).map fun (result, tx, s) => (.committed result, tx, s)
  | .rollback =>
      let (tx, clock) := tx.rollback s.clock
      some (.done, tx, { s with clock })
  | .drop =>
      let clock := tx.released s.clock
      some (.done, .idle clock, { s with clock })

/-- An attempt that holds the clock throughout is under way. -/
def HoldsClock (tx : Transaction) : Prop := tx.active = true ∧ tx.role = .serial

instance (tx : Transaction) : Decidable tx.HoldsClock :=
  inferInstanceAs (Decidable (_ ∧ _))

variable {tx : Transaction}

theorem not_holdsClock_of_idle (h : tx.active = false) : ¬ tx.HoldsClock := by
  rintro ⟨hactive, -⟩
  rw [h] at hactive
  cases hactive

theorem not_holdsClock_of_role (h : tx.role ≠ .serial) : ¬ tx.HoldsClock := fun hholds => h hholds.2

end Transaction

/-! ## Acts on the clock -/

/-- What an action does to the clock. -/
inductive ClockAct where
  /-- It tries to take the clock, expecting a value. -/
  | lock (expected : Timestamp)
  /-- It releases the clock, which it took at a value. -/
  | unlock (lockedAt : Timestamp)

namespace ClockAct

/-- The clock after an act. An attempt to take it that fails leaves it alone. -/
def apply (c : Clock) : ClockAct → Clock
  | .lock expected => (c.lock? expected).getD c
  | .unlock lockedAt => c.unlock lockedAt

/-- What must hold of the clock when the act is made: it is taken at an even value only, and who
releases it holds it. -/
def Asserted (c : Clock) : ClockAct → Prop
  | .lock expected => expected.toNat % 2 = 0
  | .unlock lockedAt => c.now = lockedAt + 1

/-- Whether an act tries to take the clock. -/
def isLock : ClockAct → Bool
  | .lock _ => true
  | .unlock _ => false

/-- All acts are asserted when they are made one after the other. -/
def AllAsserted : Clock → List ClockAct → Prop
  | _, [] => True
  | c, act :: acts => act.Asserted c ∧ AllAsserted (act.apply c) acts

end ClockAct

namespace Transaction

/-- The acts on the clock of a commit: an optimistic writer tries to take the clock at its start
and, when others have published and its reads still hold, where it validated. -/
def commitActs (tx : Transaction) (s : Shared) : List ClockAct :=
  match tx.role with
  | .readOnly | .exclusive => []
  | .readWrite =>
      match s.clock.lock? tx.start with
      | some _ => [.lock tx.start, .unlock tx.start]
      | none =>
          match tx.validate s with
          | some (.ok now) => [.lock tx.start, .lock now, .unlock now]
          | _ => [.lock tx.start]
  | .serial => [.unlock tx.start]

/-- The acts on the clock of an attempt that ends without a commit. -/
def releaseActs (tx : Transaction) : List ClockAct :=
  if tx.HoldsClock then [.unlock tx.start] else []

/-- The acts on the clock of an action, in order. -/
def clockActs (tx : Transaction) (s : Shared) : TxAction → List ClockAct
  | .begin | .beginExclusive | .read _ _ | .write _ _ _ => []
  | .beginSerial => (s.clock.unlocked?.map .lock).toList
  | .commit => tx.commitActs s
  | .rollback | .drop => tx.releaseActs

variable {tx tx' : Transaction} {s s' : Shared} {answer : TxAnswer}

/-- A clock that waiters have found free can be taken where they found it. -/
theorem lock?_of_unlocked? {c : Clock} {now : Timestamp} (h : c.unlocked? = some now) :
    c.lock? now = some ⟨now + 1⟩ :=
  Clock.lock?_eq_some_iff.2 ⟨(Clock.unlocked?_eq_some_iff.1 h).2, rfl⟩

theorem beginSerial_eq_some {c c' : Clock} (h : tx.beginSerial c = some (tx', c')) :
    ∃ now, c.unlocked? = some now ∧ c' = ⟨now + 1⟩ ∧
      tx' = { tx.reset .serial with start := now, lockAttempts := tx.lockAttempts + 1 } := by
  unfold beginSerial at h
  obtain ⟨now, hnow, h⟩ := Option.bind_eq_some_iff.1 h
  rw [lock?_of_unlocked? hnow] at h
  obtain ⟨rfl, rfl⟩ := Prod.mk.inj (Option.some.inj h)
  exact ⟨now, hnow, rfl, rfl⟩

theorem commitActs_spec {result : Except TxError CommitKind}
    (h : tx.commit s = some (result, tx', s')) :
    s'.clock = (tx.commitActs s).foldl ClockAct.apply s.clock ∧
      tx'.lockAttempts = tx.lockAttempts + .ofNat ((tx.commitActs s).countP (·.isLock)) := by
  unfold commit at h
  unfold commitActs
  cases hrole : tx.role with
  | readOnly =>
    simp only [hrole, Option.some.injEq, Prod.mk.injEq] at h
    obtain ⟨-, rfl, rfl⟩ := h
    simp [finish]
  | exclusive =>
    simp only [hrole, Option.some.injEq, Prod.mk.injEq] at h
    obtain ⟨-, rfl, rfl⟩ := h
    simp [finish]
  | serial =>
    simp only [hrole, Option.some.injEq, Prod.mk.injEq, publish] at h
    obtain ⟨-, rfl, rfl⟩ := h
    simp [finish, ClockAct.apply, ClockAct.isLock]
  | readWrite =>
    simp only [hrole] at h
    cases hlock : s.clock.lock? tx.start with
    | some locked =>
      simp only [hlock, Option.some.injEq, Prod.mk.injEq, publish] at h
      obtain ⟨-, rfl, rfl⟩ := h
      simp [finish, ClockAct.apply, ClockAct.isLock, hlock]
    | none =>
      simp only [hlock] at h
      rcases hval : tx.validate s with _ | _ | now
      · simp [hval] at h
      · simp only [hval, Option.some.injEq, Prod.mk.injEq] at h
        obtain ⟨-, rfl, rfl⟩ := h
        simp [ClockAct.apply, ClockAct.isLock, hlock]
      · simp only [hval] at h
        cases hretry : s.clock.lock? now with
        | none => simp [hretry] at h
        | some locked =>
          simp only [hretry, Option.some.injEq, Prod.mk.injEq, publish] at h
          obtain ⟨-, rfl, rfl⟩ := h
          have twice : tx.lockAttempts + 1 + 1 = tx.lockAttempts + 2 := UInt64.add_assoc ..
          simp [finish, ClockAct.apply, ClockAct.isLock, hlock, hretry, twice]

/-- A read counts no attempt to take the clock. -/
theorem lockAttempts_read {a : Addr} {mask : Mask} {result : Except TxError Word}
    (h : tx.read s a mask = some (result, tx')) : tx'.lockAttempts = tx.lockAttempts := by
  obtain ⟨bits, covered, -, h | h | h | h⟩ := read_cases h
  · obtain ⟨-, -, rfl⟩ := h
    rfl
  · obtain ⟨-, rfl, -⟩ := h
    rfl
  · obtain ⟨-, start, -, -, rfl⟩ := h
    rfl
  · obtain ⟨-, e, -, -, rfl⟩ := h
    rfl

/-- Who holds the clock releases it when the attempt ends, and nobody else does. -/
theorem released_eq (tx : Transaction) (c : Clock) :
    tx.released c = if tx.HoldsClock then c.unlock tx.start else c := rfl

theorem rollback_clock (tx : Transaction) (c : Clock) :
    (tx.rollback c).2 = if tx.HoldsClock then c.unlock tx.start else c := by
  unfold rollback
  split
  · exact tx.released_eq c
  · next hidle => rw [if_neg fun hholds => hidle hholds.1]

theorem lockAttempts_rollback (tx : Transaction) (c : Clock) :
    (tx.rollback c).1.lockAttempts = tx.lockAttempts := by
  unfold rollback
  split <;> rfl

theorem releaseActs_clock (tx : Transaction) (c : Clock) :
    tx.releaseActs.foldl ClockAct.apply c = if tx.HoldsClock then c.unlock tx.start else c := by
  unfold releaseActs
  split <;> rfl

theorem releaseActs_locks (tx : Transaction) : tx.releaseActs.countP (·.isLock) = 0 := by
  unfold releaseActs
  split <;> rfl

/-- The acts of an action lead from the clock before it to the clock after it, and those that try to
take the clock are the attempts that the transaction counts, until it is dropped. -/
theorem perform_clockActs {x : TxAction} (h : tx.perform s x = some (answer, tx', s')) :
    s'.clock = (tx.clockActs s x).foldl ClockAct.apply s.clock ∧
      (x ≠ .drop →
        tx'.lockAttempts = tx.lockAttempts + .ofNat ((tx.clockActs s x).countP (·.isLock))) := by
  cases x with
  | begin =>
    cases h
    simp [clockActs, begin, reset]
  | beginExclusive =>
    cases h
    simp [clockActs, beginExclusive, reset]
  | beginSerial =>
    obtain ⟨⟨tx₁, c⟩, hbegin, heq⟩ := Option.map_eq_some_iff.1 h
    obtain ⟨-, rfl, rfl⟩ : _ ∧ _ ∧ _ := by simpa using heq
    obtain ⟨now, hnow, rfl, rfl⟩ := beginSerial_eq_some hbegin
    simp [clockActs, hnow, ClockAct.apply, ClockAct.isLock, lock?_of_unlocked? hnow]
  | read a mask =>
    obtain ⟨⟨result, tx₁⟩, hread, heq⟩ := Option.map_eq_some_iff.1 h
    obtain ⟨-, rfl, rfl⟩ : _ ∧ _ ∧ _ := by simpa using heq
    refine ⟨rfl, fun _ => ?_⟩
    rw [lockAttempts_read hread]
    simp [clockActs]
  | write a v mask =>
    cases h
    simp [clockActs, write]
  | commit =>
    obtain ⟨⟨result, tx₁, s₁⟩, hcommit, heq⟩ := Option.map_eq_some_iff.1 h
    obtain ⟨-, rfl, rfl⟩ : _ ∧ _ ∧ _ := by simpa using heq
    obtain ⟨hclock, hattempts⟩ := commitActs_spec hcommit
    exact ⟨hclock, fun _ => hattempts⟩
  | rollback =>
    obtain ⟨-, rfl, rfl⟩ : _ ∧ _ ∧ _ := by simpa [perform] using h
    refine ⟨?_, fun _ => ?_⟩
    · rw [rollback_clock, clockActs, releaseActs_clock]
    · rw [lockAttempts_rollback, clockActs, releaseActs_locks]
      simp
  | drop =>
    obtain ⟨-, rfl, rfl⟩ : _ ∧ _ ∧ _ := by simpa [perform] using h
    refine ⟨?_, fun hne => absurd rfl hne⟩
    rw [released_eq, clockActs, releaseActs_clock]

end Transaction

end HybridTM

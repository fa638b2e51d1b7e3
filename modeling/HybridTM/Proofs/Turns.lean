import HybridTM.Hardware.Execution
import HybridTM.Software.Call

/-!
# Turns of calls and executions

What the engine's own next step of a software call can be, and what it does to memory and clock
(`Call.Turn`); and the same for a hardware execution and memory (`Execution.Turn`). Both lists are
complete (`Call.turn_of_advance`, `Execution.turn_of_advance`), so that nothing else has to look
into the two functions.
-/

set_option autoImplicit false

namespace HybridTM

namespace Call

/-- The transaction after a rollback that has been recorded. -/
def rolledBack (tx : Transaction) (clock : Clock) : Transaction :=
  (tx.rollback clock).1.takeLockAttempts.2

/-- The turns of a call over memory and clock. -/
inductive Turn (call : Call) (alone : Bool) (s : Shared) : CallProgress → Shared → Prop
  /-- An attempt of a thread that runs alone begins. -/
  | exclusive (stage : call.stage = .starting) (only : alone = true) :
      Turn call alone s (.going ⟨call.tx.beginExclusive s.clock, .running⟩) s
  /-- An optimistic attempt begins. -/
  | optimistic (stage : call.stage = .starting) (others : alone = false) :
      Turn call alone s (.going ⟨call.tx.begin s.clock, .running⟩) s
  /-- A serial attempt begins. -/
  | serial (stage : call.stage = .starting) (others : alone = false) {tx : Transaction}
      {clock : Clock} (begins : call.tx.beginSerial s.clock = some (tx, clock)) :
      Turn call alone s (.going ⟨tx, .running⟩) { s with clock }
  /-- The attempt commits. -/
  | commit {value : Word} (stage : call.stage = .committing value) {kind : CommitKind}
      {tx : Transaction} {s' : Shared} (commits : call.tx.commit s = some (.ok kind, tx, s')) :
      Turn call alone s (.committed value) s'
  /-- The attempt fails to commit. -/
  | failed {value : Word} (stage : call.stage = .committing value) {err : TxError}
      {tx : Transaction} {s' : Shared} (fails : call.tx.commit s = some (.error err, tx, s')) :
      Turn call alone s (.going ⟨tx, .aborting err⟩) s'
  /-- The attempt is rolled back. -/
  | rollback {err : TxError} (stage : call.stage = .aborting err) :
      Turn call alone s (.going ⟨rolledBack call.tx s.clock, .starting⟩)
        { s with clock := (call.tx.rollback s.clock).2 }

/-- Every step of a call is one of its turns. -/
theorem turn_of_advance {call : Call} {alone : Bool} {c c' : Context} {e e' : Engine}
    {progress : CallProgress} (h : call.advance alone c e = some (progress, c', e')) :
    Turn call alone e.shared progress e'.shared := by
  unfold advance at h
  split at h
  · next hstage =>
    obtain ⟨⟨call', e₁⟩, hstart, heq⟩ := Option.map_eq_some_iff.1 h
    obtain ⟨rfl, -, rfl⟩ : CallProgress.going call' = progress ∧ c = c' ∧ e₁ = e' := by
      simpa using heq
    -- The context only decides which attempt begins, and when.
    unfold start at hstart
    split at hstart
    · next halone =>
      obtain ⟨rfl, rfl⟩ := Prod.mk.inj (Option.some.inj hstart)
      exact .exclusive hstage halone
    · next halone =>
      rw [Bool.not_eq_true] at halone
      obtain ⟨⟨tx, e₂⟩, hbegin, heq⟩ := Option.map_eq_some_iff.1 hstart
      obtain ⟨rfl, rfl⟩ := Prod.mk.inj heq
      unfold Engine.beginAttempt at hbegin
      split at hbegin
      · obtain ⟨⟨tx', clock⟩, hserial, heq⟩ := Option.bind_eq_some_iff.1 hbegin
        obtain ⟨rfl, rfl⟩ := Prod.mk.inj (Option.some.inj heq)
        exact .serial hstage halone hserial
      · split at hbegin
        · obtain ⟨rfl, rfl⟩ := Prod.mk.inj (Option.some.inj hbegin)
          exact .optimistic hstage halone
        · cases hbegin
  · cases h
  · next value hstage =>
    unfold Engine.commit at h
    rcases hcommit : call.tx.commit e.shared with _ | ⟨_ | kind, tx, shared⟩
    · rw [hcommit] at h
      cases h
    · rw [hcommit] at h
      obtain ⟨rfl, -, rfl⟩ : _ ∧ _ ∧ _ := by simpa using h
      exact .failed hstage hcommit
    · rw [hcommit] at h
      obtain ⟨rfl, -, rfl⟩ : _ ∧ _ ∧ _ := by simpa using h
      exact .commit hstage hcommit
  · next err hstage =>
    obtain ⟨rfl, -, rfl⟩ : _ ∧ _ ∧ _ := by simpa using h
    exact .rollback hstage

end Call

namespace Execution

/-- The turns of an execution over memory. -/
inductive Turn (b : Backend) (m : Memory) : Execution → Execution → Backend → Memory → Prop
  /-- There is no region. -/
  | refused {abort : HardwareAbort} {b' : Backend} (enters : b.enter = (.error abort, b')) :
      Turn b m .starting (.done (.error abort)) b' m
  /-- A region starts. -/
  | entered {r : Region} {b' : Backend} (enters : b.enter = (.ok r, b')) :
      Turn b m .starting (.running r) b' m
  /-- A doomed region aborts. -/
  | doomed {r : Region} (value : Word) {abort : HardwareAbort} (doomed : r.doomed = some abort) :
      Turn b m (.returned r value) (.done (.error abort)) b m
  /-- The hook is called. -/
  | hook {r : Region} (value : Word) (name : Hook) (sound : r.doomed = none) :
      Turn b m (.returned r value) (.hook name r value) b m
  /-- There is no hook. -/
  | ready {r : Region} (value : Word) (sound : r.doomed = none) :
      Turn b m (.returned r value) (.committing r value) b m
  /-- The hook returns. -/
  | resumed (name : Hook) (r : Region) (value : Word) :
      Turn b m (.hook name r value) (.committing r value) b m
  /-- The region commits. -/
  | commit {r : Region} (value : Word) {b' : Backend} {m' : Memory}
      (commits : b.commit r m = .ok (b', m')) :
      Turn b m (.committing r value) (.done (.ok value)) b' m'
  /-- The region fails to commit. -/
  | conflict {r : Region} (value : Word) {abort : HardwareAbort}
      (fails : b.commit r m = .error abort) :
      Turn b m (.committing r value) (.done (.error abort)) b m

/-- Every step of an execution is one of its turns. -/
theorem turn_of_advance {x x' : Execution} {b b' : Backend} {m m' : Memory}
    (h : x.advance b m = some (x', b', m')) : Turn b m x x' b' m' := by
  cases x with
  | starting =>
    rcases henter : b.enter with ⟨abort | r, b₁⟩ <;> rw [advance, henter] at h
    · obtain ⟨rfl, rfl, rfl⟩ : _ ∧ _ ∧ _ := by simpa using h
      exact .refused henter
    · obtain ⟨rfl, rfl, rfl⟩ : _ ∧ _ ∧ _ := by simpa using h
      exact .entered henter
  | running r => cases h
  | returned r value =>
    cases hdoomed : r.doomed with
    | some abort =>
      rw [advance, hdoomed] at h
      obtain ⟨rfl, rfl, rfl⟩ : _ ∧ _ ∧ _ := by simpa using h
      exact .doomed value hdoomed
    | none =>
      cases hhook : b.dueHook with
      | some name =>
        rw [advance, hdoomed, hhook] at h
        obtain ⟨rfl, rfl, rfl⟩ : _ ∧ _ ∧ _ := by simpa using h
        exact .hook value name hdoomed
      | none =>
        rw [advance, hdoomed, hhook] at h
        obtain ⟨rfl, rfl, rfl⟩ : _ ∧ _ ∧ _ := by simpa using h
        exact .ready value hdoomed
  | hook name r value =>
    obtain ⟨rfl, rfl, rfl⟩ : _ ∧ _ ∧ _ := by simpa [advance] using h
    exact .resumed name r value
  | committing r value =>
    rcases hcommit : b.commit r m with abort | ⟨b₁, m₁⟩ <;> rw [advance, hcommit] at h
    · obtain ⟨rfl, rfl, rfl⟩ : _ ∧ _ ∧ _ := by simpa using h
      exact .conflict value hcommit
    · obtain ⟨rfl, rfl, rfl⟩ : _ ∧ _ ∧ _ := by simpa using h
      exact .commit value hcommit
  | done result => cases h

end Execution

end HybridTM

import HybridTM.Proofs.Runs
import HybridTM.Proofs.TxAction
import Mathlib.Logic.Function.Basic

/-!
# The clock counts publications

Any number of transactions share one clock and act in any order and in any role. The clock always
shows twice the number of publications, which are the commits of optimistic writers and the ends of
serial attempts, and one more while a serial attempt is under way
(`TxPool.clockInvariant_of_reachable`).

An action does one of four things to the clock (`ClockEffect`): nothing, or it takes the clock for a
serial attempt, or it takes and releases it for a writer, or it releases it at the end of a serial
attempt. The clock has 64 bits, so that this holds as long as it was taken fewer than `clockLimit`
times.
-/

set_option autoImplicit false

namespace HybridTM

/-! ## Transactions on one clock -/

/-- What transactions did to their clock. -/
structure ClockTally where
  /-- The commits of optimistic writers that succeeded. -/
  writers : Nat
  /-- The serial attempts that began. -/
  begun : Nat
  /-- The serial attempts that ended, by a commit, a rollback or a drop. -/
  ended : Nat
  deriving DecidableEq

namespace ClockTally

/-- How often the clock was released. -/
def publications (n : ClockTally) : Nat := n.writers + n.ended

/-- How often the clock was taken. -/
def acquisitions (n : ClockTally) : Nat := n.writers + n.begun

/-- The tally after an action of a transaction. -/
def record (n : ClockTally) (tx : Transaction) : TxAction → TxAnswer → ClockTally
  | .beginSerial, _ => { n with begun := n.begun + 1 }
  | .commit, .committed (.ok .readWrite) => { n with writers := n.writers + 1 }
  | .commit, .committed (.ok .serial) => { n with ended := n.ended + 1 }
  | .rollback, _ | .drop, _ => if tx.HoldsClock then { n with ended := n.ended + 1 } else n
  | _, _ => n

theorem acquisitions_le_record (n : ClockTally) (tx : Transaction) (x : TxAction)
    (answer : TxAnswer) : n.acquisitions ≤ (n.record tx x answer).acquisitions := by
  unfold record acquisitions
  split
  · simp only; omega
  · simp only; omega
  · exact Nat.le_refl _
  · split <;> exact Nat.le_refl _
  · split <;> exact Nat.le_refl _
  · exact Nat.le_refl _

end ClockTally

/-- Transactions on one clock, with a tally that none of them reads. -/
structure TxPool (ι : Type) where
  /-- Memory and clock. -/
  shared : Shared
  /-- The transactions. -/
  tx : ι → Transaction
  /-- What they did to the clock. -/
  tally : ClockTally

namespace TxPool

variable {ι : Type} [DecidableEq ι]

/-- New transactions on a fresh clock. -/
def init (m : Memory) : TxPool ι := ⟨⟨m, .zero⟩, fun _ => .idle .zero, ⟨0, 0, 0⟩⟩

/-- The state after one transaction was asked for an action, which is not possible when callers
promised not to ask for it or when it would have to wait for the clock. -/
def act (s : TxPool ι) (i : ι) (x : TxAction) : Option (TxPool ι) :=
  if x.Allowed (s.tx i) then
    ((s.tx i).perform s.shared x).map fun (answer, tx, shared) =>
      ⟨shared, Function.update s.tx i tx, s.tally.record (s.tx i) x answer⟩
  else
    none

/-- One transaction acts. -/
def Step (s s' : TxPool ι) : Prop := ∃ i x, s.act i x = some s'

/-- The states that actions lead to from new transactions. -/
def Reachable (m : Memory) (s : TxPool ι) : Prop := Relation.ReflTransGen Step (init m) s

/-- The state after actions in the given order, if all of them are possible. -/
def run (s : TxPool ι) : List (ι × TxAction) → Option (TxPool ι)
  | [] => some s
  | (i, x) :: actions => (s.act i x).bind fun s' => s'.run actions

/-- What holds of the clock in every reachable state. -/
structure ClockInvariant (s : TxPool ι) : Prop where
  /-- While no serial attempt is under way the clock shows twice the number of publications. -/
  free : (∀ i, ¬ (s.tx i).HoldsClock) → s.shared.clock.now.toNat = 2 * s.tally.publications
  /-- While one is under way it shows one more. -/
  held : ∀ i, (s.tx i).HoldsClock → s.shared.clock.now.toNat = 2 * s.tally.publications + 1
  /-- There is at most one. -/
  unique : ∀ i j, (s.tx i).HoldsClock → (s.tx j).HoldsClock → i = j
  /-- An optimistic attempt starts at an even value that the clock has shown. -/
  start : ∀ i, (s.tx i).active = true → (s.tx i).role.isIrrevocable = false →
    (s.tx i).start.toNat % 2 = 0 ∧ (s.tx i).start ≤ s.shared.clock.now
  /-- No action sets the clock back. -/
  forward : ∀ s', Step s s' → s'.tally.acquisitions < clockLimit →
    s.shared.clock.now ≤ s'.shared.clock.now
  /-- Whoever takes the clock expects an even value, and whoever releases it holds it. -/
  asserted : ∀ i x, x.Allowed (s.tx i) →
    ClockAct.AllAsserted s.shared.clock ((s.tx i).clockActs s.shared x)
  /-- There are no other acts on the clock, and each attempt to take it is counted. -/
  accounted : ∀ i x answer tx shared, (s.tx i).perform s.shared x = some (answer, tx, shared) →
    shared.clock = ((s.tx i).clockActs s.shared x).foldl ClockAct.apply s.shared.clock ∧
      (x ≠ .drop → tx.lockAttempts = (s.tx i).lockAttempts +
        .ofNat (((s.tx i).clockActs s.shared x).countP (·.isLock)))
  /-- From its beginning to its end a read-only or exclusive attempt leaves the clock alone and
  makes no attempt to take it. -/
  apart : ∀ i x answer tx shared, (s.tx i).perform s.shared x = some (answer, tx, shared) →
    x.Allowed (s.tx i) → (x = .begin ∨ x = .beginExclusive ∨ (s.tx i).active = true ∧
      ((s.tx i).role = .readOnly ∨ (s.tx i).role = .exclusive)) →
    shared.clock = s.shared.clock ∧ (x ≠ .drop → tx.lockAttempts = (s.tx i).lockAttempts)

end TxPool

/-! ## One action -/

/-- A transaction knows the clock: a serial attempt knows that it holds it and since when, and an
optimistic one has started at a value that was published. -/
structure Transaction.Timed (tx : Transaction) (n : Nat) (held : Bool) : Prop where
  /-- A serial attempt holds the clock. -/
  serial : tx.HoldsClock → held = true ∧ tx.start = stamp n
  /-- An optimistic attempt started at an earlier publication or at the last. -/
  optimistic : tx.active = true → tx.role.isIrrevocable = false → ∃ k, k ≤ n ∧ tx.start = stamp k

namespace Transaction

variable {tx tx' : Transaction} {n : Nat} {held : Bool}

/-- A transaction that is idle knows all there is to know. -/
theorem timed_of_idle (h : tx.active = false) : tx.Timed n held where
  serial hholds := absurd hholds (not_holdsClock_of_idle h)
  optimistic hactive := by rw [h] at hactive; cases hactive

end Transaction

/-- What an action of a transaction does to the clock, from `n` publications on. -/
inductive ClockEffect (tx : Transaction) (n : Nat) (held : Bool) (t : ClockTally)
    (tx' : Transaction) (c' : Clock) (t' : ClockTally) : Prop
  /-- Nothing. -/
  | quiet (clock : c' = .of n held) (tally : t' = t) (timed : tx'.Timed n held)
      (holds : tx'.HoldsClock ↔ tx.HoldsClock)
  /-- It takes the clock for a serial attempt. -/
  | taken (free : held = false) (clock : c' = .of n true)
      (tally : t' = { t with begun := t.begun + 1 }) (holds : tx'.HoldsClock)
      (start : tx'.start = stamp n)
  /-- It takes and releases the clock for a writer. -/
  | published (free : held = false) (clock : c' = .of (n + 1) false)
      (tally : t' = { t with writers := t.writers + 1 }) (idle : tx'.active = false)
  /-- It releases the clock at the end of a serial attempt. -/
  | released (holds : tx.HoldsClock) (clock : c' = .of (n + 1) false)
      (tally : t' = { t with ended := t.ended + 1 }) (idle : tx'.active = false)

namespace Transaction

variable {tx tx' : Transaction} {n : Nat} {held : Bool} {s s' : Shared} {answer : TxAnswer}
  {t : ClockTally}

/-- The value that a read moves the start to is where it stands or the last publication. -/
theorem Timed.currentStart (T : tx.Timed n held) (hc : s.clock = .of n held)
    (hactive : tx.active = true) (ho : tx.role.isIrrevocable = false) {start : Timestamp}
    (h : tx.currentStart s = some (.ok start)) : ∃ k, k ≤ n ∧ start = stamp k := by
  unfold Transaction.currentStart at h
  split at h
  · obtain ⟨k, hk, hstart⟩ := T.optimistic hactive ho
    obtain rfl : tx.start = start := by simpa using h
    exact ⟨k, hk, hstart⟩
  · obtain ⟨hfree, -⟩ := validate_eq_some_ok_iff.1 h
    rw [hc, Clock.unlocked?_of] at hfree
    cases held with
    | true => cases hfree
    | false => exact ⟨n, Nat.le_refl n, (Option.some.inj hfree).symm⟩

/-- Where an optimistic attempt takes the clock, it is free and shows the last publication. -/
theorem Timed.lock (T : tx.Timed n held) (hc : s.clock = .of n held) (hn : n < clockLimit)
    (hactive : tx.active = true) (ho : tx.role.isIrrevocable = false) {now : Timestamp} {c : Clock}
    (hlock : s.clock.lock? now = some c) (hnow : now = tx.start ∨ tx.validate s = some (.ok now)) :
    held = false ∧ now = stamp n := by
  rcases hnow with rfl | hval
  · obtain ⟨k, hk, hstart⟩ := T.optimistic hactive ho
    rw [hc, hstart] at hlock
    obtain ⟨hheld, rfl, -⟩ := (Clock.lock?_of_eq_some_iff hn (Nat.lt_of_le_of_lt hk hn)).1 hlock
    exact ⟨hheld, hstart⟩
  · obtain ⟨hfree, -⟩ := validate_eq_some_ok_iff.1 hval
    rw [hc, Clock.unlocked?_of] at hfree
    cases held with
    | true => cases hfree
    | false => exact ⟨rfl, (Option.some.inj hfree).symm⟩

theorem Timed.commit (T : tx.Timed n held) (hc : s.clock = .of n held) (hn : n < clockLimit)
    (hactive : tx.active = true) {result : Except TxError CommitKind}
    (h : tx.commit s = some (result, tx', s')) :
    ClockEffect tx n held t tx' s'.clock (t.record tx .commit (.committed result)) := by
  rcases commit_cases h with ⟨hrole, rfl, rfl, rfl⟩ |
    ⟨hrole, now, locked, hlock, hnow, rfl, rfl, k, rfl⟩ | ⟨hrole, -, rfl, rfl, k, rfl⟩ |
    ⟨hrole, rfl, rfl, rfl⟩ | ⟨hrole, rfl, rfl, rfl⟩
  · refine .quiet hc rfl (timed_of_idle rfl) ?_
    exact iff_of_false (not_holdsClock_of_idle rfl) (not_holdsClock_of_role (by rw [hrole]; decide))
  · obtain ⟨hheld, rfl⟩ := T.lock hc hn hactive (by rw [hrole]; rfl) hlock hnow
    exact .published hheld (Clock.unlock_stamp locked n) rfl rfl
  · -- A commit that fails only counts its attempts.
    exact .quiet hc rfl ⟨T.serial, T.optimistic⟩ Iff.rfl
  · obtain ⟨-, hstart⟩ := T.serial ⟨hactive, hrole⟩
    refine .released ⟨hactive, hrole⟩ ?_ rfl rfl
    rw [hstart, Clock.unlock_stamp]
  · refine .quiet hc rfl (timed_of_idle rfl) ?_
    exact iff_of_false (not_holdsClock_of_idle rfl) (not_holdsClock_of_role (by rw [hrole]; decide))

/-- An attempt that ends without a commit releases the clock if it holds it. -/
theorem Timed.released (T : tx.Timed n held) (hc : s.clock = .of n held)
    (hidle : tx'.active = false) (x : TxAction) (hx : x = .rollback ∨ x = .drop) :
    ClockEffect tx n held t tx' (if tx.HoldsClock then s.clock.unlock tx.start else s.clock)
      (t.record tx x .done) := by
  have hrecord : t.record tx x .done =
      if tx.HoldsClock then { t with ended := t.ended + 1 } else t := by
    rcases hx with rfl | rfl <;> rfl
  rw [hrecord]
  split
  · next hholds =>
    refine .released hholds ?_ rfl hidle
    rw [(T.serial hholds).2, Clock.unlock_stamp]
  · next hholds =>
    exact .quiet hc rfl (timed_of_idle hidle) (iff_of_false (not_holdsClock_of_idle hidle) hholds)

/-- An action does one of four things to the clock. -/
theorem Timed.perform (T : tx.Timed n held) (hc : s.clock = .of n held) (hn : n < clockLimit)
    {x : TxAction} (allowed : x.Allowed tx) (h : tx.perform s x = some (answer, tx', s')) :
    ClockEffect tx n held t tx' s'.clock (t.record tx x answer) := by
  cases x with
  | begin =>
    cases h
    refine .quiet hc rfl ⟨fun hholds => ?_, fun _ _ => ⟨n, Nat.le_refl n, ?_⟩⟩ ?_
    · exact absurd hholds (not_holdsClock_of_role (by simp [Transaction.begin, reset]))
    · show s.clock.snapshot = stamp n
      rw [hc, Clock.snapshot_of]
    · exact iff_of_false (not_holdsClock_of_role (by simp [Transaction.begin, reset]))
        (not_holdsClock_of_idle allowed)
  | beginSerial =>
    obtain ⟨⟨tx₁, c⟩, hbegin, heq⟩ := Option.map_eq_some_iff.1 h
    obtain ⟨rfl, rfl, rfl⟩ : _ ∧ _ ∧ _ := by simpa using heq
    obtain ⟨now, hnow, rfl, rfl⟩ := beginSerial_eq_some hbegin
    rw [hc, Clock.unlocked?_of] at hnow
    cases held with
    | true => cases hnow
    | false =>
      obtain rfl : stamp n = now := by simpa using hnow
      exact .taken rfl rfl rfl ⟨rfl, rfl⟩ rfl
  | beginExclusive =>
    cases h
    refine .quiet hc rfl ⟨fun hholds => ?_, fun _ ho => by cases ho⟩ ?_
    · exact absurd hholds (not_holdsClock_of_role (by simp [Transaction.beginExclusive, reset]))
    · exact iff_of_false (not_holdsClock_of_role (by simp [Transaction.beginExclusive, reset]))
        (not_holdsClock_of_idle allowed)
  | read a mask =>
    obtain ⟨⟨result, tx₁⟩, hread, heq⟩ := Option.map_eq_some_iff.1 h
    obtain ⟨rfl, rfl, rfl⟩ : _ ∧ _ ∧ _ := by simpa using heq
    obtain ⟨bits, covered, -, hcase⟩ := read_cases hread
    rcases hcase with ⟨-, -, rfl⟩ | ⟨-, rfl, -⟩ | ⟨ho, start, hstart, -, rfl⟩ | ⟨-, e, -, -, rfl⟩
    · exact .quiet hc rfl T Iff.rfl
    · exact .quiet hc rfl T Iff.rfl
    · refine .quiet hc rfl ⟨fun hholds => ?_, fun _ _ => ?_⟩ Iff.rfl
      · rw [show tx.role = .serial from hholds.2] at ho
        cases ho
      · exact T.currentStart hc allowed ho hstart
    · exact .quiet hc rfl T Iff.rfl
  | write a v mask =>
    cases h
    have hrole : (tx.write a v mask).role = .serial ↔ tx.role = .serial := by
      rcases role_write tx a v mask with ⟨hw, hr⟩ | ⟨hw, -⟩
      · rw [hw, hr]; decide
      · rw [hw]
    have hirr : (tx.write a v mask).role.isIrrevocable = tx.role.isIrrevocable := by
      rcases role_write tx a v mask with ⟨hw, hr⟩ | ⟨hw, -⟩
      · rw [hw, hr]; rfl
      · rw [hw]
    refine .quiet hc rfl ⟨fun hholds => ?_, fun hactive ho => ?_⟩ (and_congr_right fun _ => hrole)
    · exact T.serial ⟨hholds.1, hrole.1 hholds.2⟩
    · exact T.optimistic hactive (hirr ▸ ho)
  | commit =>
    obtain ⟨⟨result, tx₁, s₁⟩, hcommit, heq⟩ := Option.map_eq_some_iff.1 h
    obtain ⟨rfl, rfl, rfl⟩ : _ ∧ _ ∧ _ := by simpa using heq
    exact T.commit hc hn allowed hcommit
  | rollback =>
    obtain ⟨rfl, rfl, rfl⟩ : _ ∧ _ ∧ _ := by simpa [Transaction.perform] using h
    rw [show ({ s with clock := (tx.rollback s.clock).2 } : Shared).clock =
      (tx.rollback s.clock).2 from rfl, rollback_clock]
    refine T.released hc ?_ .rollback (.inl rfl)
    unfold Transaction.rollback
    split
    · rfl
    · next hidle => simpa using hidle
  | drop =>
    obtain ⟨rfl, rfl, rfl⟩ : _ ∧ _ ∧ _ := by simpa [Transaction.perform] using h
    exact T.released hc rfl .drop (.inr rfl)

/-- The acts of an action are asserted when they are made. -/
theorem Timed.asserted (T : tx.Timed n held) (hc : s.clock = .of n held) (x : TxAction)
    (allowed : x.Allowed tx) :
    ClockAct.AllAsserted s.clock (tx.clockActs s x) := by
  have release : ClockAct.AllAsserted s.clock tx.releaseActs := by
    unfold releaseActs
    split
    · next hholds =>
      obtain ⟨rfl, hstart⟩ := T.serial hholds
      refine ⟨?_, trivial⟩
      show s.clock.now = tx.start + 1
      rw [hc, hstart, Clock.now_of, if_pos rfl]
    · trivial
  cases x with
  | begin => trivial
  | beginExclusive => trivial
  | read a mask => trivial
  | write a v mask => trivial
  | rollback => exact release
  | drop => exact release
  | beginSerial =>
    rw [clockActs, hc, Clock.unlocked?_of]
    cases held with
    | true => trivial
    | false => exact ⟨toNat_stamp_mod_two n, trivial⟩
  | commit =>
    unfold clockActs commitActs
    cases hrole : tx.role with
    | readOnly => trivial
    | exclusive => trivial
    | serial =>
      simpa [releaseActs, HoldsClock, hrole, show tx.active = true from allowed] using release
    | readWrite =>
      have ho : tx.role.isIrrevocable = false := by rw [hrole]; rfl
      have heven : tx.start.toNat % 2 = 0 := by
        obtain ⟨k, -, hstart⟩ := T.optimistic allowed ho
        rw [hstart, toNat_stamp_mod_two]
      -- A clock that was taken shows one more than the value at which it was taken.
      have taken {now : Timestamp} {locked : Clock} (hlock : s.clock.lock? now = some locked) :
          (ClockAct.lock now).apply s.clock = ⟨now + 1⟩ := by
        rw [ClockAct.apply, hlock, Option.getD_some]
        exact (Clock.lock?_eq_some_iff.1 hlock).2
      cases hlock : s.clock.lock? tx.start with
      | some locked =>
        refine ⟨heven, ?_, trivial⟩
        rw [taken hlock]
        rfl
      | none =>
        rcases hval : tx.validate s with _ | e | now
        · exact ⟨heven, trivial⟩
        · exact ⟨heven, trivial⟩
        · obtain ⟨hfree, -⟩ := validate_eq_some_ok_iff.1 hval
          have hretry := lock?_of_unlocked? hfree
          have hsame : (ClockAct.lock tx.start).apply s.clock = s.clock := by
            rw [ClockAct.apply, hlock, Option.getD_none]
          rw [hc, Clock.unlocked?_of] at hfree
          refine ⟨heven, ?_, ?_, trivial⟩
          · cases held with
            | true => cases hfree
            | false =>
              obtain rfl : stamp n = now := by simpa using hfree
              exact toNat_stamp_mod_two n
          · rw [hsame, taken hretry]
            rfl

/-- An attempt that is read-only or exclusive does not touch the clock. -/
theorem clockActs_eq_nil {x : TxAction} (allowed : x.Allowed tx)
    (hx : x = .begin ∨ x = .beginExclusive ∨
      tx.active = true ∧ (tx.role = .readOnly ∨ tx.role = .exclusive)) :
    tx.clockActs s x = [] := by
  rcases hx with rfl | rfl | ⟨hactive, hrole⟩
  · rfl
  · rfl
  have release : tx.releaseActs = [] := by
    refine if_neg (not_holdsClock_of_role ?_)
    rcases hrole with hrole | hrole <;> rw [hrole] <;> decide
  cases x with
  | begin => rfl
  | beginExclusive => rfl
  | beginSerial => rw [show tx.active = false from allowed] at hactive; cases hactive
  | read a mask => rfl
  | write a v mask => rfl
  | commit => rcases hrole with hrole | hrole <;> simp [clockActs, commitActs, hrole]
  | rollback => exact release
  | drop => exact release

end Transaction

/-! ## All transactions -/

namespace TxPool

variable {ι : Type} [DecidableEq ι] {s s' : TxPool ι}

/-- The clock shows the tally, and every transaction knows the clock. -/
structure Sound (s : TxPool ι) (held : Bool) : Prop where
  /-- The clock shows the number of publications. -/
  clock : s.shared.clock = .of s.tally.publications held
  /-- It is held while one more serial attempt has begun than ended. -/
  begun : s.tally.begun = s.tally.ended + held.toNat
  /-- Every transaction knows the clock. -/
  timed : ∀ i, (s.tx i).Timed s.tally.publications held
  /-- Who holds it is a transaction. -/
  holder : held = true → ∃ i, (s.tx i).HoldsClock
  /-- There is one at most. -/
  unique : ∀ i j, (s.tx i).HoldsClock → (s.tx j).HoldsClock → i = j

omit [DecidableEq ι] in
theorem sound_init (m : Memory) : (init m : TxPool ι).Sound false where
  clock := rfl
  begun := rfl
  timed _ := Transaction.timed_of_idle rfl
  holder h := by cases h
  unique i j h := absurd h (Transaction.not_holdsClock_of_idle rfl)

namespace Sound

variable {held : Bool}

omit [DecidableEq ι] in
theorem publications_lt (S : s.Sound held) (few : s.tally.acquisitions < clockLimit) :
    s.tally.publications + held.toNat < clockLimit := by
  have := S.begun
  unfold ClockTally.acquisitions at few
  unfold ClockTally.publications
  omega

omit [DecidableEq ι] in
/-- While one transaction can release the clock no other holds it. -/
theorem others_not_holding (S : s.Sound held) {i : ι} (h : held = false ∨ (s.tx i).HoldsClock)
    (j : ι) (hj : j ≠ i) : ¬ (s.tx j).HoldsClock := by
  intro hholds
  rcases h with rfl | hi
  · cases ((S.timed j).serial hholds).1
  · exact hj (S.unique j i hholds hi)

/-- After a change of one transaction every transaction knows the clock, if the others still do. -/
theorem update (S : s.Sound held) {i : ι} {tx : Transaction} {shared : Shared} {tally : ClockTally}
    {held' : Bool} (clock : shared.clock = .of tally.publications held')
    (begun : tally.begun = tally.ended + held'.toNat) (timed : tx.Timed tally.publications held')
    (others : ∀ j, j ≠ i → (s.tx j).Timed tally.publications held')
    (holder : held' = true → tx.HoldsClock ∨ ∃ j, j ≠ i ∧ (s.tx j).HoldsClock)
    (alone : tx.HoldsClock → ∀ j, j ≠ i → ¬ (s.tx j).HoldsClock) :
    (⟨shared, Function.update s.tx i tx, tally⟩ : TxPool ι).Sound held' where
  clock := clock
  begun := begun
  timed j := by
    by_cases hj : j = i
    · subst hj
      simpa using timed
    · simpa only [Function.update_of_ne hj] using others j hj
  holder hheld := by
    rcases holder hheld with hholds | ⟨j, hj, hholds⟩
    · exact ⟨i, by simpa using hholds⟩
    · exact ⟨j, by simpa only [Function.update_of_ne hj] using hholds⟩
  unique j l := by
    by_cases hj : j = i <;> by_cases hl : l = i
    · subst hj hl
      exact fun _ _ => rfl
    · subst hj
      simp only [Function.update_self, Function.update_of_ne hl]
      exact fun h h' => absurd h' (alone h l hl)
    · subst hl
      simp only [Function.update_self, Function.update_of_ne hj]
      exact fun h h' => absurd h (alone h' j hj)
    · simpa only [Function.update_of_ne hj, Function.update_of_ne hl] using S.unique j l

/-- After an action of one transaction every transaction knows the clock again, and the clock has
not gone back. -/
theorem effect (S : s.Sound held) {i : ι} {tx : Transaction} {shared : Shared} {tally : ClockTally}
    (E : ClockEffect (s.tx i) s.tally.publications held s.tally tx shared.clock tally) :
    ∃ held', (⟨shared, Function.update s.tx i tx, tally⟩ : TxPool ι).Sound held' ∧
      (s.tally.publications < tally.publications ∧ held' = false ∨
        s.tally.publications = tally.publications ∧ (held = true → held' = true)) := by
  -- When one more value is published, only optimistic attempts are still under way.
  have published (h : held = false ∨ (s.tx i).HoldsClock) (j : ι) (hj : j ≠ i) :
      (s.tx j).Timed (s.tally.publications + 1) false := by
    refine ⟨fun hholds => absurd hholds (S.others_not_holding h j hj), fun hactive ho => ?_⟩
    obtain ⟨k, hk, hstart⟩ := (S.timed j).optimistic hactive ho
    exact ⟨k, Nat.le_succ_of_le hk, hstart⟩
  cases E with
  | quiet clock tally timed holds =>
    subst tally
    refine ⟨held, S.update clock S.begun timed (fun j _ => S.timed j) (fun hheld => ?_) ?_,
      Or.inr ⟨rfl, id⟩⟩
    · obtain ⟨j, hj⟩ := S.holder hheld
      by_cases hji : j = i
      · subst hji
        exact Or.inl (holds.2 hj)
      · exact Or.inr ⟨j, hji, hj⟩
    · exact fun hholds => S.others_not_holding (Or.inr (holds.1 hholds))
  | taken free clock tally holds start =>
    subst free tally
    have others := S.others_not_holding (i := i) (Or.inl rfl)
    refine ⟨true, S.update clock ?_ ⟨fun _ => ⟨rfl, start⟩, fun _ ho => ?_⟩ (fun j hj => ?_)
      (fun _ => Or.inl holds) fun _ => others, Or.inr ⟨rfl, fun _ => rfl⟩⟩
    · simpa using S.begun
    · rw [holds.2] at ho
      cases ho
    · exact ⟨fun hholds => absurd hholds (others j hj), (S.timed j).optimistic⟩
  | published free clock tally idle =>
    subst free tally
    have hcount : ({ s.tally with writers := s.tally.writers + 1 } : ClockTally).publications =
        s.tally.publications + 1 := Nat.succ_add _ _
    refine ⟨false, S.update ?_ S.begun (Transaction.timed_of_idle idle) (fun j hj => ?_)
      (fun h => by cases h) fun hholds => absurd hholds (Transaction.not_holdsClock_of_idle idle),
      Or.inl ⟨?_, rfl⟩⟩
    · rw [hcount, clock]
    · rw [hcount]
      exact published (Or.inl rfl) j hj
    · rw [hcount]
      exact Nat.lt_succ_self _
  | released holds clock tally idle =>
    subst tally
    obtain ⟨rfl, -⟩ := (S.timed i).serial holds
    have hcount : ({ s.tally with ended := s.tally.ended + 1 } : ClockTally).publications =
        s.tally.publications + 1 := rfl
    refine ⟨false, S.update clock ?_ (Transaction.timed_of_idle idle) (fun j hj => ?_)
      (fun h => by cases h) fun hholds => absurd hholds (Transaction.not_holdsClock_of_idle idle),
      Or.inl ⟨?_, rfl⟩⟩
    · simpa using S.begun
    · exact published (Or.inr holds) j hj
    · rw [hcount]
      exact Nat.lt_succ_self _

/-- Every step keeps every transaction knowing the clock, and the clock does not go back. -/
theorem step (S : s.Sound held) (few : s.tally.acquisitions < clockLimit) (hstep : Step s s') :
    ∃ held', s'.Sound held' ∧
      (s.tally.publications < s'.tally.publications ∧ held' = false ∨
        s.tally.publications = s'.tally.publications ∧ (held = true → held' = true)) := by
  obtain ⟨i, x, hact⟩ := hstep
  unfold act at hact
  split at hact
  · next allowed =>
    obtain ⟨⟨answer, tx, shared⟩, hperform, rfl⟩ := Option.map_eq_some_iff.1 hact
    have hn : s.tally.publications < clockLimit :=
      Nat.lt_of_le_of_lt (Nat.le_add_right _ _) (S.publications_lt few)
    exact S.effect ((S.timed i).perform S.clock hn allowed hperform)
  · cases hact

end Sound

theorem acquisitions_le_of_step (hstep : Step s s') :
    s.tally.acquisitions ≤ s'.tally.acquisitions := by
  obtain ⟨i, x, hact⟩ := hstep
  unfold act at hact
  split at hact
  · obtain ⟨⟨answer, tx, shared⟩, -, rfl⟩ := Option.map_eq_some_iff.1 hact
    exact ClockTally.acquisitions_le_record ..
  · cases hact

/-- In every state that is reached before the clock is full every transaction knows the clock. -/
theorem sound_of_reachable {m : Memory} (h : Reachable m s)
    (few : s.tally.acquisitions < clockLimit) : ∃ held, s.Sound held := by
  induction h with
  | refl => exact ⟨false, sound_init m⟩
  | tail _ hstep ih =>
    have few' := Nat.lt_of_le_of_lt (acquisitions_le_of_step hstep) few
    obtain ⟨held, S⟩ := ih few'
    obtain ⟨held', S', -⟩ := S.step few' hstep
    exact ⟨held', S'⟩

namespace Sound

variable {held : Bool}

omit [DecidableEq ι] in
theorem toNat_now (S : s.Sound held) (few : s.tally.acquisitions < clockLimit) :
    s.shared.clock.now.toNat = 2 * s.tally.publications + held.toNat := by
  have hn : s.tally.publications < clockLimit :=
    Nat.lt_of_le_of_lt (Nat.le_add_right _ _) (S.publications_lt few)
  rw [S.clock, Clock.now_of]
  cases held with
  | false => rw [if_neg Bool.false_ne_true, toNat_stamp hn]; rfl
  | true => rw [if_pos rfl, toNat_stamp_add_one, toNat_stamp hn]; rfl

end Sound

/-- In every reachable state the clock shows twice the number of publications, and one more while a
serial attempt is under way. -/
theorem clockInvariant_of_reachable {m : Memory} (h : Reachable m s)
    (few : s.tally.acquisitions < clockLimit) : s.ClockInvariant := by
  obtain ⟨held, S⟩ := sound_of_reachable h few
  have now := S.toNat_now few
  have hn : s.tally.publications < clockLimit :=
    Nat.lt_of_le_of_lt (Nat.le_add_right _ _) (S.publications_lt few)
  refine {
    free := fun hfree => ?_
    held := fun i hholds => ?_
    unique := S.unique
    start := fun i hactive ho => ?_
    forward := fun s' hstep few' => ?_
    asserted := fun i x allowed => (S.timed i).asserted S.clock x allowed
    accounted := fun i x answer tx shared hperform => Transaction.perform_clockActs hperform
    apart := fun i x answer tx shared hperform allowed hx => ?_ }
  · cases held with
    | false => exact now
    | true =>
      obtain ⟨i, hholds⟩ := S.holder rfl
      exact absurd hholds (hfree i)
  · rw [now, ((S.timed i).serial hholds).1]
    rfl
  · obtain ⟨k, hk, hstart⟩ := (S.timed i).optimistic hactive ho
    rw [UInt64.le_iff_toNat_le, now, hstart, toNat_stamp (Nat.lt_of_le_of_lt hk hn)]
    omega
  · obtain ⟨held', S', hforward⟩ := S.step few hstep
    rw [UInt64.le_iff_toNat_le, now, S'.toNat_now few']
    have := held.toNat_le
    rcases hforward with ⟨hlt, -⟩ | ⟨heq, hkept⟩
    · omega
    · cases held with
      | false => simp only [Bool.toNat_false]; omega
      | true => rw [hkept rfl]; omega
  · have hacts := Transaction.clockActs_eq_nil (s := s.shared) allowed hx
    obtain ⟨hclock, hattempts⟩ := Transaction.perform_clockActs hperform
    rw [hacts] at hclock hattempts
    refine ⟨hclock, fun hdrop => ?_⟩
    rw [hattempts hdrop]
    simp

theorem reachable_of_run {m : Memory} {actions : List (ι × TxAction)} (h : Reachable m s)
    (hrun : s.run actions = some s') : Reachable m s' := by
  refine h.trans (reflTransGen_of_run (fun _ => rfl) (fun s a actions s' h => ?_) hrun)
  obtain ⟨s₁, hact, hrest⟩ := Option.bind_eq_some_iff.1 h
  exact ⟨s₁, ⟨a.1, a.2, hact⟩, hrest⟩

/-- A writer whose first attempt to take the clock fails, serial attempts that commit and that are
rolled back, and an exclusive attempt beside one of them. -/
theorem clockInvariant_of_mixed_roles :
    ∃ s : TxPool Bool, (init .zero).run [(false, .begin), (false, .read 0 fullMask),
        (true, .beginSerial), (true, .write 8 7 fullMask), (true, .commit),
        (false, .write 0 1 fullMask), (false, .commit), (true, .beginSerial),
        (false, .beginExclusive), (false, .write 8 9 fullMask), (false, .commit), (true, .rollback),
        (true, .begin), (false, .beginSerial)] = some s ∧
      Reachable .zero s ∧ s.tally = ⟨1, 3, 2⟩ ∧ s.shared.clock.now = 7 ∧
      (s.tx false).lockAttempts = 3 ∧ s.ClockInvariant := by
  have facts : ((init .zero : TxPool Bool).run [(false, .begin), (false, .read 0 fullMask),
      (true, .beginSerial), (true, .write 8 7 fullMask), (true, .commit),
      (false, .write 0 1 fullMask), (false, .commit), (true, .beginSerial),
      (false, .beginExclusive), (false, .write 8 9 fullMask), (false, .commit), (true, .rollback),
      (true, .begin), (false, .beginSerial)]).map
        (fun s => (s.tally, s.shared.clock.now, (s.tx false).lockAttempts)) =
      some (⟨1, 3, 2⟩, 7, 3) := by
    decide +kernel
  obtain ⟨s, hrun, hs⟩ := Option.map_eq_some_iff.1 facts
  obtain ⟨htally, hs⟩ := Prod.mk.inj hs
  obtain ⟨hclock, hattempts⟩ := Prod.mk.inj hs
  have hreach : Reachable .zero s := reachable_of_run .refl hrun
  refine ⟨s, hrun, hreach, htally, hclock, hattempts, clockInvariant_of_reachable hreach ?_⟩
  rw [htally]
  decide

end TxPool

end HybridTM

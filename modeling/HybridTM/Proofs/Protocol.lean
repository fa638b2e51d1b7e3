import HybridTM.Proofs.ModeWord
import Mathlib.Algebra.Order.BigOperators.Group.Finset
import Mathlib.Algebra.BigOperators.Ring.Finset
import Mathlib.Data.Fintype.Basic

/-!
# The mode protocol

Each worker has a stake in the mode word: it is registered, runs an epoch, has joined one, holds
the global lock, or has none. The word is balanced when its counts are the numbers of stakes and its
mode is the one that the stakes call for (`Balanced`).

An errand turns one stake into another. Whichever worker carries it out, and however many others
there are, it keeps the word balanced (`Balanced.change`). On a balanced word a worker that has
something to give back can always do so (`Balanced.leave`, `Balanced.endEpoch`, `Balanced.unlock`).
-/

set_option autoImplicit false

namespace HybridTM

/-- What a worker has a part of. -/
inductive Stake where
  /-- Nothing. -/
  | none
  /-- It is registered for an epoch of its own. -/
  | registered
  /-- It runs an epoch of its own. -/
  | epoch
  /-- It joined an epoch. -/
  | joined
  /-- It holds the global lock. -/
  | lock
  deriving DecidableEq, Repr

namespace Stake

/-- Whether the worker counts as deferred. -/
def isDeferred : Stake → Bool
  | .registered | .epoch => true
  | _ => false

/-- Whether the worker counts as undeferred. -/
def isJoined : Stake → Bool
  | .joined => true
  | _ => false

/-- Whether the worker holds the global lock. -/
def isLock : Stake → Bool
  | .lock => true
  | _ => false

end Stake

namespace Errand

/-- The stake of a worker before the word is swapped for an errand. -/
def before : Errand → Stake
  | .register _ | .join _ | .lock _ => .none
  | .flip _ => .registered
  | .leave _ => .joined
  | .endEpoch _ => .epoch
  | .unlock _ => .lock

/-- The stake of a worker after the word was swapped for an errand. -/
def after : Errand → Stake
  | .register _ => .registered
  | .flip _ => .epoch
  | .join _ => .joined
  | .lock _ => .lock
  | .leave _ | .endEpoch _ | .unlock _ => .none

end Errand

/-! ## Counting -/

section

variable {ι : Type} [Fintype ι]

/-- The number of workers whose stake is of a kind. -/
def numberOf (kind : Stake → Bool) (stake : ι → Stake) : Nat :=
  (Finset.univ.filter fun i => kind (stake i) = true).card

variable {kind : Stake → Bool} {stake : ι → Stake}

theorem numberOf_eq_sum : numberOf kind stake = ∑ i, (kind (stake i)).toNat := by
  rw [numberOf, Finset.card_filter]
  apply Finset.sum_congr rfl
  intro i _
  cases kind (stake i) <;> rfl

/-- A number is positive when there is someone to count. -/
theorem numberOf_pos_iff : 0 < numberOf kind stake ↔ ∃ i, kind (stake i) = true := by
  rw [numberOf, Finset.card_pos]
  simp [Finset.Nonempty]

/-- What one worker has beside the others. -/
theorem numberOf_eq_add [DecidableEq ι] (i : ι) :
    numberOf kind stake =
      (kind (stake i)).toNat + ∑ j ∈ Finset.univ.erase i, (kind (stake j)).toNat := by
  rw [numberOf_eq_sum]
  exact (Finset.add_sum_erase _ _ (Finset.mem_univ i)).symm

/-- A new stake takes the place of the old one. -/
theorem numberOf_update [DecidableEq ι] (kind : Stake → Bool) (stake : ι → Stake) (i : ι)
    (a : Stake) :
    numberOf kind (Function.update stake i a) + (kind (stake i)).toNat =
      numberOf kind stake + (kind a).toNat := by
  have others : ∑ j ∈ Finset.univ.erase i, (kind (Function.update stake i a j)).toNat =
      ∑ j ∈ Finset.univ.erase i, (kind (stake j)).toNat := by
    apply Finset.sum_congr rfl
    intro j hj
    rw [Function.update_of_ne (Finset.ne_of_mem_erase hj)]
  rw [numberOf_eq_add i, numberOf_eq_add i, others, Function.update_self]
  omega

/-- Two workers count twice. -/
theorem eq_of_numberOf_le_one [DecidableEq ι] (h : numberOf kind stake ≤ 1) {i j : ι}
    (hi : kind (stake i) = true) (hj : kind (stake j) = true) : i = j := by
  by_contra hne
  have hmem : j ∈ Finset.univ.erase i := Finset.mem_erase.2 ⟨Ne.symm hne, Finset.mem_univ j⟩
  have hpos : 0 < ∑ j ∈ Finset.univ.erase i, (kind (stake j)).toNat :=
    Finset.sum_pos' (fun _ _ => Nat.zero_le _) ⟨j, hmem, by rw [hj]; exact Nat.one_pos⟩
  rw [numberOf_eq_add i, hi, Bool.toNat_true] at h
  omega

end

/-! ## Balance -/

/-- The contents of the mode word are what the stakes of the workers call for. -/
structure Balanced {ι : Type} [Fintype ι] (s : ModeSnapshot) (stake : ι → Stake) : Prop where
  /-- The counts fit in their fields. -/
  inRange : s.InRange
  /-- The threads with epochs of their own are counted. -/
  deferred : s.deferred = numberOf Stake.isDeferred stake
  /-- The transactions that joined are counted. -/
  undeferred : s.undeferred = numberOf Stake.isJoined stake
  /-- At most one worker holds the global lock. -/
  lock_le_one : numberOf Stake.isLock stake ≤ 1
  /-- The mode says whether one does. -/
  glock : s.mode = .glock ↔ numberOf Stake.isLock stake = 1
  /-- Then nobody else has a part of anything. -/
  alone : s.mode = .glock → s.deferred = 0 ∧ s.undeferred = 0
  /-- In hardware mode nobody joined an epoch. -/
  hardware : s.mode = .hw → s.undeferred = 0
  /-- In software mode somebody is there. -/
  software : s.mode = .sw → s.deferred ≠ 0 ∨ s.undeferred ≠ 0
  /-- An epoch runs in software mode only. -/
  epoch : ∀ i, stake i = .epoch → s.mode = .sw

namespace Balanced

variable {ι : Type} [Fintype ι] {s s' : ModeSnapshot} {stake : ι → Stake} {i : ι}

/-- Before any worker has a stake. -/
theorem initial (h : ∀ i, stake i = .none) : Balanced .initial stake := by
  have none (kind : Stake → Bool) (hkind : kind .none = false) : numberOf kind stake = 0 := by
    rw [numberOf]
    simp [h, hkind]
  exact {
    inRange := ModeSnapshot.inRange_initial
    deferred := (none _ rfl).symm
    undeferred := (none _ rfl).symm
    lock_le_one := by rw [none _ rfl]; exact Nat.zero_le 1
    glock := by rw [none _ rfl]; decide
    alone := fun hm => by cases hm
    hardware := fun _ => rfl
    software := fun hm => by cases hm
    epoch := fun i hi => by rw [h i] at hi; cases hi }

/-! ### What a stake says about the word -/

theorem deferred_ne_zero (B : Balanced s stake) (hi : (stake i).isDeferred = true) :
    s.deferred ≠ 0 := by
  rw [B.deferred]
  exact Nat.ne_of_gt (numberOf_pos_iff.2 ⟨i, hi⟩)

theorem undeferred_ne_zero (B : Balanced s stake) (hi : stake i = .joined) :
    s.undeferred ≠ 0 := by
  rw [B.undeferred]
  exact Nat.ne_of_gt (numberOf_pos_iff.2 ⟨i, by rw [hi]; rfl⟩)

/-- A worker that holds the global lock has locked the word. -/
theorem eq_locked (B : Balanced s stake) (hi : stake i = .lock) : s = .locked := by
  have hpos : 0 < numberOf Stake.isLock stake := numberOf_pos_iff.2 ⟨i, by rw [hi]; rfl⟩
  have hle := B.lock_le_one
  have hmode : s.mode = .glock := B.glock.2 (by omega)
  obtain ⟨hd, hu⟩ := B.alone hmode
  calc s = ⟨s.mode, s.deferred, s.undeferred⟩ := rfl
    _ = .locked := by rw [hmode, hd, hu]; rfl

/-- No two workers hold it. -/
theorem lock_unique [DecidableEq ι] (B : Balanced s stake) {j : ι} (hi : stake i = .lock)
    (hj : stake j = .lock) : i = j :=
  eq_of_numberOf_le_one B.lock_le_one (by rw [hi]; rfl) (by rw [hj]; rfl)

/-- A worker that joined an epoch finds software mode. -/
theorem mode_of_joined (B : Balanced s stake) (hi : stake i = .joined) : s.mode = .sw := by
  have hu := B.undeferred_ne_zero hi
  cases hmode : s.mode with
  | hw => exact absurd (B.hardware hmode) hu
  | sw => rfl
  | glock => exact absurd (B.alone hmode).2 hu

/-- A worker registered for an epoch keeps the global lock away. -/
theorem mode_ne_glock (B : Balanced s stake) (hi : (stake i).isDeferred = true) :
    s.mode ≠ .glock := fun hmode => B.deferred_ne_zero hi (B.alone hmode).1

/-- When the lock is held, whoever has a stake is its holder. -/
theorem stake_of_glock (B : Balanced s stake) (hmode : s.mode = .glock) (i : ι) :
    stake i = .none ∨ stake i = .lock := by
  cases hi : stake i with
  | none => exact Or.inl rfl
  | registered => exact absurd hmode (B.mode_ne_glock (by rw [hi]; rfl))
  | epoch => exact absurd hmode (B.mode_ne_glock (by rw [hi]; rfl))
  | joined => exact absurd (B.alone hmode).2 (B.undeferred_ne_zero hi)
  | lock => exact Or.inr rfl

/-- In hardware mode nobody has more than a registration. -/
theorem stake_of_hw (B : Balanced s stake) (hmode : s.mode = .hw) (i : ι) :
    stake i = .none ∨ stake i = .registered := by
  cases hi : stake i with
  | none => exact Or.inl rfl
  | registered => exact Or.inr rfl
  | epoch => rw [B.epoch i hi] at hmode; cases hmode
  | joined => rw [B.mode_of_joined hi] at hmode; cases hmode
  | lock => rw [B.eq_locked hi] at hmode; cases hmode

/-! ### What can be given back -/

theorem leave (B : Balanced s stake) (hi : stake i = .joined) (ending : Ending) :
    ∃ s', (Errand.leave ending).change? s = some s' :=
  ⟨_, ModeSnapshot.leaveUndeferred?_eq_some_iff.2 ⟨B.undeferred_ne_zero hi, rfl⟩⟩

theorem endEpoch (B : Balanced s stake) (hi : stake i = .epoch) (ending : Ending) :
    ∃ s', (Errand.endEpoch ending).change? s = some s' :=
  ⟨_, ModeSnapshot.leaveDeferred?_eq_some_iff.2 ⟨B.deferred_ne_zero (by rw [hi]; rfl), rfl⟩⟩

theorem unlock (B : Balanced s stake) (hi : stake i = .lock) (ending : Ending) :
    (Errand.unlock ending).change? s = some .initial := by
  rw [Errand.unlock_change?_eq_some_iff]
  exact ⟨B.eq_locked hi, rfl⟩

/-! ### Errands -/

/-- Where nobody holds the lock, a word in software mode whose counts are right is balanced once it
is drained. -/
theorem drain (inRange : s.InRange) (hmode : s.mode = .sw)
    (deferred : s.deferred = numberOf Stake.isDeferred stake)
    (undeferred : s.undeferred = numberOf Stake.isJoined stake)
    (hlock : numberOf Stake.isLock stake = 0) : Balanced s.drain stake := by
  have glock : (m : Mode) → m ≠ .glock → (m = .glock ↔ numberOf Stake.isLock stake = 1) := by
    intro m hm
    rw [hlock]
    exact ⟨fun h => absurd h hm, fun h => absurd h Nat.zero_ne_one⟩
  rcases s.drain_cases with ⟨hdrain, hd, hu⟩ | ⟨hdrain, hne⟩
  · rw [hdrain]
    refine ⟨ModeSnapshot.inRange_initial, ?_, ?_, ?_, glock _ (by decide), nofun,
      fun _ => rfl, nofun, ?_⟩
    · rw [← deferred, hd]
    · rw [← undeferred, hu]
    · rw [hlock]; exact Nat.zero_le 1
    · intro i hi
      have hpos : 0 < numberOf Stake.isDeferred stake := numberOf_pos_iff.2 ⟨i, by rw [hi]; rfl⟩
      omega
  · rw [hdrain]
    refine ⟨inRange, deferred, undeferred, ?_, glock _ (by rw [hmode]; decide), ?_, ?_,
      fun _ => hne, fun _ _ => hmode⟩
    · rw [hlock]; exact Nat.zero_le 1
    · exact fun hg => by rw [hmode] at hg; cases hg
    · exact fun hh => by rw [hmode] at hh; cases hh

/-- Nobody holds the lock in another mode. -/
theorem no_lock (B : Balanced s stake) (hmode : s.mode ≠ .glock) :
    numberOf Stake.isLock stake = 0 := by
  have hle := B.lock_le_one
  have hne : numberOf Stake.isLock stake ≠ 1 := fun h => hmode (B.glock.2 h)
  omega

/-- An errand of one worker keeps the word balanced. -/
theorem change [DecidableEq ι] (B : Balanced s stake) {errand : Errand}
    (hi : stake i = errand.before) (h : errand.change? s = some s') :
    Balanced s' (Function.update stake i errand.after) := by
  have inRange := Errand.inRange B.inRange h
  have hd := numberOf_update Stake.isDeferred stake i errand.after
  have hu := numberOf_update Stake.isJoined stake i errand.after
  have hl := numberOf_update Stake.isLock stake i errand.after
  rw [hi] at hd hu hl
  have hdeferred := B.deferred
  have hundeferred := B.undeferred
  have hlock := B.lock_le_one
  -- Only the errand itself can begin an epoch; the others' epochs were there before.
  have epochs : ∀ j, Function.update stake i errand.after j = .epoch →
      errand.after = .epoch ∨ j ≠ i ∧ stake j = .epoch := by
    intro j hj
    by_cases hji : j = i
    · subst hji
      rw [Function.update_self] at hj
      exact Or.inl hj
    · rw [Function.update_of_ne hji] at hj
      exact Or.inr ⟨hji, hj⟩
  cases errand with
  | register failures =>
    -- One more is counted and the mode stays.
    obtain ⟨hmode, -, rfl⟩ := ModeSnapshot.enterDeferred?_eq_some_iff.1 h
    simp only [Errand.before, Errand.after, Stake.isDeferred, Stake.isJoined, Stake.isLock,
      Bool.toNat_false, Bool.toNat_true, Nat.add_zero] at hd hu hl epochs ⊢
    refine ⟨inRange, ?_, ?_, ?_, ?_, ?_, B.hardware, ?_, ?_⟩
    · rw [hd, ← hdeferred]
    · rw [hu, ← hundeferred]
    · rw [hl]; exact hlock
    · rw [hl]; exact B.glock
    · exact fun hg => absurd hg hmode
    · exact fun _ => Or.inl (Nat.succ_ne_zero _)
    · rintro j hj
      rcases epochs j hj with hj | ⟨-, hj⟩
      · cases hj
      · exact B.epoch j hj
  | flip failures =>
    -- The mode changes; the worker is counted already.
    obtain ⟨hmode, hne, rfl⟩ := ModeSnapshot.flipToSoftware?_eq_some_iff.1 h
    have hnolock : ¬ numberOf Stake.isLock stake = 1 := fun hone => by
      rw [B.glock.2 hone] at hmode; cases hmode
    simp only [Errand.before, Errand.after, Stake.isDeferred, Stake.isJoined, Stake.isLock,
      Bool.toNat_false, Bool.toNat_true, Nat.add_zero] at hd hu hl ⊢
    refine ⟨inRange, ?_, ?_, ?_, ?_, ?_, ?_, ?_, ?_⟩
    · rw [← Nat.add_right_cancel hd.symm, ← hdeferred]
    · rw [hu, ← hundeferred]
    · rw [hl]; exact hlock
    · rw [hl]; simp [hnolock]
    · exact fun hg => by cases hg
    · exact fun hh => by cases hh
    · exact fun _ => Or.inl hne
    · exact fun _ _ => rfl
  | join failures =>
    -- One more joins in software mode.
    obtain ⟨hmode, hne, -, rfl⟩ := ModeSnapshot.enterUndeferred?_eq_some_iff.1 h
    simp only [Errand.before, Errand.after, Stake.isDeferred, Stake.isJoined, Stake.isLock,
      Bool.toNat_false, Bool.toNat_true, Nat.add_zero] at hd hu hl ⊢
    refine ⟨inRange, ?_, ?_, ?_, ?_, ?_, ?_, ?_, fun _ _ => hmode⟩
    · rw [hd, ← hdeferred]
    · rw [hu, ← hundeferred]
    · rw [hl]; exact hlock
    · rw [hl]; exact B.glock
    · exact fun hg => by rw [hmode] at hg; cases hg
    · exact fun hh => by rw [hmode] at hh; cases hh
    · exact fun _ => Or.inl hne
  | lock failures =>
    -- The word is the initial one, so nobody is counted and nobody holds the lock.
    obtain ⟨rfl, rfl⟩ := ModeSnapshot.acquireLock?_eq_some_iff.1 h
    have hnolock : ¬ numberOf Stake.isLock stake = 1 := fun hone => by
      have := B.glock.2 hone; cases this
    simp only [Errand.before, Errand.after, Stake.isDeferred, Stake.isJoined, Stake.isLock,
      Bool.toNat_false, Bool.toNat_true, Nat.add_zero] at hd hu hl epochs ⊢
    refine ⟨inRange, ?_, ?_, by omega, ?_, fun _ => ⟨rfl, rfl⟩, ?_, ?_, ?_⟩
    · rw [hd, ← hdeferred]; rfl
    · rw [hu, ← hundeferred]; rfl
    · exact ⟨fun _ => by omega, fun _ => rfl⟩
    · exact fun _ => rfl
    · exact fun hs => by cases hs
    · intro j hj
      rcases epochs j hj with hj | ⟨-, hj⟩
      · cases hj
      · have := B.epoch j hj; cases this
  | leave ending =>
    -- The last to go takes the mode back to hardware.
    obtain ⟨hne, rfl⟩ := ModeSnapshot.leaveUndeferred?_eq_some_iff.1 h
    have hmode := B.mode_of_joined hi
    have hnolock := B.no_lock (by rw [hmode]; decide)
    simp only [Errand.before, Errand.after, Stake.isDeferred, Stake.isJoined, Stake.isLock,
      Bool.toNat_false, Bool.toNat_true, Nat.add_zero] at hd hu hl ⊢
    refine drain ⟨B.inRange.deferred, ?_⟩ hmode ?_ ?_ ?_
    · exact Nat.lt_of_le_of_lt (Nat.sub_le _ _) B.inRange.undeferred
    · rw [hd, ← hdeferred]
    · rw [hundeferred, ← hu, Nat.add_sub_cancel]
    · rw [hl, hnolock]
  | endEpoch ending =>
    -- So it does when the last one ended an epoch of its own.
    obtain ⟨hne, rfl⟩ := ModeSnapshot.leaveDeferred?_eq_some_iff.1 h
    have hmode := B.epoch i hi
    have hnolock := B.no_lock (by rw [hmode]; decide)
    simp only [Errand.before, Errand.after, Stake.isDeferred, Stake.isJoined, Stake.isLock,
      Bool.toNat_false, Bool.toNat_true, Nat.add_zero] at hd hu hl ⊢
    refine drain ⟨?_, B.inRange.undeferred⟩ hmode ?_ ?_ ?_
    · exact Nat.lt_of_le_of_lt (Nat.sub_le _ _) B.inRange.deferred
    · rw [hdeferred, ← hd, Nat.add_sub_cancel]
    · rw [hu, ← hundeferred]
    · rw [hl, hnolock]
  | unlock ending =>
    -- The only holder gives the lock back.
    obtain ⟨rfl, rfl⟩ := Errand.unlock_change?_eq_some_iff.1 h
    have hone : numberOf Stake.isLock stake = 1 := B.glock.1 rfl
    simp only [Errand.before, Errand.after, Stake.isDeferred, Stake.isJoined, Stake.isLock,
      Bool.toNat_false, Bool.toNat_true, Nat.add_zero] at hd hu hl epochs ⊢
    refine ⟨inRange, ?_, ?_, by omega, ?_, nofun, fun _ => rfl, nofun, ?_⟩
    · rw [hd, ← hdeferred]; rfl
    · rw [hu, ← hundeferred]; rfl
    · exact ⟨nofun, fun _ => by omega⟩
    · intro j hj
      rcases epochs j hj with hj | ⟨-, hj⟩
      · cases hj
      · have := B.epoch j hj; cases this

/-- A registered worker is refused the turn to software only because others made it already. -/
theorem mode_of_refused_flip (B : Balanced s stake) (hi : stake i = .registered)
    (h : s.flipToSoftware? = Option.none) : s.mode = .sw := by
  have hdeferred := B.deferred_ne_zero (i := i) (by rw [hi]; rfl)
  have hglock := B.mode_ne_glock (i := i) (by rw [hi]; rfl)
  cases hmode : s.mode with
  | hw => rw [ModeSnapshot.flipToSoftware?_eq_some_iff.2 ⟨hmode, hdeferred, rfl⟩] at h; cases h
  | sw => rfl
  | glock => exact absurd hmode hglock

/-- Then its epoch begins all the same. -/
theorem refused_flip [DecidableEq ι] (B : Balanced s stake) (hi : stake i = .registered)
    (h : s.flipToSoftware? = Option.none) : Balanced s (Function.update stake i .epoch) := by
  have hmode := B.mode_of_refused_flip hi h
  have hd := numberOf_update Stake.isDeferred stake i .epoch
  have hu := numberOf_update Stake.isJoined stake i .epoch
  have hl := numberOf_update Stake.isLock stake i .epoch
  rw [hi] at hd hu hl
  simp only [Stake.isDeferred, Stake.isJoined, Stake.isLock, Bool.toNat_false, Bool.toNat_true,
    Nat.add_zero, Nat.add_right_cancel_iff] at hd hu hl
  refine ⟨B.inRange, ?_, ?_, ?_, ?_, B.alone, B.hardware, B.software, fun _ _ => hmode⟩
  · rw [hd]; exact B.deferred
  · rw [hu]; exact B.undeferred
  · rw [hl]; exact B.lock_le_one
  · rw [hl]; exact B.glock

/-- No errand that gives something back, or turns the runtime to software, can fail in any other
way. -/
theorem refused [DecidableEq ι] (B : Balanced s stake) {errand : Errand}
    (hi : stake i = errand.before) (hsome : errand.before ≠ .none)
    (h : errand.change? s = Option.none) :
    Balanced s (Function.update stake i errand.after) := by
  cases errand with
  | register failures => exact absurd rfl hsome
  | join failures => exact absurd rfl hsome
  | lock failures => exact absurd rfl hsome
  | flip failures => exact B.refused_flip hi h
  | leave ending =>
    obtain ⟨next, hnext⟩ := B.leave hi ending
    rw [h] at hnext
    cases hnext
  | endEpoch ending =>
    obtain ⟨next, hnext⟩ := B.endEpoch hi ending
    rw [h] at hnext
    cases hnext
  | unlock ending =>
    have hnext := B.unlock hi ending
    rw [h] at hnext
    cases hnext

end Balanced

end HybridTM

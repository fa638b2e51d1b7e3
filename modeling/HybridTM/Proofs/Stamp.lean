import HybridTM.Clock

/-!
# Clock values as publication counts

After `n` publications the clock shows `stamp n`, or the next value while a committer holds it.
As long as the count fits on the clock, different counts have different stamps, and each operation
on the clock is an operation on the count and on the holding.
-/

set_option autoImplicit false

namespace HybridTM

/-- The clock value of the state after `n` publications. -/
def stamp (n : Nat) : Timestamp := .ofNat (2 * n)

/-- The number of publications that the clock has no room for. -/
def clockLimit : Nat := 0x8000000000000000

/-- The clock after `n` publications, held by a committer or free. -/
def Clock.of (n : Nat) (held : Bool) : Clock := ⟨if held then stamp n + 1 else stamp n⟩

theorem toNat_stamp {n : Nat} (h : n < clockLimit) : (stamp n).toNat = 2 * n := by
  unfold clockLimit at h
  rw [stamp, UInt64.toNat_ofNat']
  omega

theorem stamp_succ (n : Nat) : stamp n + 2 = stamp (n + 1) := by
  apply UInt64.toNat_inj.1
  simp only [stamp, UInt64.toNat_add, UInt64.toNat_ofNat']
  have : UInt64.toNat 2 = 2 := rfl
  omega

theorem stamp_inj {n k : Nat} (hn : n < clockLimit) (hk : k < clockLimit) :
    stamp n = stamp k ↔ n = k := by
  constructor
  · intro h
    have := congrArg UInt64.toNat h
    rw [toNat_stamp hn, toNat_stamp hk] at this
    omega
  · rintro rfl
    rfl

/-- Counts that are close together have different stamps, however large they are. -/
theorem eq_of_stamp_eq {n k : Nat} (hk : k ≤ n) (hn : n < k + clockLimit)
    (h : stamp n = stamp k) : n = k := by
  have := congrArg UInt64.toNat h
  simp only [stamp, UInt64.toNat_ofNat'] at this
  unfold clockLimit at hn
  omega

theorem toNat_stamp_add_one (n : Nat) : (stamp n + 1).toNat = (stamp n).toNat + 1 := by
  simp only [stamp, UInt64.toNat_add, UInt64.toNat_ofNat']
  have : UInt64.toNat 1 = 1 := rfl
  omega

theorem toNat_stamp_mod_two (n : Nat) : (stamp n).toNat % 2 = 0 := by
  simp only [stamp, UInt64.toNat_ofNat']
  omega

/-- Clearing the lowest bit rounds down to an even number. -/
theorem toNat_and_not_one (w : UInt64) : (w &&& ~~~1).toNat = 2 * (w.toNat / 2) := by
  have e : (~~~(1 : UInt64)).toNat = 2 ^ 1 * (2 ^ 63 - 1) := by decide
  have hw : w.toNat < 2 ^ 64 := w.toNat_lt
  rw [UInt64.toNat_and, e]
  -- The mask has every bit but the lowest.
  apply Nat.eq_of_testBit_eq
  intro i
  cases i with
  | zero => simp
  | succ i =>
    rw [Nat.testBit_and, Nat.testBit_two_pow_mul, Nat.testBit_two_pow_sub_one,
      show 2 * (w.toNat / 2) = 2 ^ 1 * (w.toNat / 2) from rfl, Nat.testBit_two_pow_mul]
    simp only [Nat.testBit_div_two, Nat.add_sub_cancel]
    by_cases hi : i < 63
    · simp [hi]
    · have : w.toNat.testBit (i + 1) = false :=
        Nat.testBit_lt_two_pow (Nat.lt_of_lt_of_le hw (Nat.pow_le_pow_right (by omega) (by omega)))
      simp [this]

namespace Clock

/-! ## The lowest bit -/

theorem isLocked_iff {c : Clock} : c.isLocked = true ↔ c.now.toNat % 2 = 1 := by
  have hone : UInt64.toNat 1 = 1 := rfl
  rw [isLocked, beq_iff_eq, ← UInt64.toNat_inj, UInt64.toNat_and, hone, Nat.and_one_is_mod]

theorem isLocked_add_one (t : Timestamp) :
    (⟨t + 1⟩ : Clock).isLocked = !(⟨t⟩ : Clock).isLocked := by
  have hone : UInt64.toNat 1 = 1 := rfl
  rw [Bool.eq_iff_iff, Bool.not_eq_true', ← Bool.not_eq_true, isLocked_iff, isLocked_iff,
    UInt64.toNat_add, hone]
  dsimp only
  omega

theorem isLocked_add_two (t : Timestamp) :
    (⟨t + 2⟩ : Clock).isLocked = (⟨t⟩ : Clock).isLocked := by
  have htwo : UInt64.toNat 2 = 2 := rfl
  rw [Bool.eq_iff_iff, isLocked_iff, isLocked_iff, UInt64.toNat_add, htwo]
  dsimp only
  omega

theorem isLocked_snapshot (c : Clock) : (⟨c.snapshot⟩ : Clock).isLocked = false := by
  rw [← Bool.not_eq_true, isLocked_iff, snapshot, toNat_and_not_one]
  omega

theorem isLocked_unlocked {c : Clock} {now : Timestamp} (h : c.unlocked? = some now) :
    (⟨now⟩ : Clock).isLocked = false := by
  obtain ⟨hfree, rfl⟩ := unlocked?_eq_some_iff.1 h
  exact hfree

/-! ## Counts -/

@[simp]
theorem now_of (n : Nat) (held : Bool) :
    (of n held).now = if held then stamp n + 1 else stamp n := rfl

@[simp]
theorem snapshot_of (n : Nat) (held : Bool) : (of n held).snapshot = stamp n := by
  apply UInt64.toNat_inj.1
  have heven := toNat_stamp_mod_two n
  rw [snapshot, toNat_and_not_one, now_of]
  cases held with
  | false => rw [if_neg Bool.false_ne_true]; omega
  | true => rw [if_pos rfl, toNat_stamp_add_one]; omega

@[simp]
theorem isLocked_of (n : Nat) (held : Bool) : (of n held).isLocked = held := by
  have heven := toNat_stamp_mod_two n
  rw [Bool.eq_iff_iff, isLocked_iff, now_of]
  cases held with
  | false => simp [heven]
  | true => rw [if_pos rfl, toNat_stamp_add_one]; simp; omega

/-- Waiting for a free clock shows the stamp of the last publication. -/
@[simp]
theorem unlocked?_of (n : Nat) (held : Bool) :
    (of n held).unlocked? = if held then none else some (stamp n) := by
  cases held <;> simp [unlocked?]

@[simp]
theorem unlock_stamp (c : Clock) (n : Nat) : c.unlock (stamp n) = of (n + 1) false := by
  simp [unlock, of, stamp_succ]

/-- The clock shows the stamp of a count just when it is free and this is the count. -/
theorem now_of_eq_stamp_iff {n k : Nat} {held : Bool} (hn : n < clockLimit) (hk : k < clockLimit) :
    (of n held).now = stamp k ↔ held = false ∧ n = k := by
  cases held with
  | false => simp [stamp_inj hn hk]
  | true =>
    -- A clock that is held shows an odd value.
    simp only [now_of, if_true, Bool.true_eq_false, false_and, iff_false]
    intro h
    have := congrArg UInt64.toNat h
    rw [toNat_stamp_add_one, toNat_stamp hn, toNat_stamp hk] at this
    omega

/-- The clock can be taken at the stamp of a count just when it is free and this is the count. -/
theorem lock?_of_eq_some_iff {n k : Nat} {held : Bool} (hn : n < clockLimit) (hk : k < clockLimit)
    {c : Clock} : (of n held).lock? (stamp k) = some c ↔ held = false ∧ n = k ∧ c = of n true := by
  rw [lock?_eq_some_iff, now_of_eq_stamp_iff hn hk, and_assoc]
  constructor
  · rintro ⟨hheld, rfl, rfl⟩
    exact ⟨hheld, rfl, rfl⟩
  · rintro ⟨hheld, rfl, rfl⟩
    exact ⟨hheld, rfl, rfl⟩

theorem zero_eq_of : zero = of 0 false := rfl

/-- A clock that does not run backward has room for one more publication. -/
theorem succ_lt_clockLimit {n : Nat} {held : Bool} (hn : n < clockLimit)
    (h : (of n held).now ≤ (of (n + 1) false).now) : n + 1 < clockLimit := by
  rcases Nat.lt_or_ge (n + 1) clockLimit with hlt | hlimit
  · exact hlt
  exfalso
  unfold clockLimit at hn hlimit
  -- Past the limit the clock would show its first value again.
  have e : stamp (n + 1) = stamp 0 := by
    rw [stamp, show n + 1 = 0x8000000000000000 by omega]
    rfl
  rw [UInt64.le_iff_toNat_le, now_of, now_of, if_neg Bool.false_ne_true, e,
    toNat_stamp (by decide)] at h
  have hstamp : (stamp n).toNat = 2 * n := toNat_stamp hn
  cases held with
  | false => rw [if_neg Bool.false_ne_true] at h; omega
  | true => rw [if_pos rfl, toNat_stamp_add_one] at h; omega

end Clock

end HybridTM

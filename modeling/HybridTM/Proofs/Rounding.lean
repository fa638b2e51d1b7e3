import Mathlib.Algebra.Order.Field.Power
import Mathlib.Data.Int.Log
import Mathlib.Data.Rat.Floor
import Mathlib.Tactic.Linarith
import Mathlib.Tactic.NormNum
import Mathlib.Tactic.Positivity
import Mathlib.Tactic.Ring

/-!
# Rounding to binary64

A rational number that is not negative is rounded to 53 binary digits, and to the even last digit
where two results are equally near (`rounded`). A larger number is not rounded to a smaller one
(`rounded_mono`), and a power of two stands as it is (`rounded_zpow`).

How Lean's floats round is by a mantissa with a round and a sticky bit. `Shows` says which number
such a mantissa stands for; shifts keep it (`Shows.shiftRight`), so do the quotients of a long
division (`Shows.ofFraction`), and its mantissa rounds as the number does (`Shows.roundedMantissa`).

Exponents are unbounded here: `Proofs/FloatQuotients.lean` has the numbers that are neither tiny nor
huge.
-/

set_option autoImplicit false

namespace HybridTM

namespace Binary64

open Float.Model Float.Model.UnpackedFloat

/-! ## To a natural number -/

/-- The natural number nearest to a number that is not negative, of two the even one. -/
def nearestEven (x : ℚ) : ℕ :=
  if x < ⌊x⌋₊ + 1 / 2 then ⌊x⌋₊
  else if x = ⌊x⌋₊ + 1 / 2 then ⌊x⌋₊ + ⌊x⌋₊ % 2
  else ⌊x⌋₊ + 1

theorem nearestEven_bounds (x : ℚ) : ⌊x⌋₊ ≤ nearestEven x ∧ nearestEven x ≤ ⌊x⌋₊ + 1 := by
  unfold nearestEven
  split_ifs <;> omega

theorem nearestEven_natCast (n : ℕ) : nearestEven n = n := by
  simp [nearestEven]

theorem nearestEven_mono {x y : ℚ} (h : x ≤ y) : nearestEven x ≤ nearestEven y := by
  rcases (Nat.floor_le_floor h).lt_or_eq with hlt | heq
  · calc nearestEven x ≤ ⌊x⌋₊ + 1 := (nearestEven_bounds x).2
      _ ≤ ⌊y⌋₊ := hlt
      _ ≤ nearestEven y := (nearestEven_bounds y).1
  · unfold nearestEven
    rw [heq]
    split_ifs <;> first | omega | (exfalso; grind)

theorem nearestEven_le {x : ℚ} {n : ℕ} (h : x ≤ n) : nearestEven x ≤ n :=
  (nearestEven_mono h).trans_eq (nearestEven_natCast n)

theorem le_nearestEven {x : ℚ} {n : ℕ} (h : n ≤ x) : n ≤ nearestEven x :=
  (nearestEven_natCast n).symm.trans_le (nearestEven_mono h)

/-! ## To 53 digits -/

/-- The exponent of the last of 53 digits. -/
def scale (x : ℚ) : ℤ := Int.log 2 x - 52

/-- A number that is not negative, rounded to 53 digits. -/
def rounded (x : ℚ) : ℚ := nearestEven (x / 2 ^ scale x) * 2 ^ scale x

theorem natCast_two_pow_mul (n : ℕ) (k : ℤ) : ((2 ^ n : ℕ) : ℚ) * 2 ^ k = 2 ^ (n + k) := by
  rw [zpow_add₀ two_ne_zero, zpow_natCast, Nat.cast_pow, Nat.cast_ofNat]

/-- Scaled, a number has 53 digits before the point. -/
theorem scaled_bounds {x : ℚ} (h : 0 < x) :
    (2 ^ 52 : ℕ) ≤ x / 2 ^ scale x ∧ x / 2 ^ scale x < (2 ^ 53 : ℕ) := by
  have hpow : (0 : ℚ) < 2 ^ scale x := by positivity
  rw [le_div_iff₀ hpow, div_lt_iff₀ hpow, natCast_two_pow_mul, natCast_two_pow_mul]
  have hlow : ((52 : ℕ) : ℤ) + scale x = Int.log 2 x := by simp [scale]
  have hhigh : ((53 : ℕ) : ℤ) + scale x = Int.log 2 x + 1 := by
    rw [scale]
    push_cast
    ring
  rw [hlow, hhigh]
  exact ⟨Int.zpow_log_le_self Nat.one_lt_two h, Int.lt_zpow_succ_log_self Nat.one_lt_two x⟩

/-- Nothing else is its scale. -/
theorem scale_eq {x : ℚ} {k : ℤ} (lower : (2 ^ 52 : ℕ) ≤ x / 2 ^ k)
    (upper : x / 2 ^ k < (2 ^ 53 : ℕ)) : scale x = k := by
  have hpow : (0 : ℚ) < 2 ^ k := by positivity
  rw [le_div_iff₀ hpow, natCast_two_pow_mul] at lower
  rw [div_lt_iff₀ hpow, natCast_two_pow_mul] at upper
  have hx : 0 < x := lower.trans_lt' (by positivity)
  have hle := (Int.zpow_le_iff_le_log Nat.one_lt_two hx).1 lower
  have hlt := (Int.lt_zpow_iff_log_lt Nat.one_lt_two hx).1 upper
  unfold scale
  omega

theorem scale_mono {x y : ℚ} (hx : 0 < x) (h : x ≤ y) : scale x ≤ scale y :=
  Int.sub_le_sub_right (Int.log_mono_right hx h) 52

theorem rounded_zero : rounded 0 = 0 := by simp [rounded, nearestEven]

theorem rounded_nonneg (x : ℚ) : 0 ≤ rounded x := by
  unfold rounded
  positivity

/-- A larger number is not rounded to a smaller one. -/
theorem rounded_mono {x y : ℚ} (hx : 0 ≤ x) (h : x ≤ y) : rounded x ≤ rounded y := by
  rcases hx.eq_or_lt with rfl | hx
  · rw [rounded_zero]
    exact rounded_nonneg y
  · rcases (scale_mono hx h).lt_or_eq with hlt | heq
    · -- On a larger scale even the least number exceeds all of a smaller one.
      have hupper := nearestEven_le (scaled_bounds hx).2.le
      have hlower := le_nearestEven (scaled_bounds (hx.trans_le h)).1
      calc rounded x ≤ (2 ^ 53 : ℕ) * 2 ^ scale x := by
            unfold rounded
            gcongr
        _ = 2 ^ (52 + (scale x + 1)) := by
            rw [natCast_two_pow_mul]
            congr 1
            push_cast
            ring
        _ ≤ (2 ^ 52 : ℕ) * 2 ^ scale y := by
            rw [natCast_two_pow_mul]
            exact zpow_le_zpow_right₀ one_le_two (Int.add_le_add_left hlt 52)
        _ ≤ rounded y := by
            unfold rounded
            gcongr
    · unfold rounded
      rw [heq]
      gcongr
      exact nearestEven_mono (by gcongr)

/-- A power of two stands as it is. -/
theorem rounded_zpow (j : ℤ) : rounded (2 ^ j) = 2 ^ j := by
  have hscale : scale (2 ^ j) = j - 52 := congrArg (· - 52) (Int.log_zpow Nat.one_lt_two j)
  have hdiv : (2 : ℚ) ^ j / 2 ^ (j - 52) = (2 ^ 52 : ℕ) := by
    rw [← zpow_sub₀ two_ne_zero, sub_sub_cancel]
    norm_num
  rw [rounded, hscale, hdiv, nearestEven_natCast, ← hdiv]
  exact div_mul_cancel₀ _ (by positivity)

/-! ## Mantissas with a rest -/

/-- A mantissa with a round and a sticky bit stands for a number. -/
structure Shows (em : ExtendedMantissa) (x : ℚ) : Prop where
  /-- The mantissa is the whole part. -/
  lower : em.mantissa ≤ x
  /-- The rest is less than one. -/
  upper : x < em.mantissa + 1
  /-- The round bit says whether it is one half at least. -/
  half : em.roundBit = true ↔ em.mantissa + 1 / 2 ≤ x
  /-- The sticky bit says whether there is more than that. -/
  rest : em.stickyBit = true ↔ x ≠ em.mantissa ∧ x ≠ em.mantissa + 1 / 2

namespace Shows

variable {em : ExtendedMantissa} {x : ℚ}

theorem floor (S : Shows em x) : ⌊x⌋₊ = em.mantissa :=
  (Nat.floor_eq_iff ((Nat.cast_nonneg _).trans S.lower)).2 ⟨S.lower, S.upper⟩

/-- The mantissa rounds as the number does. -/
theorem roundedMantissa (S : Shows em x) : em.roundedMantissa = nearestEven x := by
  rw [nearestEven, S.floor]
  obtain ⟨lower, upper, half, rest⟩ := S
  rcases em with ⟨m, _ | _, _ | _⟩ <;>
    simp only [ExtendedMantissa.roundedMantissa, ExtendedMantissa.accuracy,
      Accuracy.roundToNearestEven] <;>
    grind

/-- The digit that is shifted out is the round bit then, and what that was joins the rest. -/
theorem shiftRightOne (S : Shows em x) : Shows em.shiftRightOne (x / 2) := by
  obtain ⟨lower, upper, half, rest⟩ := S
  rcases em with ⟨m, r, s⟩
  obtain ⟨k, hk⟩ := Nat.even_or_odd' m
  have hdiv : m / 2 = k := by omega
  simp only [ExtendedMantissa.shiftRightOne]
  -- An even mantissa shifts out a zero, an odd one a one.
  rcases hk with rfl | rfl
  · push_cast at lower upper half rest
    constructor <;> simp [hdiv, half, rest] <;> grind
  · push_cast at lower upper half rest
    constructor <;> simp [hdiv, half, rest] <;> grind

theorem shiftRight (S : Shows em x) (n : ℕ) : Shows (em >>> n) (x / 2 ^ n) := by
  induction n with
  | zero => rwa [pow_zero, div_one]
  | succ n ih =>
    rw [pow_succ, ← div_div]
    exact ih.shiftRightOne

theorem ofExact (m : ℕ) : Shows (.ofMantissaAndAccuracy m .exact) m := by
  constructor <;> simp [ExtendedMantissa.ofMantissaAndAccuracy]

/-- A quotient with what the remainder says about the digits after the point. -/
theorem ofFraction (a : ℕ) {b : ℕ} (hb : 0 < b) :
    Shows (.ofMantissaAndAccuracy (a / b) (accuracyOfFraction (a % b) b)) (a / b) := by
  have hpos : (0 : ℚ) < b := Nat.cast_pos.2 hb
  have hsum : (a : ℚ) / b = (a / b : ℕ) + (a % b : ℕ) / b := by
    rw [add_comm, div_add' _ _ _ hpos.ne', ← Nat.cast_mul, ← Nat.cast_add, Nat.mod_add_div']
  rw [hsum, accuracyOfFraction]
  split_ifs with hzero
  · rw [hzero]
    simpa using ofExact (a / b)
  · have hless : ((a % b : ℕ) : ℚ) / b < 1 / 2 ↔ 2 * (a % b) < b := by
      rw [div_lt_div_iff₀ hpos two_pos, mul_comm]
      norm_cast
      rw [one_mul]
    have hhalf : ((a % b : ℕ) : ℚ) / b = 1 / 2 ↔ 2 * (a % b) = b := by
      rw [div_eq_div_iff hpos.ne' two_ne_zero, mul_comm]
      norm_cast
      rw [one_mul]
    have hrest : (0 : ℚ) < (a % b : ℕ) / b ∧ ((a % b : ℕ) : ℚ) / b < 1 :=
      ⟨div_pos (Nat.cast_pos.2 (Nat.pos_of_ne_zero hzero)) hpos,
        (div_lt_one hpos).2 (Nat.cast_lt.2 (Nat.mod_lt a hb))⟩
    generalize ((a % b : ℕ) : ℚ) / b = f at *
    cases hc : compare (2 * (a % b)) b with
    | lt =>
      have := hless.2 (Nat.compare_eq_lt.1 hc)
      constructor <;> simp [ExtendedMantissa.ofMantissaAndAccuracy] <;> grind
    | eq =>
      have := hhalf.2 (Nat.compare_eq_eq.1 hc)
      constructor <;> simp [ExtendedMantissa.ofMantissaAndAccuracy] <;> grind
    | gt =>
      have hgt := Nat.compare_eq_gt.1 hc
      have := mt hless.1 hgt.not_gt
      have := mt hhalf.1 hgt.ne'
      constructor <;> simp [ExtendedMantissa.ofMantissaAndAccuracy] <;> grind

end Shows

end Binary64

end HybridTM

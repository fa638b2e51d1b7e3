import HybridTM.Proofs.Rounding
import Mathlib

/-!
# Quotients of counters as floats

A mean is the quotient of two 64-bit counters that were made floats. A counter becomes the float
that its number is rounded to, and the quotient of two of them is rounded once more
(`valueIs_div`). All of these numbers are zero or lie between `2 ^ (-64)` and `2 ^ 64`, so that
none is subnormal and none overflows (`IsModerate`).

The quotient is therefore a finite float (`isFinite_div`), it does not become smaller with a larger
counter above (`div_le_div`), and two quotients compare as their values do (`ValueIs.le_iff`,
`ValueIs.lt_iff`).
-/

set_option autoImplicit false

namespace HybridTM

namespace Binary64

open Float.Model Float.Model.UnpackedFloat

/-! ## Values -/

/-- A float that is not negative, with all of its digits, has a value. -/
inductive HasValue : UnpackedFloat → ℚ → Prop
  /-- Zero. -/
  | zero : HasValue (.zero .positive) 0
  /-- A number with 53 digits. -/
  | finite {m : ℕ} {e : ℤ} (pos : 0 < m) (size : m.log2 = 52) :
      HasValue (.finite .positive m e pos) (m * 2 ^ e)

/-- A number that is neither tiny nor huge. -/
def IsModerate (x : ℚ) : Prop := x = 0 ∨ 2 ^ (-64 : ℤ) ≤ x ∧ x ≤ 2 ^ (64 : ℤ)

theorem IsModerate.rounded {x : ℚ} (h : IsModerate x) : IsModerate (rounded x) := by
  rcases h with rfl | ⟨lower, upper⟩
  · exact Or.inl rounded_zero
  · right
    rw [← rounded_zpow, ← rounded_zpow 64]
    exact ⟨rounded_mono (by positivity) lower, rounded_mono (lower.trans' (by positivity)) upper⟩

theorem isModerate_natCast {n : ℕ} (h : n ≤ 2 ^ 64) : IsModerate n := by
  rcases Nat.eq_zero_or_pos n with rfl | hpos
  · exact Or.inl Nat.cast_zero
  · have lower : (1 : ℚ) ≤ n := Nat.one_le_cast.2 hpos
    have upper : (n : ℚ) ≤ (2 ^ 64 : ℕ) := Nat.cast_le.2 h
    exact Or.inr ⟨lower.trans' (by norm_num), upper.trans_eq (by norm_num)⟩

/-- The bounds of 53 digits. -/
theorem bounds_of_log2 {m : ℕ} (h : m.log2 = 52) : 2 ^ 52 ≤ m ∧ m < 2 ^ 53 := by
  have hne : m ≠ 0 := by
    rintro rfl
    rw [Nat.log2_zero] at h
    cases h
  exact (Nat.log2_eq_iff hne).1 h

namespace HasValue

variable {f g : UnpackedFloat} {v w : ℚ}

/-- With 53 digits each, the larger exponent belongs to the larger number. -/
theorem lt_of_exponent {m n : ℕ} {e e' : ℤ} (hm : m.log2 = 52) (hn : n.log2 = 52) (h : e < e') :
    (m : ℚ) * 2 ^ e < n * 2 ^ e' := by
  have hm : (m : ℚ) < (2 ^ 53 : ℕ) := Nat.cast_lt.2 (bounds_of_log2 hm).2
  have hn : ((2 ^ 52 : ℕ) : ℚ) ≤ n := Nat.cast_le.2 (bounds_of_log2 hn).1
  calc (m : ℚ) * 2 ^ e < (2 ^ 53 : ℕ) * 2 ^ e := by gcongr
    _ = 2 ^ (53 + e) := natCast_two_pow_mul 53 e
    _ ≤ 2 ^ (52 + e') := zpow_le_zpow_right₀ one_le_two (by omega)
    _ = (2 ^ 52 : ℕ) * 2 ^ e' := (natCast_two_pow_mul 52 e').symm
    _ ≤ n * 2 ^ e' := by gcongr

/-- Floats compare as their values do. -/
theorem compare_eq (F : HasValue f v) (G : HasValue g w) : f.compare g = some (compare v w) := by
  cases F with
  | zero =>
    cases G with
    | zero => exact congrArg some (compare_eq_iff_eq.2 rfl).symm
    | finite => exact congrArg some (compare_lt_iff_lt.2 (by positivity)).symm
  | @finite m e pos size =>
    cases G with
    | zero => exact congrArg some (compare_gt_iff_gt.2 (by positivity)).symm
    | @finite n e' pos' size' =>
      show some ((compare e e').then (compare m n)) = _
      -- The exponent decides, and the mantissa where it is the same.
      rcases lt_trichotomy e e' with h | rfl | h
      · rw [compare_lt_iff_lt.2 h, compare_lt_iff_lt.2 (lt_of_exponent size size' h)]
        rfl
      · have hpow : (0 : ℚ) < 2 ^ e := by positivity
        rw [compare_eq_iff_eq.2 rfl]
        show some (compare m n) = _
        rcases lt_trichotomy m n with h | rfl | h
        · rw [compare_lt_iff_lt.2 h, compare_lt_iff_lt.2 (by gcongr)]
        · rw [compare_eq_iff_eq.2 rfl, compare_eq_iff_eq.2 rfl]
        · rw [compare_gt_iff_gt.2 h, compare_gt_iff_gt.2 (by gcongr)]
      · rw [compare_gt_iff_gt.2 h, compare_gt_iff_gt.2 (lt_of_exponent size' size h)]
        rfl

/-- The exponent of a moderate number is far from both ends. -/
theorem exponent_bounds {m : ℕ} {e : ℤ} (pos : 0 < m) (size : m.log2 = 52)
    (h : IsModerate (m * 2 ^ e)) : -117 ≤ e ∧ e ≤ 12 := by
  obtain ⟨hlow, hhigh⟩ := bounds_of_log2 size
  rcases h with h | ⟨lower, upper⟩
  · have : (m : ℚ) * 2 ^ e ≠ 0 := by positivity
    exact absurd h this
  · constructor
    · have : (2 : ℚ) ^ (-64 : ℤ) < 2 ^ (53 + e) :=
        calc (2 : ℚ) ^ (-64 : ℤ) ≤ m * 2 ^ e := lower
          _ < (2 ^ 53 : ℕ) * 2 ^ e := by gcongr
          _ = 2 ^ (53 + e) := natCast_two_pow_mul 53 e
      have := (zpow_lt_zpow_iff_right₀ one_lt_two).1 this
      omega
    · have : (2 : ℚ) ^ (52 + e) ≤ 2 ^ (64 : ℤ) :=
        calc (2 : ℚ) ^ (52 + e) = (2 ^ 52 : ℕ) * 2 ^ e := (natCast_two_pow_mul 52 e).symm
          _ ≤ m * 2 ^ e := by gcongr
          _ ≤ 2 ^ (64 : ℤ) := upper
      have := (zpow_le_zpow_iff_right₀ one_lt_two).1 this
      omega

/-- The digits after the first with the first one before them. -/
theorem toNat_one_append {m : ℕ} (size : m.log2 = 52) :
    (1#1 ++ BitVec.ofNat 52 m).toNat = m := by
  obtain ⟨hlow, hhigh⟩ := bounds_of_log2 size
  rw [BitVec.toNat_append, BitVec.toNat_ofNat, BitVec.toNat_ofNat,
    ← Nat.shiftLeft_add_eq_or_of_lt (Nat.mod_lt _ (by positivity)), Nat.shiftLeft_eq]
  omega

/-- A moderate number fits into 64 bits. -/
theorem unpack_pack (F : HasValue f v) (h : IsModerate v) : (Float.Model.pack f).unpack = f := by
  cases F with
  | zero => rfl
  | @finite m e pos size =>
    obtain ⟨hlow, hhigh⟩ := exponent_bounds pos size h
    obtain ⟨b, hb⟩ : ∃ b : ℕ, e + 1075 = b := ⟨(e + 1075).toNat, by omega⟩
    have hbiased : (e + (Format.binary64.exponentBias : ℕ) + (52 : ℕ)).toNat = b := by
      show (e + (1023 : ℕ) + (52 : ℕ)).toNat = b
      omega
    have hpack : UnpackedFloat.pack .binary64 (.finite .positive m e pos) =
        packComponents .binary64 .positive (.ofNat 11 b) (.ofNat 52 m) := by
      rw [UnpackedFloat.pack]
      simp only [hbiased, size]
      rw [if_neg (by omega), if_pos (show 52 + 1 = Format.binary64.mantissaBits from rfl)]
    have hexponent : (BitVec.ofNat 11 b).toNat = b := Nat.mod_eq_of_lt (by omega)
    -- The exponent is neither that of zero nor that of infinity.
    have ne {k : ℕ} (hk : k < 2 ^ 11) (h : b ≠ k) : BitVec.ofNat 11 b ≠ BitVec.ofNat 11 k := by
      intro heq
      have heq := congrArg BitVec.toNat heq
      rw [hexponent, BitVec.toNat_ofNat, Nat.mod_eq_of_lt hk] at heq
      exact h heq
    have hzero : BitVec.ofNat 11 b ≠ 0#11 := ne (by decide) (by omega)
    have hones : BitVec.ofNat 11 b ≠ -1#11 := ne (k := 2047) (by decide) (by omega)
    have hexact : (b : ℤ) - ((Format.binary64.exponentBias : ℕ) + (52 : ℕ)) = e := by
      show (b : ℤ) - ((1023 : ℕ) + (52 : ℕ)) = e
      omega
    rw [Float.Model.unpack, Float.Model.pack]
    simp only
    rw [hpack, UnpackedFloat.unpack]
    simp only [unpackExponent_packComponents, unpackMantissa_packComponents,
      unpackSign_packComponents, hzero, hones, hexponent, toNat_one_append size, hexact, if_false]
    rfl

end HasValue

/-! ## Rounding -/

theorem targetExponent_binary64 (t : ℤ) :
    Format.binary64.targetExponent t = max (t - 53) (-1074) := rfl

theorem targetExponent_eq {m : ℕ} {e : ℤ} (normal : -1074 ≤ (m.log2 : ℤ) + e - 52) :
    Format.binary64.targetExponent (totalExponent m e) = m.log2 + e - 52 := by
  rw [targetExponent_binary64, totalExponent]
  omega

/-- A mantissa with too many digits loses the last ones. -/
theorem shiftToTargetExponent_eq {m k : ℕ} {e : ℤ} (acc : Accuracy) (size : m.log2 = 52 + k)
    (normal : -1074 ≤ e + k) : shiftToTargetExponent .binary64 m e acc =
      (ExtendedMantissa.ofMantissaAndAccuracy m acc >>> k, e + k) := by
  have htarget : Format.binary64.targetExponent (totalExponent m e) = e + k := by
    rw [targetExponent_eq (by omega)]
    omega
  have hshift : (e + k - e).toNat = k := by omega
  rw [shiftToTargetExponent, htarget, shiftToExponent, hshift]

/-- What a mantissa stands for has as many digits. -/
theorem Shows.scaled {m k : ℕ} {acc : Accuracy} {x : ℚ}
    (S : Shows (.ofMantissaAndAccuracy m acc) x) (size : m.log2 = 52 + k) :
    (2 ^ 52 : ℕ) ≤ x / 2 ^ k ∧ x / 2 ^ k < (2 ^ 53 : ℕ) := by
  have hm : m ≠ 0 := by
    rintro rfl
    rw [Nat.log2_zero] at size
    omega
  obtain ⟨hlow, hhigh⟩ := (Nat.log2_eq_iff hm).1 size
  have hmantissa : (ExtendedMantissa.ofMantissaAndAccuracy m acc).mantissa = m := by
    rcases acc with _ | _ | _ | _ <;> rfl
  obtain ⟨lower, upper, -, -⟩ := S
  rw [hmantissa] at lower upper
  rw [le_div_iff₀ (by positivity), div_lt_iff₀ (by positivity)]
  constructor
  · have : 2 ^ 52 * 2 ^ k ≤ m := by rwa [← pow_add]
    refine le_trans ?_ lower
    exact_mod_cast this
  · have : m + 1 ≤ 2 ^ 53 * 2 ^ k := by
      rw [← pow_add, Nat.add_right_comm 52 1 k]
      exact hhigh
    refine upper.trans_le ?_
    exact_mod_cast this

/-- The result of an operation is the number that its exact result is rounded to. -/
theorem hasValue_roundWithAccuracy {m k : ℕ} {e : ℤ} {acc : Accuracy} {x : ℚ}
    (S : Shows (.ofMantissaAndAccuracy m acc) x) (size : m.log2 = 52 + k)
    (normal : -1074 ≤ e + k) :
    HasValue (roundWithAccuracy .binary64 .positive m e acc) (rounded (x * 2 ^ e)) := by
  obtain ⟨lower, upper⟩ := S.scaled size
  have hcancel : x * 2 ^ e / 2 ^ (e + k) = x / 2 ^ k := by
    rw [zpow_add₀ two_ne_zero, zpow_natCast, mul_comm ((2 : ℚ) ^ e),
      mul_div_mul_right _ _ (by positivity)]
  have hrounded : rounded (x * 2 ^ e) = nearestEven (x / 2 ^ k) * 2 ^ (e + k) := by
    have hscale : scale (x * 2 ^ e) = e + k := scale_eq (by rwa [hcancel]) (by rwa [hcancel])
    rw [rounded, hscale, hcancel]
  rw [hrounded, roundWithAccuracy, shiftToTargetExponent_eq acc size normal]
  simp only
  rw [(S.shiftRight k).roundedMantissa]
  have hlow := le_nearestEven lower
  rcases (nearestEven_le upper.le).lt_or_eq with hlt | heq
  · generalize nearestEven (x / 2 ^ k) = r at *
    have hsize : r.log2 = 52 + 0 := (Nat.log2_eq_iff (by omega)).2 ⟨hlow, hlt⟩
    rw [shiftToTargetExponent_eq .exact hsize (by omega)]
    have hfinal : (ExtendedMantissa.ofMantissaAndAccuracy r .exact >>> 0).mantissa = r := rfl
    simp only [hfinal, dif_neg (show r ≠ 0 by omega), Nat.cast_zero, add_zero]
    exact .finite _ hsize
  · -- A carry gives one digit more, which is a zero.
    rw [heq, shiftToTargetExponent_eq (k := 1) .exact Nat.log2_two_pow (by omega)]
    have hfinal :
        (ExtendedMantissa.ofMantissaAndAccuracy (2 ^ 53) .exact >>> 1).mantissa = 2 ^ 52 := rfl
    simp only [hfinal]
    have hcarry : ((2 ^ 53 : ℕ) : ℚ) * 2 ^ (e + k) = (2 ^ 52 : ℕ) * 2 ^ (e + k + (1 : ℕ)) := by
      rw [natCast_two_pow_mul, natCast_two_pow_mul]
      congr 1
      push_cast
      ring
    rw [hcarry]
    exact .finite _ Nat.log2_two_pow

/-! ## Counters -/

theorem log2_shiftLeft {n : ℕ} (h : n ≠ 0) (s : ℕ) : (n <<< s).log2 = n.log2 + s := by
  obtain ⟨lower, upper⟩ := (Nat.log2_eq_iff h).1 rfl
  rw [Nat.shiftLeft_eq, Nat.log2_eq_iff (by positivity), Nat.add_right_comm, pow_add,
    pow_add _ _ s]
  constructor <;> gcongr

theorem hasValue_ofUInt64 (n : UInt64) :
    HasValue (UnpackedFloat.ofUInt64 .binary64 n) (rounded n.toNat) := by
  unfold UnpackedFloat.ofUInt64 UnpackedFloat.ofNat UnpackedFloat.ofInt UnpackedFloat.normalize
  rcases Nat.eq_zero_or_pos n.toNat with hzero | hpos
  · have hvalue : rounded (0 : ℕ) = 0 := by rw [Nat.cast_zero, rounded_zero]
    rw [hzero, hvalue]
    exact .zero
  · have hgt : compare (n.toNat : ℤ) 0 = .gt := Int.compare_eq_gt.2 (Int.natCast_pos.2 hpos)
    rw [hgt]
    simp only [Int.toNat_natCast]
    rw [UnpackedFloat.round, targetExponent_eq (by omega), decreaseExponent]
    simp only
    generalize hs : (0 - ((n.toNat.log2 : ℤ) + 0 - 52)).toNat = s
    have hvalue : ((n.toNat <<< s : ℕ) : ℚ) * 2 ^ (0 - (s : ℤ)) = n.toNat := by
      rw [Nat.shiftLeft_eq, zero_sub, zpow_neg, zpow_natCast]
      push_cast
      exact mul_inv_cancel_right₀ (by positivity) _
    rw [← hvalue]
    have hsize : (n.toNat <<< s).log2 = 52 + (n.toNat.log2 - 52) := by
      rw [log2_shiftLeft hpos.ne']
      omega
    exact hasValue_roundWithAccuracy (.ofExact _) hsize (by omega)

namespace HasValue

/-- The exponents of a moderate quotient are not far apart. -/
theorem sub_exponent_bounds {m n : ℕ} {e e' : ℤ} (pos : 0 < m) (size : m.log2 = 52) (pos' : 0 < n)
    (size' : n.log2 = 52) (h : IsModerate (m * 2 ^ e / (n * 2 ^ e'))) : -66 < e - e' := by
  obtain ⟨hm, hm'⟩ := bounds_of_log2 size
  obtain ⟨hn, hn'⟩ := bounds_of_log2 size'
  rcases h with h | ⟨h, -⟩
  · have : (m : ℚ) * 2 ^ e / (n * 2 ^ e') ≠ 0 := by positivity
    exact absurd h this
  · have hle : (m : ℚ) / n ≤ 2 := by
      rw [div_le_iff₀ (Nat.cast_pos.2 pos')]
      have : m ≤ 2 * n := by omega
      exact_mod_cast this
    have : (2 : ℚ) ^ (-64 : ℤ) ≤ 2 ^ (e - e' + 1) := by
      calc (2 : ℚ) ^ (-64 : ℤ) ≤ m * 2 ^ e / (n * 2 ^ e') := h
        _ = m / n * 2 ^ (e - e') := by rw [zpow_sub₀ two_ne_zero, div_mul_div_comm]
        _ ≤ 2 * 2 ^ (e - e') := by gcongr
        _ = 2 ^ (e - e' + 1) := by rw [zpow_add_one₀ two_ne_zero, mul_comm]
    have := (zpow_le_zpow_iff_right₀ one_lt_two).1 this
    omega

/-- A moderate quotient of two floats is the number that the quotient is rounded to. -/
theorem div {f g : UnpackedFloat} {v w : ℚ} (F : HasValue f v) (G : HasValue g w) (hw : 0 < w)
    (h : IsModerate (v / w)) : HasValue (f.div .binary64 g) (rounded (v / w)) := by
  cases G with
  | zero => exact absurd hw (lt_irrefl 0)
  | @finite n e' pos' size' =>
    cases F with
    | zero =>
      rw [zero_div, rounded_zero]
      exact .zero
    | @finite m e pos size =>
      have hsmall := sub_exponent_bounds pos size pos' size' h
      -- The mantissa above is made 53 digits longer, so that the quotient has 53 digits or more.
      have hcore : divCore .binary64 m e n e' =
          (m <<< 53 / n, e - e' - 53, accuracyOfFraction (m <<< 53 % n) n) := by
        have htarget : Format.binary64.targetExponent (totalExponent m e - totalExponent n e') =
            e - e' - 53 := by
          rw [targetExponent_binary64, totalExponent, totalExponent, size, size']
          omega
        have hshift : (e - e' - (e - e' - 53)).toNat = 53 := by omega
        rw [divCore, htarget, min_eq_right (by omega), hshift]
      have hlong : 52 ≤ (m <<< 53 / n).log2 := by
        have : 2 ^ 52 ≤ m <<< 53 / n := by
          rw [Nat.le_div_iff_mul_le pos', Nat.shiftLeft_eq]
          exact Nat.mul_le_mul (bounds_of_log2 size).1 (bounds_of_log2 size').2.le
        exact (Nat.le_log2 (by omega)).2 this
      have hvalue : ((m <<< 53 : ℕ) : ℚ) / n * 2 ^ (e - e' - 53) = m * 2 ^ e / (n * 2 ^ e') := by
        rw [zpow_sub₀ two_ne_zero, zpow_sub₀ two_ne_zero, Nat.shiftLeft_eq]
        push_cast
        field_simp
      rw [UnpackedFloat.div, hcore, ← hvalue]
      exact hasValue_roundWithAccuracy (k := (m <<< 53 / n).log2 - 52) (.ofFraction _ pos')
        (by omega) (by omega)

end HasValue

/-! ## Floats -/

/-- A float has a value. -/
def ValueIs (f : Float) (v : ℚ) : Prop := HasValue f.toModel.unpack v

namespace ValueIs

variable {f g : Float} {v w : ℚ}

theorem le_iff (F : ValueIs f v) (G : ValueIs g w) : f ≤ g ↔ v ≤ w := by
  show decide ((f.toModel.unpack.compare g.toModel.unpack).any (·.isLE) = true) = true ↔ _
  rw [F.compare_eq G, decide_eq_true_iff, Option.any_some, Ordering.isLE_iff_ne_gt]
  exact compare_le_iff_le

theorem lt_iff (F : ValueIs f v) (G : ValueIs g w) : f < g ↔ v < w := by
  show decide ((f.toModel.unpack.compare g.toModel.unpack == some .lt) = true) = true ↔ _
  rw [F.compare_eq G, decide_eq_true_iff, beq_iff_eq, Option.some.injEq]
  exact compare_lt_iff_lt

theorem isFinite (F : ValueIs f v) : f.isFinite = true := by
  show f.toModel.unpack.isFinite = true
  unfold ValueIs at F
  generalize f.toModel.unpack = x at F
  cases F <;> rfl

end ValueIs

/-- A counter becomes the float that it is rounded to. -/
theorem valueIs_toFloat (n : UInt64) : ValueIs n.toFloat (rounded n.toNat) := by
  have H := hasValue_ofUInt64 n
  show HasValue (Float.Model.pack _).unpack _
  rwa [H.unpack_pack (isModerate_natCast n.toNat_lt.le).rounded]

theorem one_le_rounded {n : ℕ} (h : 0 < n) : 1 ≤ rounded n := by
  have : (2 : ℚ) ^ (0 : ℤ) ≤ n := Nat.one_le_cast.2 h
  exact (rounded_zpow 0).symm.le.trans (rounded_mono (by positivity) this)

theorem rounded_toNat_le (n : UInt64) : rounded n.toNat ≤ 2 ^ (64 : ℤ) := by
  have : ((n.toNat : ℕ) : ℚ) ≤ 2 ^ (64 : ℤ) := by exact_mod_cast n.toNat_lt.le
  exact (rounded_mono (by positivity) this).trans_eq (rounded_zpow 64)

theorem isModerate_div (a : UInt64) {b : UInt64} (hb : 0 < b.toNat) :
    IsModerate (rounded a.toNat / rounded b.toNat) := by
  rcases Nat.eq_zero_or_pos a.toNat with hzero | hpos
  · left
    rw [hzero, Nat.cast_zero, rounded_zero, zero_div]
  · right
    have hpow : (2 : ℚ) ^ (-64 : ℤ) = 1 / 2 ^ (64 : ℤ) := by rw [zpow_neg, one_div]
    have lower := one_le_rounded hpos
    have lower' := one_le_rounded hb
    have upper := rounded_toNat_le a
    have upper' := rounded_toNat_le b
    constructor
    · rw [hpow]
      gcongr
    · rw [← div_one (2 ^ (64 : ℤ))]
      gcongr

/-- The quotient of two counters is the number that the quotient of the two is rounded to. -/
theorem valueIs_div (a : UInt64) {b : UInt64} (hb : b ≠ 0) :
    ValueIs (a.toFloat / b.toFloat) (rounded (rounded a.toNat / rounded b.toNat)) := by
  have hpos : 0 < b.toNat := Nat.pos_of_ne_zero fun h => hb (UInt64.toNat_inj.1 h)
  have hmoderate := isModerate_div a hpos
  have H := (valueIs_toFloat a).div (valueIs_toFloat b)
    (zero_lt_one.trans_le (one_le_rounded hpos)) hmoderate
  show HasValue (Float.Model.pack _).unpack _
  rwa [H.unpack_pack hmoderate.rounded]

theorem isFinite_div (a : UInt64) {b : UInt64} (hb : b ≠ 0) :
    (a.toFloat / b.toFloat).isFinite = true := (valueIs_div a hb).isFinite

/-- A larger counter above does not make the quotient smaller. -/
theorem div_le_div {a a' b : UInt64} (h : a.toNat ≤ a'.toNat) (hb : b ≠ 0) :
    a.toFloat / b.toFloat ≤ a'.toFloat / b.toFloat := by
  have hnum : rounded a.toNat ≤ rounded a'.toNat :=
    rounded_mono (Nat.cast_nonneg _) (Nat.cast_le.2 h)
  refine ((valueIs_div a hb).le_iff (valueIs_div a' hb)).2 (rounded_mono ?_ ?_)
  · exact div_nonneg (rounded_nonneg _) (rounded_nonneg _)
  · exact div_le_div_of_nonneg_right hnum (rounded_nonneg _)

/-- Two quotients compare, one way or the other. -/
theorem not_div_lt_iff {a b a' b' : UInt64} (hb : b ≠ 0) (hb' : b' ≠ 0) :
    ¬ a.toFloat / b.toFloat < a'.toFloat / b'.toFloat ↔
      a'.toFloat / b'.toFloat ≤ a.toFloat / b.toFloat := by
  have A := valueIs_div a hb
  have B := valueIs_div a' hb'
  rw [A.lt_iff B, B.le_iff A]
  exact not_lt

end Binary64

end HybridTM

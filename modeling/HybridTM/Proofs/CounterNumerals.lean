import HybridTM.Json.Float
import HybridTM.Proofs.FloatQuotients

/-!
# Counters read as floats

A number may be wanted as a float although it was written as a counter. All of its digits fit into
the significand then (`takeDigits_numeral`), nothing is left to be scaled, and the float is the one
that the counter is rounded to (`exists_float?_ofNat`): in particular there is one, which is all
that is asked of a number in a value that is held before it is understood.
-/

set_option autoImplicit false

namespace HybridTM

namespace Binary64

open Float.Model Float.Model.UnpackedFloat

/-- A moderate float times one is a float with its value, rounded once more. -/
theorem HasValue.mul_one {f : UnpackedFloat} {v : ℚ} (F : HasValue f v) (h : IsModerate v) :
    HasValue (f.mul .binary64 (.finite .positive (2 ^ 52) (-52) (by decide))) (rounded v) := by
  cases F with
  | zero =>
    rw [rounded_zero]
    exact .zero
  | @finite m e pos size =>
    have hlow := (exponent_bounds pos size h).1
    have hsize : (m * 2 ^ 52).log2 = 52 + 52 := by
      rw [← Nat.shiftLeft_eq, log2_shiftLeft pos.ne', size]
    have hvalue : ((m * 2 ^ 52 : ℕ) : ℚ) * 2 ^ (e + -52) = m * 2 ^ e := by
      rw [zpow_add₀ two_ne_zero]
      push_cast
      rw [zpow_neg, mul_mul_mul_comm]
      norm_num
    rw [← hvalue]
    exact hasValue_roundWithAccuracy (.ofExact _) hsize (by omega)

theorem ValueIs.mul_one {f g : Float} {v : ℚ} (F : ValueIs f v) (h : IsModerate v)
    (one : g.toModel.unpack = .finite .positive (2 ^ 52) (-52) (by decide)) :
    ValueIs (f * g) (rounded v) := by
  have H := HasValue.mul_one F h
  rw [← one] at H
  show HasValue (Float.Model.pack _).unpack _
  rwa [H.unpack_pack h.rounded]

/-- A finite number is not infinite. -/
theorem ValueIs.isInf_eq_false {f : Float} {v : ℚ} (F : ValueIs f v) : f.isInf = false := by
  show f.toModel.unpack.isInf = false
  unfold ValueIs at F
  generalize f.toModel.unpack = x at F
  cases F <;> rfl

end Binary64

namespace Json

/-- Reading digits does not make a number smaller. -/
theorem le_foldl_digits (ds : List Digit) (n : Nat) :
    n ≤ ds.foldl (fun n d => n * 10 + d.val) n := by
  induction ds generalizing n with
  | nil => exact le_rfl
  | cons d ds ih =>
    have hstep := ih (n * 10 + d.val)
    rw [List.foldl_cons]
    omega

/-- Digits that fit into 64 bits altogether are all taken. -/
theorem takeDigits_of_lt {ds : List Digit} {n : Nat}
    (h : ds.foldl (fun n d => n * 10 + d.val) n < UInt64.size) :
    takeDigits n ds = (ds.foldl (fun n d => n * 10 + d.val) n, []) := by
  induction ds generalizing n with
  | nil => rfl
  | cons d ds ih =>
    rw [List.foldl_cons] at h ⊢
    have hnext := (le_foldl_digits ds (n * 10 + d.val)).trans_lt h
    rw [takeDigits, if_pos hnext]
    exact ih h

theorem takeDigits_numeral {n : Nat} (h : n < UInt64.size) :
    takeDigits 0 (Decimal.numeral n) = (n, []) := by
  have hvalue : (Decimal.numeral n).foldl (fun n d => n * 10 + d.val) 0 = n :=
    Decimal.value_numeral n
  rw [takeDigits_of_lt (by rwa [hvalue]), hvalue]

/-- The numeral of a counter is read as the float that the counter is rounded to, which is rounded
once more when it is scaled by one. -/
theorem exists_float?_ofNat {n : Nat} (h : n < UInt64.size) :
    ∃ x, (Number.ofNat n).float? = some x ∧
      Binary64.ValueIs x (Binary64.rounded (Binary64.rounded n)) := by
  have hn : (UInt64.ofNat n).toNat = n := UInt64.toNat_ofNat_of_lt' h
  have hcounter : Binary64.ValueIs (UInt64.ofNat n).toFloat (Binary64.rounded n) := by
    have H := Binary64.valueIs_toFloat (UInt64.ofNat n)
    rwa [hn] at H
  have hmoderate := (Binary64.isModerate_natCast (Nat.le_of_lt h)).rounded
  have hproduct : Binary64.ValueIs ((UInt64.ofNat n).toFloat * tenTo 0) _ :=
    hcounter.mul_one hmoderate rfl
  have hmagnitude :
      (Number.ofNat n).magnitude? = some ((UInt64.ofNat n).toFloat * tenTo 0) := by
    simp only [Number.magnitude?, Number.ofNat, takeDigits_numeral h, takeDigits]
    show (if ((UInt64.ofNat n).toFloat * tenTo 0).isInf then none else some _) = _
    rw [if_neg (by rw [hproduct.isInf_eq_false]; exact Bool.false_ne_true)]
    rfl
  refine ⟨_, ?_, hproduct⟩
  rw [Number.float?, hmagnitude]
  rfl

end Json

end HybridTM

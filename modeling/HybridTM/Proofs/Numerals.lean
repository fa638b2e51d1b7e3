import HybridTM.Json.Float
import HybridTM.Proofs.Layouts
import Mathlib.Data.List.DropRight

/-!
# Numerals that are written

The numeral of a natural number has no leading zero unless it is zero itself
(`exists_numeral_eq`), and the digits of a shortest decimal begin with another one than zero
(`isProper_shortest`). So the number that is written for a counter can be read as a token, and so
can the one that is written for a finite float, in positional notation or with an exponent
(`writable_ofNat`, `writable_ofFloat`). What such a float is read back as is another matter, which
the scanner has no part in.
-/

set_option autoImplicit false

namespace HybridTM

namespace Decimal

/-- A positive number has no leading zero. -/
theorem exists_numeral_eq {n : Nat} (h : n ≠ 0) : ∃ d ds, numeral n = d :: ds ∧ d ≠ .zero := by
  induction n using numeral.induct with
  | case1 n hlt =>
    refine ⟨Digit.ofNat n, [], ?_, ?_⟩
    · rw [numeral, if_pos hlt]
    · intro hzero
      have hval : n % 10 = 0 := congrArg Fin.val hzero
      omega
  | case2 n hge ih =>
    obtain ⟨d, ds, hnumeral, hd⟩ := ih (by omega)
    refine ⟨d, ds ++ [Digit.ofNat n], ?_, hd⟩
    rw [numeral, if_neg hge, hnumeral, List.cons_append]

/-- Dropping zeros at the end leaves the first digit of a positive number. -/
theorem exists_significant_eq {n : Nat} (h : n ≠ 0) :
    ∃ d ds, significant n = d :: ds ∧ d ≠ .zero := by
  obtain ⟨d, ds, hnumeral, hd⟩ := exists_numeral_eq h
  have hprefix : significant n <+: d :: ds := by
    rw [← hnumeral]
    exact List.rdropWhile_prefix (· = Digit.zero) (numeral n)
  have hne : significant n ≠ [] := by
    intro hnil
    have hall := List.rdropWhile_eq_nil_iff.1 hnil d (by rw [hnumeral]; exact List.mem_cons_self)
    exact hd (of_decide_eq_true hall)
  obtain ⟨x, xs, hx⟩ := List.exists_cons_of_ne_nil hne
  rw [hx, List.cons_prefix_cons] at hprefix
  exact ⟨x, xs, hx, hprefix.1 ▸ hd⟩

/-- The search for a decimal does not end with zero. -/
theorem Interval.search_ne_zero {v : Interval} {order e : Int} {grids digits n : Nat}
    (h : v.search order grids digits = some (n, e)) : n ≠ 0 := by
  induction grids generalizing digits with
  | zero => cases h
  | succ grids ih =>
    rw [Interval.search] at h
    split at h
    · split at h
      · exact ih h
      · next hne =>
        cases h
        exact hne
    · exact ih h

/-- A decimal that begins with a digit other than zero, or is zero. -/
def Scientific.IsProper (d : Scientific) : Prop :=
  ∃ first rest, d.digits = first :: rest ∧ (first = .zero → rest = [] ∧ d.exponent = 0)

theorem isProper_shortest (m : Nat) (q : Int) (narrow : Bool) :
    (shortest m q narrow).IsProper := by
  unfold shortest
  simp only
  split
  · next n e h =>
    obtain ⟨d, ds, hdigits, hd⟩ := exists_significant_eq (Interval.search_ne_zero h)
    exact ⟨d, ds, hdigits, fun hzero => absurd hzero hd⟩
  · exact ⟨.zero, [], rfl, fun _ => ⟨rfl, rfl⟩⟩

end Decimal

namespace Json

open Decimal

theorem Number.isProper_ofNat (n : Nat) : (Number.ofNat n).IsProper where
  whole := by
    by_cases h : n = 0
    · have hzero : numeral n = [.zero] := by
        rw [h, numeral, if_pos (by decide)]
        rfl
      exact ⟨.zero, [], hzero, fun _ => rfl⟩
    · obtain ⟨d, ds, hnumeral, hd⟩ := exists_numeral_eq h
      exact ⟨d, ds, hnumeral, fun hzero => absurd hzero hd⟩
  exponent e he := by cases he

/-- Both notations of a decimal are numbers. -/
theorem Number.isProper_ofScientific (negative : Bool) {d : Scientific} (h : d.IsProper) :
    (Number.ofScientific negative d).IsProper := by
  obtain ⟨first, rest, hdigits, hzero⟩ := h
  unfold Number.ofScientific
  simp only [hdigits]
  by_cases hpositional : -5 ≤ d.exponent ∧ d.exponent ≤ 15
  · rw [if_pos hpositional]
    by_cases hwhole : 0 ≤ d.exponent
    · rw [if_pos hwhole]
      refine ⟨⟨first, _, by rw [List.take_succ_cons, List.cons_append], ?_⟩, ?_⟩
      · -- A leading zero is the only digit.
        intro hfirst
        obtain ⟨rfl, hexponent⟩ := hzero hfirst
        simp [hexponent]
      · intro e he
        cases he
    · rw [if_neg hwhole]
      refine ⟨⟨.zero, [], rfl, fun _ => rfl⟩, ?_⟩
      intro e he
      cases he
  · rw [if_neg hpositional]
    refine ⟨⟨first, [], by rw [List.take_succ_cons, List.take_zero], fun _ => rfl⟩, ?_⟩
    intro e he
    obtain rfl := Option.some.inj he
    exact numeral_ne_nil _

theorem writable_ofNat (n : Nat) : Writable (ofNat n) :=
  writable_number (Number.isProper_ofNat n)

theorem writable_ofWord (n : UInt64) : Writable (ofWord n) := writable_ofNat n.toNat

theorem writable_ofCount (n : UInt32) : Writable (ofCount n) := writable_ofNat n.toNat

/-- What is written for a float is a number or `null`. -/
theorem writable_ofFloat (x : Float) : Writable (ofFloat x) := by
  unfold ofFloat ofDoubleBits
  simp only
  split_ifs with hspecial hzero hsubnormal
  · exact writable_null
  · exact writable_number ⟨⟨.zero, [], rfl, fun _ => rfl⟩, fun e he => by cases he⟩
  · exact writable_number (Number.isProper_ofScientific _ (isProper_shortest _ _ _))
  · exact writable_number (Number.isProper_ofScientific _ (isProper_shortest _ _ _))

end Json

end HybridTM

/-!
# Decimal digits

A numeral is a list of digits, most significant first. `numeral` writes a number without
leading zeros, and `value_numeral` says that reading it gives the number back.
-/

namespace HybridTM

/-- A decimal digit. -/
abbrev Digit := Fin 10

namespace Digit

/-- The digit zero. -/
def zero : Digit := ⟨0, by decide⟩

/-- The character of a digit. -/
def char (d : Digit) : Char := Char.ofNat (48 + d.val)

/-- The digit that a character stands for. -/
def ofChar? (c : Char) : Option Digit :=
  if h : 48 ≤ c.toNat ∧ c.toNat < 58 then some ⟨c.toNat - 48, by omega⟩ else none

theorem ofChar?_char (d : Digit) : ofChar? d.char = some d := by
  revert d
  decide

/-- The digit of a number modulo ten. -/
def ofNat (n : Nat) : Digit := ⟨n % 10, Nat.mod_lt _ (by decide)⟩

end Digit

namespace Decimal

/-- The number that a numeral stands for. -/
def value (ds : List Digit) : Nat := ds.foldl (fun n d => n * 10 + d.val) 0

/-- The numeral of a number, without leading zeros. -/
def numeral (n : Nat) : List Digit :=
  if n < 10 then [Digit.ofNat n] else numeral (n / 10) ++ [Digit.ofNat n]
termination_by n

/-- The text of a numeral. -/
def chars (ds : List Digit) : List Char := ds.map Digit.char

theorem value_append_singleton (ds : List Digit) (d : Digit) :
    value (ds ++ [d]) = value ds * 10 + d.val := by
  simp [value]

theorem value_numeral (n : Nat) : value (numeral n) = n := by
  induction n using numeral.induct with
  | case1 n h =>
      rw [numeral, if_pos h]
      simp [value, Digit.ofNat, Nat.mod_eq_of_lt h]
  | case2 n h ih =>
      rw [numeral, if_neg h, value_append_singleton, ih]
      simp only [Digit.ofNat]
      omega

theorem numeral_ne_nil (n : Nat) : numeral n ≠ [] := by
  rw [numeral]
  split <;> simp

end Decimal

end HybridTM

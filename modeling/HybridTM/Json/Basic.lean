import HybridTM.Decimal.Digits

/-!
# JSON values

A JSON value as it was written: members in order and with repetitions, numbers as their
digits. A string whose escapes leave a surrogate unpaired names no text; it is still a
string.
-/

namespace HybridTM

namespace Json

/-- The exponent part of a number. -/
structure Exponent where
  /-- Whether the exponent is below zero. -/
  negative : Bool
  /-- The digits of its absolute value. -/
  digits : List Digit
  deriving DecidableEq, Repr

/-- A number as it was written. -/
structure Number where
  /-- Whether a minus sign stands in front. -/
  negative : Bool
  /-- The digits before the point. -/
  whole : List Digit
  /-- The digits after the point; none if there is no point. -/
  fraction : List Digit
  /-- The exponent part, if there is one. -/
  exponent : Option Exponent
  deriving DecidableEq, Repr

/-- The content of a string, if it is text. -/
abbrev Text := Option String

end Json

/-- A JSON value. -/
inductive Json where
  /-- The literal `null`. -/
  | null
  /-- A truth value. -/
  | bool (b : Bool)
  /-- A number. -/
  | number (n : Json.Number)
  /-- A string. -/
  | string (text : Json.Text)
  /-- An array. -/
  | array (items : List Json)
  /-- An object. -/
  | object (members : List (Json.Text × Json))
  deriving Repr

instance : Inhabited Json := ⟨.null⟩

namespace Json

/-! ## Building values -/

/-- The number that is written as a numeral. -/
def Number.ofNat (n : Nat) : Number where
  negative := false
  whole := Decimal.numeral n
  fraction := []
  exponent := none

/-- The JSON number of a natural number. -/
def ofNat (n : Nat) : Json := .number (.ofNat n)

/-- The JSON number of an integer. -/
def ofInt (n : Int) : Json :=
  .number { Number.ofNat n.natAbs with negative := n < 0 }

/-- The JSON number of a 64-bit word. -/
def ofWord (n : UInt64) : Json := ofNat n.toNat

/-- The JSON number of a 32-bit word. -/
def ofCount (n : UInt32) : Json := ofNat n.toNat

/-- The JSON string of a text. -/
def ofText (s : String) : Json := .string (some s)

/-- The object with the given members. -/
def record (members : List (String × Json)) : Json :=
  .object (members.map fun (key, v) => (some key, v))

/-! ## Reading scalars -/

/-- The number that is written with digits only. -/
def Number.natural? (n : Number) : Option Nat :=
  if n.negative = false ∧ n.fraction = [] ∧ n.exponent = none then
    some (Decimal.value n.whole)
  else
    none

/-- The natural number below `bound` that a value is. -/
def natBelow? (bound : Nat) : Json → Option Nat
  | .number n => n.natural?.filter (· < bound)
  | _ => none

/-- The 64-bit word that a value is. -/
def word? (v : Json) : Option UInt64 := (v.natBelow? UInt64.size).map .ofNat

/-- The 32-bit word that a value is. -/
def count? (v : Json) : Option UInt32 := (v.natBelow? UInt32.size).map .ofNat

/-- The truth value that a value is. -/
def bool? : Json → Option Bool
  | .bool b => some b
  | _ => none

/-- The text that a value is. -/
def text? : Json → Option String
  | .string text => text
  | _ => none

/-- The items of an array. -/
def items? : Json → Option (List Json)
  | .array items => some items
  | _ => none

@[simp]
theorem Number.natural?_ofNat (n : Nat) : (Number.ofNat n).natural? = some n := by
  simp [natural?, ofNat, Decimal.value_numeral]

@[simp]
theorem natBelow?_ofNat (bound n : Nat) (h : n < bound) :
    (ofNat n).natBelow? bound = some n := by
  simp only [natBelow?, ofNat, Number.natural?_ofNat, Option.filter_some, decide_eq_true h,
    if_true]

theorem word?_ofWord (n : UInt64) : (ofWord n).word? = some n := by
  rw [word?, ofWord, natBelow?_ofNat _ _ n.toNat_lt_size, Option.map_some, UInt64.ofNat_toNat]

theorem count?_ofCount (n : UInt32) : (ofCount n).count? = some n := by
  rw [count?, ofCount, natBelow?_ofNat _ _ n.toNat_lt_size, Option.map_some, UInt32.ofNat_toNat]

end Json

end HybridTM

/-!
# Texts of values

The diagnostic text of a value with named fields is the name of its type and then its
fields in declared order, as in `Point { x: 1, y: 2 }`; a value that wraps others is
written as in `Some(3)`. Codes are written as lower-case hexadecimal numerals of a fixed
number of digits.
-/

namespace HybridTM

/-- The text of a value of type `name` with the given fields. -/
def recordText (name : String) (fields : List (String × String)) : String :=
  let body := ", ".intercalate (fields.map fun (field, text) => field ++ ": " ++ text)
  if fields.isEmpty then name else name ++ " \x7b " ++ body ++ " \x7d"

/-- The text of a value of type `name` that wraps the given values. -/
def wrapperText (name : String) (values : List String) : String :=
  name ++ "(" ++ ", ".intercalate values ++ ")"

/-- The text of a value that may be absent. -/
def optionText : Option String → String
  | none => "None"
  | some text => wrapperText "Some" [text]

/-- The text of a string without special characters. -/
def quotedText (text : String) : String := "\"" ++ text ++ "\""

/-- The text of a truth value. -/
def boolText (b : Bool) : String := if b then "true" else "false"

/-! ## Hexadecimal numerals -/

/-- The hexadecimal digit of a number below sixteen. -/
def hexDigit (n : Nat) : Char :=
  if n < 10 then Char.ofNat (48 + n) else Char.ofNat (87 + n)

/-- The last `width` hexadecimal digits of `n`, most significant first. -/
def hexDigits : Nat → Nat → List Char
  | 0, _ => []
  | width + 1, n => hexDigits width (n / 16) ++ [hexDigit (n % 16)]

/-- The numeral of `n` with `width` hexadecimal digits. -/
def hexText (width n : Nat) : String := String.ofList (hexDigits width n)

end HybridTM

import HybridTM.Json.Basic
import HybridTM.Text

/-!
# Writing JSON

Two layouts of the same tokens: compact, without blanks, and spread over lines, with two
spaces for each level of nesting, one item or member to a line and `[]` for an array
without items. In strings only quotes, backslashes and control characters are escaped; a
control character without an escape of its own is written by its code in four
lower-case hexadecimal digits.
-/

namespace HybridTM

namespace Json

/-! ## Scalars -/

/-- The characters of an exponent part. The sign is always written. -/
def Exponent.chars (e : Exponent) : List Char :=
  'e' :: (if e.negative then '-' else '+') :: Decimal.chars e.digits

/-- The characters of a number. -/
def Number.chars (n : Number) : List Char :=
  (if n.negative then ['-'] else []) ++ Decimal.chars n.whole ++
    (if n.fraction = [] then [] else '.' :: Decimal.chars n.fraction) ++
    (match n.exponent with
    | none => []
    | some e => e.chars)

/-- The characters that stand for one character within a string. -/
def escape (c : Char) : List Char :=
  match c with
  | '"' => ['\\', '"']
  | '\\' => ['\\', '\\']
  | '\x08' => ['\\', 'b']
  | '\x0c' => ['\\', 'f']
  | '\n' => ['\\', 'n']
  | '\r' => ['\\', 'r']
  | '\t' => ['\\', 't']
  | c => if c < ' ' then '\\' :: 'u' :: hexDigits 4 c.toNat else [c]

/-- The characters of a string. What is no text is written as the empty string. -/
def stringChars (text : Text) : List Char :=
  '"' :: ((text.getD "").toList.flatMap escape ++ ['"'])

/-- The characters of a truth value. -/
def boolChars (b : Bool) : List Char :=
  if b then ['t', 'r', 'u', 'e'] else ['f', 'a', 'l', 's', 'e']

/-! ## Layouts -/

/-- A line break and the indentation of the lines after it. -/
def newline (depth : Nat) : List Char := '\n' :: List.replicate (2 * depth) ' '

mutual

/-- The characters of a value without blanks. -/
def compactChars : Json → List Char
  | .null => ['n', 'u', 'l', 'l']
  | .bool b => boolChars b
  | .number n => n.chars
  | .string text => stringChars text
  | .array items => '[' :: (compactItems items ++ [']'])
  | .object members => '\x7b' :: (compactMembers members ++ ['\x7d'])

/-- The items of an array, separated by commas. -/
def compactItems : List Json → List Char
  | [] => []
  | [v] => compactChars v
  | v :: rest => compactChars v ++ ',' :: compactItems rest

/-- The members of an object, separated by commas. -/
def compactMembers : List (Text × Json) → List Char
  | [] => []
  | [(key, v)] => stringChars key ++ ':' :: compactChars v
  | (key, v) :: rest => stringChars key ++ ':' :: (compactChars v ++ ',' :: compactMembers rest)

end

mutual

/-- The characters of a value that begins in a line indented by `depth` levels. -/
def prettyChars (depth : Nat) : Json → List Char
  | .null => ['n', 'u', 'l', 'l']
  | .bool b => boolChars b
  | .number n => n.chars
  | .string text => stringChars text
  | .array [] => ['[', ']']
  | .array (v :: rest) =>
      '[' :: (prettyItems (depth + 1) (v :: rest) ++ newline depth ++ [']'])
  | .object [] => ['\x7b', '\x7d']
  | .object (m :: rest) =>
      '\x7b' :: (prettyMembers (depth + 1) (m :: rest) ++ newline depth ++ ['\x7d'])

/-- The items of an array, each on a line of its own. -/
def prettyItems (depth : Nat) : List Json → List Char
  | [] => []
  | [v] => newline depth ++ prettyChars depth v
  | v :: rest => newline depth ++ prettyChars depth v ++ ',' :: prettyItems depth rest

/-- The members of an object, each on a line of its own. -/
def prettyMembers (depth : Nat) : List (Text × Json) → List Char
  | [] => []
  | [(key, v)] =>
      newline depth ++ stringChars key ++ ':' :: ' ' :: prettyChars depth v
  | (key, v) :: rest =>
      newline depth ++ stringChars key ++ ':' :: ' ' :: (prettyChars depth v ++
        ',' :: prettyMembers depth rest)

end

/-- The text of a value without blanks. -/
def compact (v : Json) : String := String.ofList v.compactChars

/-- The text of a value over several lines. -/
def pretty (v : Json) : String := String.ofList (v.prettyChars 0)

end Json

end HybridTM

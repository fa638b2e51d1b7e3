import HybridTM.Json.Basic

/-!
# JSON tokens

Text is cut into tokens by a machine that reads one character at a time. Blanks are
space, tab, line feed and carriage return. A number is the longest text of the form
`-? (0 | [1-9][0-9]*) (. [0-9]+)? ([eE] [+-]? [0-9]+)?`. A string holds no control
characters; its escapes by code stand for 16-bit code units, of which two may join to
one character.
-/

namespace HybridTM

namespace Json

/-- A token of JSON text. -/
inductive Token where
  | beginObject
  | endObject
  | beginArray
  | endArray
  | comma
  | colon
  | null
  | bool (b : Bool)
  | number (n : Number)
  | string (text : Text)
  deriving DecidableEq, Repr

/-! ## Strings -/

/-- A piece of a string: a character, or a code unit written as an escape. -/
inductive Piece where
  | char (c : Char)
  | unit (n : Nat)
  deriving DecidableEq, Repr

/-- Whether a code unit is the first half of a pair. -/
def isHighSurrogate (n : Nat) : Bool := 0xD800 ≤ n && n < 0xDC00

/-- Whether a code unit is the second half of a pair. -/
def isLowSurrogate (n : Nat) : Bool := 0xDC00 ≤ n && n < 0xE000

/-- The character that a pair of code units stands for. -/
def joinSurrogates (high low : Nat) : Char :=
  Char.ofNat (0x10000 + (high - 0xD800) * 0x400 + (low - 0xDC00))

/-- The characters that pieces stand for. An unpaired half stands for none. -/
def joinPieces : List Piece → Option (List Char)
  | [] => some []
  | .char c :: rest => (joinPieces rest).map (c :: ·)
  | .unit high :: .unit low :: rest =>
      if isHighSurrogate high then
        if isLowSurrogate low then
          (joinPieces rest).map (joinSurrogates high low :: ·)
        else
          none
      else if isLowSurrogate high then
        none
      else
        (joinPieces (.unit low :: rest)).map (Char.ofNat high :: ·)
  | .unit n :: rest =>
      if isHighSurrogate n || isLowSurrogate n then none
      else (joinPieces rest).map (Char.ofNat n :: ·)

/-- The text that pieces stand for. -/
def textOf (pieces : List Piece) : Text := (joinPieces pieces).map String.ofList

/-- The value of a hexadecimal digit of either case. -/
def hexValue? (c : Char) : Option Nat :=
  if '0' ≤ c ∧ c ≤ '9' then some (c.toNat - 48)
  else if 'a' ≤ c ∧ c ≤ 'f' then some (c.toNat - 87)
  else if 'A' ≤ c ∧ c ≤ 'F' then some (c.toNat - 55)
  else none

/-- The character that a one-letter escape stands for. -/
def escaped? : Char → Option Char
  | '"' => some '"'
  | '\\' => some '\\'
  | '/' => some '/'
  | 'b' => some '\x08'
  | 'f' => some '\x0c'
  | 'n' => some '\n'
  | 'r' => some '\r'
  | 't' => some '\t'
  | _ => none

/-! ## Numbers -/

/-- The part of a number that was read last. -/
inductive NumberPart where
  | sign
  | zero
  | whole
  | point
  | fraction
  | exponentMark
  | exponentSign
  | exponent
  deriving DecidableEq, Repr

/-- Whether a number may end after a part. -/
def NumberPart.isComplete : NumberPart → Bool
  | .zero | .whole | .fraction | .exponent => true
  | .sign | .point | .exponentMark | .exponentSign => false

/-- The number with one more digit in the exponent. -/
def Number.pushExponent (n : Number) (d : Digit) : Number :=
  { n with
    exponent := n.exponent.map fun e => { e with digits := e.digits ++ [d] } }

/-- The number after one more of its characters; `none` if the character is not part of
it. -/
def Number.extend? (part : NumberPart) (n : Number) (c : Char) :
    Option (NumberPart × Number) :=
  match part, Digit.ofChar? c with
  | .sign, some d =>
      some (if d = Digit.zero then .zero else .whole, { n with whole := [d] })
  | .whole, some d => some (.whole, { n with whole := n.whole ++ [d] })
  | .point, some d | .fraction, some d =>
      some (.fraction, { n with fraction := n.fraction ++ [d] })
  | .exponentMark, some d | .exponentSign, some d | .exponent, some d =>
      some (.exponent, n.pushExponent d)
  | .zero, none | .whole, none =>
      if c = '.' then some (.point, n)
      else if c = 'e' ∨ c = 'E' then
        some (.exponentMark, { n with exponent := some ⟨false, []⟩ })
      else none
  | .fraction, none =>
      if c = 'e' ∨ c = 'E' then
        some (.exponentMark, { n with exponent := some ⟨false, []⟩ })
      else none
  | .exponentMark, none =>
      if c = '+' then some (.exponentSign, n)
      else if c = '-' then
        some (.exponentSign, { n with exponent := some ⟨true, []⟩ })
      else none
  | _, _ => none

/-! ## The machine -/

/-- The token that is being read. -/
inductive Reading where
  /-- No token has begun. -/
  | blank
  /-- A literal, with the letters still to come. -/
  | word (left : List Char) (token : Token)
  /-- A number. -/
  | number (part : NumberPart) (n : Number)
  /-- A string, with its pieces so far, latest first. -/
  | text (pieces : List Piece)
  /-- A string, after a backslash. -/
  | escape (pieces : List Piece)
  /-- A string, within an escape by code of which `left` digits are still to come. -/
  | code (pieces : List Piece) (value left : Nat)
  deriving Repr

/-- The tokens read so far, latest first, and the one being read. -/
structure Scan where
  /-- The complete tokens, latest first. -/
  tokens : List Token
  /-- The token being read. -/
  reading : Reading
  deriving Repr

namespace Scan

/-- The machine before any text. -/
def start : Scan := ⟨[], .blank⟩

/-- The machine after a complete token. -/
def emit (s : Scan) (t : Token) : Scan := ⟨t :: s.tokens, .blank⟩

/-- The machine after the first character of a token, or a blank. -/
def begin (s : Scan) (c : Char) : Option Scan :=
  match c with
  | ' ' | '\t' | '\n' | '\r' => some { s with reading := .blank }
  | '\x7b' => some (s.emit .beginObject)
  | '\x7d' => some (s.emit .endObject)
  | '[' => some (s.emit .beginArray)
  | ']' => some (s.emit .endArray)
  | ',' => some (s.emit .comma)
  | ':' => some (s.emit .colon)
  | '"' => some { s with reading := .text [] }
  | 'n' => some { s with reading := .word ['u', 'l', 'l'] .null }
  | 't' => some { s with reading := .word ['r', 'u', 'e'] (.bool true) }
  | 'f' => some { s with reading := .word ['a', 'l', 's', 'e'] (.bool false) }
  | '-' => some { s with reading := .number .sign ⟨true, [], [], none⟩ }
  | _ =>
      match Number.extend? .sign ⟨false, [], [], none⟩ c with
      | some (part, n) => some { s with reading := .number part n }
      | none => none

/-- The machine after one more character. -/
def step (s : Scan) (c : Char) : Option Scan :=
  match s.reading with
  | .blank => s.begin c
  | .word [] _ => none
  | .word [last] token => if c = last then some (s.emit token) else none
  | .word (next :: left) token =>
      if c = next then some { s with reading := .word left token } else none
  | .number part n =>
      match n.extend? part c with
      | some (part, n) => some { s with reading := .number part n }
      -- The character after a number is the first of what follows.
      | none => if part.isComplete then (s.emit (.number n)).begin c else none
  | .text pieces =>
      if c = '"' then some (s.emit (.string (textOf pieces.reverse)))
      else if c = '\\' then some { s with reading := .escape pieces }
      else if c < ' ' then none
      else some { s with reading := .text (.char c :: pieces) }
  | .escape pieces =>
      if c = 'u' then some { s with reading := .code pieces 0 4 }
      else (escaped? c).map fun e => { s with reading := .text (.char e :: pieces) }
  | .code pieces value left =>
      (hexValue? c).map fun d =>
        let value := value * 16 + d
        if left ≤ 1 then { s with reading := .text (.unit value :: pieces) }
        else { s with reading := .code pieces value (left - 1) }

/-- The tokens of the whole text, in order, if it may end here. -/
def finish (s : Scan) : Option (List Token) :=
  match s.reading with
  | .blank => some s.tokens.reverse
  | .number part n => if part.isComplete then some (.number n :: s.tokens).reverse else none
  | _ => none

/-- The machine after a text. -/
def run (s : Scan) (cs : List Char) : Option Scan := cs.foldlM step s

end Scan

/-- The tokens of a text. -/
def tokens? (cs : List Char) : Option (List Token) := do
  let s ← Scan.start.run cs
  s.finish

end Json

end HybridTM

import HybridTM.Decimal.Digits

/-!
# Shortest decimals of binary numbers

A binary floating-point number `m * 2 ^ q` is the nearest such number to all reals of an
interval around it. Its shortest decimal is the decimal in that interval with the fewest
digits and, of those, the nearest to the number. All arithmetic is on exact fractions.
-/

namespace HybridTM

namespace Decimal

/-- A positive decimal `d.ddd * 10 ^ exponent`. -/
structure Scientific where
  /-- The digits, the first of them before the point. -/
  digits : List Digit
  /-- The power of ten. -/
  exponent : Int
  deriving DecidableEq, Repr

/-- A positive binary number with the interval that rounds to it. Everything is in units
of a quarter of its last place, which is `num / den`. -/
structure Interval where
  /-- The numerator of a quarter of the last place. -/
  num : Nat
  /-- The denominator of a quarter of the last place. -/
  den : Nat
  /-- The lower end. -/
  lower : Nat
  /-- The number itself. -/
  mid : Nat
  /-- The upper end. -/
  upper : Nat
  /-- Whether the ends round to the number as well. -/
  closed : Bool

/-- The interval of `m * 2 ^ q`. Below a power of two the numbers lie twice as dense,
which `narrow` says of this number. The ends round to the even neighbour. -/
def Interval.of (m : Nat) (q : Int) (narrow : Bool) : Interval where
  num := Nat.pow 2 (q - 2).toNat
  den := Nat.pow 2 (2 - q).toNat
  lower := 4 * m - (if narrow then 1 else 2)
  mid := 4 * m
  upper := 4 * m + 2
  closed := m % 2 = 0

/-- The power of ten at or below the positive fraction `num / den`. -/
def orderOf (num den : Nat) : Int :=
  if den ≤ num then
    (numeral (num / den)).length - 1
  else
    let k := (numeral (den / num)).length
    if num * Nat.pow 10 (k - 1) = den then -(k - 1 : Nat) else -(k : Nat)

namespace Interval

/-- Whether the fraction `p / s`, in the units of the interval, lies in it. -/
def contains (v : Interval) (p s : Nat) : Bool :=
  if v.closed then v.lower * s ≤ p && p ≤ v.upper * s
  else v.lower * s < p && p < v.upper * s

/-- The multiple of `10 ^ e` next to the number that lies in the interval: the nearer one
if both neighbours do, and of two equally near ones the even one. -/
def onGrid? (v : Interval) (e : Int) : Option Nat :=
  -- One step of the grid is `step / scale` units of the interval.
  let step := v.den * Nat.pow 10 e.toNat
  let scale := v.num * Nat.pow 10 (-e).toNat
  let low := v.mid * scale / step
  let high := low + 1
  let below := v.mid * scale - low * step
  let above := high * step - v.mid * scale
  let takesLow := v.contains (low * step) scale
  let takesHigh := v.contains (high * step) scale
  if takesLow && takesHigh then
    if below < above then some low
    else if above < below then some high
    else if low % 2 = 0 then some low
    else some high
  else if takesLow then some low
  else if takesHigh then some high
  else none

/-- The first hit on the grids of `digits` digits, one more, and so on. -/
def search (v : Interval) (order : Int) : (grids digits : Nat) → Option (Nat × Int)
  | 0, _ => none
  | grids + 1, digits =>
      let e := order + 1 - digits
      match v.onGrid? e with
      | some n => if n = 0 then v.search order grids (digits + 1) else some (n, e)
      | none => v.search order grids (digits + 1)

end Interval

/-- The digits of a number without the zeros at its end. -/
def significant (n : Nat) : List Digit :=
  ((numeral n).reverse.dropWhile (· = Digit.zero)).reverse

/-- The shortest decimal of `m * 2 ^ q`, for `m` up to 53 bits: never more than seventeen
digits are needed. -/
def shortest (m : Nat) (q : Int) (narrow : Bool) : Scientific :=
  let v := Interval.of m q narrow
  let order := orderOf (v.mid * v.num) v.den
  match v.search order 17 1 with
  | some (n, e) => ⟨significant n, e + (numeral n).length - 1⟩
  | none => ⟨[.zero], 0⟩

end Decimal

end HybridTM

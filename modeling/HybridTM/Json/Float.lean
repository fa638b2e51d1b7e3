import HybridTM.Decimal.Shortest
import HybridTM.Json.Basic

/-!
# Numbers in floating point

Writing takes the fewest digits that read back to the same number, in positional notation
from `10 ^ -5` up to below `10 ^ 16` and with an exponent elsewhere; a number without
fraction keeps one zero after the point, and what is not finite is written as `null`.

Reading takes as many leading digits as fit in 64 bits for the significand and scales it
once by a power of ten, so that a long numeral may be off in its last place.
-/

namespace HybridTM

namespace Json

/-! ## Writing -/

/-- The written form of a positive decimal. -/
def Number.ofScientific (negative : Bool) (d : Decimal.Scientific) : Number :=
  let e := d.exponent
  if -5 ≤ e ∧ e ≤ 15 then
    if 0 ≤ e then
      let places := e.toNat + 1
      let fraction := d.digits.drop places
      { negative
        whole := d.digits.take places ++ List.replicate (places - d.digits.length) .zero
        fraction := if fraction = [] then [.zero] else fraction
        exponent := none }
    else
      { negative
        whole := [.zero]
        fraction := List.replicate ((-e).toNat - 1) .zero ++ d.digits
        exponent := none }
  else
    { negative
      whole := d.digits.take 1
      fraction := d.digits.drop 1
      exponent := some ⟨e < 0, Decimal.numeral e.natAbs⟩ }

/-- The number of fractions, and the weight of the leading bit that a double leaves out. -/
def hiddenBit : Nat := 0x10000000000000

/-- The JSON value of the double with the given bits: sign, eleven bits of exponent and
52 bits of fraction. -/
def ofDoubleBits (bits : Nat) : Json :=
  let negative : Bool := bits / 0x8000000000000000 % 2 = 1
  let exponent : Nat := bits / hiddenBit % 2048
  let fraction := bits % hiddenBit
  if exponent = 2047 then
    .null
  else if exponent = 0 ∧ fraction = 0 then
    .number ⟨negative, [.zero], [.zero], none⟩
  else if exponent = 0 then
    .number (.ofScientific negative (Decimal.shortest fraction (-1074) false))
  else
    let narrow : Bool := fraction = 0 ∧ 1 < exponent
    .number (.ofScientific negative
      (Decimal.shortest (hiddenBit + fraction) ((exponent : Int) - 1075) narrow))

/-- The JSON value of a float. -/
def ofFloat (x : Float) : Json := ofDoubleBits x.toBits.toNat

/-! ## Reading -/

/-- The significand after reading digits as long as it fits in 64 bits, and the digits
that were left. -/
def takeDigits (significand : Nat) : List Digit → Nat × List Digit
  | [] => (significand, [])
  | d :: rest =>
      let next := significand * 10 + d.val
      if next < UInt64.size then takeDigits next rest else (significand, d :: rest)

/-- The power of ten as a float. -/
def tenTo (n : Nat) : Float := Float.ofScientific 1 false n

/-- Divide by `10 ^ n`, in steps of at most `10 ^ 308`, until nothing is left to divide. -/
def scaleDown (x : Float) (n : Nat) : Float :=
  if n ≤ 308 then x / tenTo n
  else if x == 0 then x
  else scaleDown (x / tenTo 308) (n - 308)
termination_by n

/-- Scale a number by a power of ten. It must stay finite. -/
def scale (x : Float) (e : Int) : Option Float :=
  if e < 0 then
    some (scaleDown x e.natAbs)
  else if 308 < e then
    if x == 0 then some x else none
  else
    let y := x * tenTo e.toNat
    if y.isInf then none else some y

/-- The largest exponent that is taken at its value. -/
def exponentLimit : Nat := 0x7fffffff

/-- The magnitude of a number. An exponent beyond the limit leaves zero, unless the
number would be infinite. -/
def Number.magnitude? (n : Number) : Option Float :=
  let (significand, uncounted) := takeDigits 0 n.whole
  let (significand, unread) := takeDigits significand n.fraction
  let places : Int := uncounted.length - (n.fraction.length - unread.length : Nat)
  let x := (UInt64.ofNat significand).toFloat
  match n.exponent with
  | none => scale x places
  | some e =>
      let size := Decimal.value e.digits
      if exponentLimit < size then
        -- So large an exponent decides alone, whatever the places.
        if significand ≠ 0 ∧ e.negative = false then none else some 0
      else
        let total := if e.negative then places - size else places + size
        scale x (max (-0x80000000) (min total exponentLimit))

/-- The float that a number stands for, if it is finite. -/
def Number.float? (n : Number) : Option Float :=
  n.magnitude?.map fun x => if n.negative then -x else x

/-- The float that a value is. -/
def float? : Json → Option Float
  | .number n => n.float?
  | _ => none

end Json

end HybridTM

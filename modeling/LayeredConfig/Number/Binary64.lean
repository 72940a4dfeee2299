namespace LayeredConfig
namespace Number

/-!
Binary numbers with 53 significant bits.

A finite number is a significand times a power of two.  Its significand has 53
bits unless the exponent is the least one.  Reading a decimal rounds it to the
nearest such number, a tie to the even significand.
-/

inductive Binary64 where
  | finite (negative : Bool) (significand : Nat) (exponent : Int)
  | infinity (negative : Bool)
  | nan
  deriving DecidableEq, Repr

namespace Binary64

/-- The least exponent of two. -/
def leastExponent : Int := -1074

/-- The greatest exponent of two. -/
def greatestExponent : Int := 971

/-- Significands are below this. -/
def significandLimit : Nat := Nat.pow 2 53

/-- The quotient rounded to the nearest whole number, a tie to the even one. -/
def roundQuotient (numerator denominator : Nat) : Nat :=
  let quotient := numerator / denominator
  let doubled := 2 * (numerator % denominator)
  if doubled < denominator then quotient
  else if denominator < doubled then quotient + 1
  else if quotient % 2 = 0 then quotient
  else quotient + 1

/-- A fraction times a power of two, as numerator and denominator. -/
def scale (numerator denominator : Nat) (power : Int) : Nat × Nat :=
  if 0 ≤ power then (numerator * Nat.pow 2 power.toNat, denominator)
  else (numerator, denominator * Nat.pow 2 (-power).toNat)

/-- The significand and the exponent of the number nearest to a fraction; `none` when it is
too great. -/
def nearest? (numerator denominator : Nat) : Option (Nat × Int) :=
  if numerator = 0 then some (0, leastExponent)
  else
    let guess : Int := (numerator.log2 : Int) - (denominator.log2 : Int) - 52
    let (top, bottom) := scale numerator denominator (-guess)
    let fitted := if significandLimit / 2 ≤ top / bottom then guess else guess - 1
    let exponent := max fitted leastExponent
    let (top, bottom) := scale numerator denominator (-exponent)
    let rounded := roundQuotient top bottom
    let (significand, exponent) :=
      if rounded = significandLimit then (significandLimit / 2, exponent + 1)
      else (rounded, exponent)
    if greatestExponent < exponent then none else some (significand, exponent)

/-- The number nearest to `digits` times a power of ten; `none` when it is too great.
Powers far outside the range are settled by the number of digits. -/
def ofDecimal? (negative : Bool) (digits : Nat) (power : Int) : Option Binary64 :=
  let size : Int := (Nat.toDigits 10 digits).length + power
  if digits = 0 ∨ size < -400 then some (finite negative 0 leastExponent)
  else if 400 < size then none
  else
    let (top, bottom) :=
      if 0 ≤ power then (digits * Nat.pow 10 power.toNat, 1) else (digits, Nat.pow 10 (-power).toNat)
    (nearest? top bottom).map fun (significand, exponent) =>
      finite negative significand exponent

/-- Whether two numbers are the same number; the two zeros are, and so are two that are none. -/
def same : Binary64 → Binary64 → Bool
  | finite _ 0 _, finite _ 0 _ => true
  | left, right => left = right

end Binary64
end Number
end LayeredConfig

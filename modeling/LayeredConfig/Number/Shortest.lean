import LayeredConfig.Number.Binary64

namespace LayeredConfig
namespace Number

/-!
The fewest digits that read back as a binary number.

The reals that round to a number form an interval, which contains its ends when
the significand is even.  For one digit, two digits and so on the neighbours of
the number on that decimal grid are tried; the first grid with a neighbour in
the interval wins, and of two neighbours the nearer.
-/

namespace Shortest

/-- Whether `left / leftBottom ≤ right / rightBottom`. -/
def fractionLe (left right : Nat × Nat) : Bool :=
  left.1 * right.2 ≤ right.1 * left.2

/-- A whole number times a power of ten as a fraction. -/
def tens (digits : Nat) (power : Int) : Nat × Nat :=
  if 0 ≤ power then (digits * Nat.pow 10 power.toNat, 1) else (digits, Nat.pow 10 (-power).toNat)

/-- The greatest power of ten that is not above a fraction, from a guess that is at most one
off. -/
def powerBelow (value : Nat × Nat) (guess : Int) : Int :=
  if fractionLe (tens 1 (guess + 1)) value then guess + 1
  else if fractionLe (tens 1 guess) value then guess
  else guess - 1

/-- The interval of a number in quarters of the step between its neighbours: lower end, the
number and upper end. -/
def quarters (significand : Nat) (exponent : Int) : Nat × Nat × Nat :=
  let lower :=
    if significand = Binary64.significandLimit / 2 ∧ Binary64.leastExponent < exponent then 1
    else 2
  (4 * significand - lower, 4 * significand, 4 * significand + 2)

/-- The point of a decimal grid in the interval of a number, the nearer one of two. -/
def onGrid (significand : Nat) (exponent power : Int) : Option Nat :=
  let (lower, centre, upper) := quarters significand exponent
  let fraction (count : Nat) := Binary64.scale count 1 (exponent - 2)
  let (top, bottom) := fraction centre
  let (unitTop, unitBottom) := tens 1 power
  let below := top * unitBottom / (bottom * unitTop)
  let closed := significand % 2 = 0
  let inside (digits : Nat) : Bool :=
    let point := tens digits power
    if closed then fractionLe (fraction lower) point && fractionLe point (fraction upper)
    else !fractionLe point (fraction lower) && !fractionLe (fraction upper) point
  let belowFits := 0 < below && inside below
  let aboveFits := inside (below + 1)
  if belowFits && aboveFits then
    let doubled := 2 * (top * unitBottom - below * (bottom * unitTop))
    if doubled < bottom * unitTop then some below
    else if bottom * unitTop < doubled then some (below + 1)
    else if below % 2 = 0 then some below
    else some (below + 1)
  else if belowFits then some below
  else if aboveFits then some (below + 1)
  else none

/-- Try grids of ever more digits, the first with its unit at `power`. -/
def search (significand : Nat) (exponent power : Int) : (tries : Nat) → Nat × Int
  | 0 => (significand, power)
  | tries + 1 =>
      match onGrid significand exponent power with
      | some digits => (digits, power)
      | none => search significand exponent (power - 1) tries

/-- A whole number without the zeros at its end, and their count. -/
def dropZeros (digits : Nat) (power : Int) : (tries : Nat) → Nat × Int
  | 0 => (digits, power)
  | tries + 1 =>
      if digits ≠ 0 ∧ digits % 10 = 0 then dropZeros (digits / 10) (power + 1) tries
      else (digits, power)

end Shortest

/-- The fewest digits that read back as the number, and the power of ten of the last one.
Seventeen digits are always enough. -/
def shortest (significand : Nat) (exponent : Int) : Nat × Int :=
  let guess := Int.fdiv (((significand.log2 : Int) + exponent) * 30103) 100000
  let first := Shortest.powerBelow (Binary64.scale significand 1 exponent) guess
  let (digits, power) := Shortest.search significand exponent first 18
  Shortest.dropZeros digits power 18

/-- How a finite number is written. -/
structure Style where
  /-- Numbers with up to so many digits before the point have no exponent. -/
  mostWhole : Int
  /-- Numbers with fewer zeros than this after the point have no exponent. -/
  mostZeros : Int

namespace Style

def zeros (count : Int) : String :=
  String.ofList (List.replicate count.toNat '0')

/-- Write the digits with the last at `power`: with a point when that is short enough, else
with one digit before the point and an exponent. -/
def writeDigits (style : Style) (digits : Nat) (power : Int) : String :=
  let text := toString digits
  let whole : Int := (text.length : Int) + power
  if 0 ≤ power ∧ whole ≤ style.mostWhole then text ++ zeros power ++ ".0"
  else if 0 < whole ∧ whole ≤ style.mostWhole then
    String.ofList (text.toList.take whole.toNat) ++ "." ++
      String.ofList (text.toList.drop whole.toNat)
  else if -style.mostZeros < whole ∧ whole ≤ 0 then "0." ++ zeros (-whole) ++ text
  else if text.length = 1 then text ++ "e" ++ toString (whole - 1)
  else
    String.ofList (text.toList.take 1) ++ "." ++ String.ofList (text.toList.drop 1) ++ "e" ++
      toString (whole - 1)

def write (style : Style) (negative : Bool) (significand : Nat) (exponent : Int) : String :=
  (if negative then "-" else "") ++
    (if significand = 0 then "0.0"
    else
      let (digits, power) := shortest significand exponent
      style.writeDigits digits power)

end Style
end Number
end LayeredConfig

import LayeredConfig.Number.Shortest
import LayeredConfig.Text.Integer

namespace LayeredConfig
namespace Yaml

/-! The numbers that plain scalars spell, and how they are written. -/

inductive Numeral where
  | integer (value : Int)
  | float (value : Number.Binary64)
  deriving DecidableEq, Repr

namespace Numeral

/-- Whether digits start with a zero that says nothing: such a text is no number. -/
def hasLeadingZero (cs : List Char) : Bool :=
  let unsigned :=
    match cs with
    | '+' :: rest => rest
    | '-' :: rest => rest
    | rest => rest
  match unsigned with
  | '0' :: next :: rest => (next :: rest).all Char.isDigit
  | _ => false

/-- The base that a text states and the digits after it. -/
def base? : List Char → Option (Nat × List Char)
  | '0' :: 'x' :: rest => some (16, rest)
  | '0' :: 'o' :: rest => some (8, rest)
  | '0' :: 'b' :: rest => some (2, rest)
  | _ => none

/-- The whole number that unsigned text spells, at most `limit`. -/
def magnitude? (limit : Nat) (cs : List Char) : Option Nat :=
  let (radix, digits) := (base? cs).getD (10, cs)
  if digits.isEmpty then none
  else (Text.readMagnitude radix limit .tooLarge 0 digits).toOption

/-- The whole number that a text spells, from `-lower` to `upper`. -/
def integer? (lower upper : Nat) (cs : List Char) : Option Int :=
  if hasLeadingZero cs then none
  else
    match cs with
    | '+' :: rest => (magnitude? upper rest).map Int.ofNat
    | '-' :: rest => (magnitude? lower rest).map fun magnitude => -Int.ofNat magnitude
    | rest => (magnitude? upper rest).map Int.ofNat

/-- Read a decimal: digits with or without a point, then perhaps an exponent.  The result is
the digits as a whole number and the power of ten of the last one. -/
def decimal? (cs : List Char) : Option (Nat × Int) :=
  let whole := cs.takeWhile Char.isDigit
  let afterWhole := cs.dropWhile Char.isDigit
  let (fraction, afterFraction) :=
    match afterWhole with
    | '.' :: rest => (rest.takeWhile Char.isDigit, rest.dropWhile Char.isDigit)
    | rest => ([], rest)
  let digits := (whole ++ fraction).foldl (fun number c => number * 10 + (c.toNat - '0'.toNat)) 0
  let shift : Int := -(fraction.length : Int)
  if whole.isEmpty && fraction.isEmpty then none
  else
    match afterFraction with
    | [] => some (digits, shift)
    | e :: exponent =>
        if e ≠ 'e' ∧ e ≠ 'E' then none
        else
          let (negative, power) :=
            match exponent with
            | '+' :: rest => (false, rest)
            | '-' :: rest => (true, rest)
            | rest => (false, rest)
          if power.isEmpty || !power.all Char.isDigit then none
          else
            let size : Int := power.foldl (fun number c => number * 10 + (c.toNat - '0'.toNat)) 0
            some (digits, shift + (if negative then -size else size))

/-- The float that a text spells; a decimal that is too great spells none. -/
def float? (cs : List Char) : Option Number.Binary64 :=
  let text := String.ofList cs
  if text ∈ [".inf", ".Inf", ".INF", "+.inf", "+.Inf", "+.INF"] then some (.infinity false)
  else if text ∈ ["-.inf", "-.Inf", "-.INF"] then some (.infinity true)
  else if text ∈ [".nan", ".NaN", ".NAN"] then some .nan
  else
    let (negative, unsigned) :=
      match cs with
      | '+' :: rest => (false, rest)
      | '-' :: rest => (true, rest)
      | rest => (false, rest)
    (decimal? unsigned).bind fun (digits, power) => Number.Binary64.ofDecimal? negative digits power

/-- Up to sixteen digits before the point and four zeros after it stand without exponent. -/
def style : Number.Style where
  mostWhole := 16
  mostZeros := 5

def text : Numeral → String
  | integer value => toString value
  | float (.finite negative significand exponent) => style.write negative significand exponent
  | float (.infinity false) => ".inf"
  | float (.infinity true) => "-.inf"
  | float .nan => ".nan"

/-- Whole numbers and floats are told apart. -/
def same : Numeral → Numeral → Bool
  | integer left, integer right => left = right
  | float left, float right => left.same right
  | _, _ => false

end Numeral
end Yaml
end LayeredConfig

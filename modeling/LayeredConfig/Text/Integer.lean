namespace LayeredConfig
namespace Text

/-!
Reading whole numbers.

A whole number is an optional sign and at least one digit, and it must lie
between two bounds.  Digits are read from the left, so of a bad digit and a
number out of bounds the fault that shows first is reported.
-/

inductive IntegerFault where
  | empty
  | invalidDigit
  | tooLarge
  | tooSmall
  deriving DecidableEq, Repr

namespace IntegerFault

def message : IntegerFault → String
  | empty => "cannot parse integer from empty string"
  | invalidDigit => "invalid digit found in string"
  | tooLarge => "number too large to fit in target type"
  | tooSmall => "number too small to fit in target type"

end IntegerFault

/-- The value of a digit below `radix`; letters of either case follow the decimal digits. -/
def digitValue? (radix : Nat) (c : Char) : Option Nat :=
  let value :=
    if c.isDigit then c.toNat - '0'.toNat
    else if c.isLower then c.toNat - 'a'.toNat + 10
    else if c.isUpper then c.toNat - 'A'.toNat + 10
    else radix
  if value < radix then some value else none

/-- Extend `magnitude` by the digits; `overflow` is the fault of passing `limit`. -/
def readMagnitude (radix limit : Nat) (overflow : IntegerFault) (magnitude : Nat) :
    List Char → Except IntegerFault Nat
  | [] => .ok magnitude
  | c :: rest =>
      match digitValue? radix c with
      | none => .error .invalidDigit
      | some digit =>
          if limit < magnitude * radix + digit then .error overflow
          else readMagnitude radix limit overflow (magnitude * radix + digit) rest

/-- Read a whole number between `-lower` and `upper`; a minus sign needs `lower` above zero. -/
def readInteger (radix lower upper : Nat) : List Char → Except IntegerFault Int
  | [] => .error .empty
  | ['+'] => .error .invalidDigit
  | ['-'] => .error .invalidDigit
  | '+' :: digits => (readMagnitude radix upper .tooLarge 0 digits).map Int.ofNat
  | '-' :: digits =>
      if lower = 0 then .error .invalidDigit
      else (readMagnitude radix lower .tooSmall 0 digits).map (fun magnitude => -Int.ofNat magnitude)
  | digits => (readMagnitude radix upper .tooLarge 0 digits).map Int.ofNat

/-- A whole number that fits 32 bits with a sign. -/
def readInt32 (s : String) : Except IntegerFault Int :=
  readInteger 10 (Nat.pow 2 31) (Nat.pow 2 31 - 1) s.toList

end Text
end LayeredConfig

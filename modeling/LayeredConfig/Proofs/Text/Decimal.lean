import LayeredConfig.Proofs.Text.Marks
import LayeredConfig.Text.Integer
import Mathlib.Algebra.Ring.Int.Defs

namespace LayeredConfig
namespace Text

/-!
# Numbers written in decimal

A whole number that fits 32 bits is read back from its decimal digits, after a
minus sign if it is negative.
-/

/-! ## Digits -/

section Digits

variable {limit : Nat} {overflow : IntegerFault}

theorem digitValue?_of_isDigit {c : Char} (digit : c.isDigit = true) :
    digitValue? 10 c = some (c.toNat - '0'.toNat) := by
  have small : c.toNat - '0'.toNat < 10 := by
    have zero : '0'.toNat = 48 := rfl
    have nine : '9'.toNat = 57 := rfl
    have range := Char.isDigit_iff_toNat.mp digit
    omega
  rw [digitValue?, if_pos digit, if_pos small]

theorem le_ofDigitChars (digits : List Char) (magnitude : Nat) :
    magnitude ≤ Nat.ofDigitChars 10 digits magnitude := by
  rw [Nat.ofDigitChars_eq_ofDigitChars_zero]
  exact (Nat.le_mul_of_pos_left _ (Nat.pow_pos (by decide))).trans (Nat.le_add_right _ _)

/-- Digits whose value is within the limit are read to the end: the value only grows on the way. -/
theorem readMagnitude_of_digits {digits : List Char} (decimal : ∀ c ∈ digits, c.isDigit = true)
    {magnitude : Nat} (within : Nat.ofDigitChars 10 digits magnitude ≤ limit) :
    readMagnitude 10 limit overflow magnitude digits =
      .ok (Nat.ofDigitChars 10 digits magnitude) := by
  induction digits generalizing magnitude with
  | nil => rfl
  | cons c rest ih =>
      rw [List.forall_mem_cons] at decimal
      rw [Nat.ofDigitChars_cons, Nat.mul_comm] at within ⊢
      have soFar := (le_ofDigitChars rest _).trans within
      simp only [readMagnitude, digitValue?_of_isDigit decimal.1]
      rw [if_neg soFar.not_gt, ih decimal.2 within]

theorem readMagnitude_toString {number : Nat} (within : number ≤ limit) :
    readMagnitude 10 limit overflow 0 (toString number).toList = .ok number := by
  have value : Nat.ofDigitChars 10 (toString number).toList 0 = number := by
    have digits : (toString number).toList = Nat.toDigits 10 number := Nat.toList_repr
    rw [digits, Nat.ofDigitChars_ten_toDigits]
  rw [readMagnitude_of_digits (fun c member => isDigit_of_mem_toString member)
    (value.le.trans within), value]

end Digits

/-! ## Signs -/

section Signs

variable {lower upper : Nat}

theorem toList_toString_negSucc (less : Nat) :
    (toString (Int.negSucc less)).toList = '-' :: (toString (less + 1)).toList := by
  have minus : "-".toList = ['-'] := by decide
  change ("-" ++ toString (less + 1)).toList = _
  rw [String.toList_append, minus, List.singleton_append]

theorem toString_nat_ne_nil (number : Nat) : (toString number).toList ≠ [] := by
  have digits : (toString number).toList = Nat.toDigits 10 number := Nat.toList_repr
  exact digits ▸ Nat.toDigits_ne_nil

theorem readInteger_of_unsigned {digits : List Char} (visible : digits ≠ [])
    (plus : '+' ∉ digits) (minus : '-' ∉ digits) :
    readInteger 10 lower upper digits =
      (readMagnitude 10 upper .tooLarge 0 digits).map Int.ofNat := by
  unfold readInteger
  split
  · exact absurd rfl visible
  · exact absurd List.mem_cons_self plus
  · exact absurd List.mem_cons_self minus
  · exact absurd List.mem_cons_self plus
  · exact absurd List.mem_cons_self minus
  · rfl

theorem readInteger_of_minus {digits : List Char} (visible : digits ≠ []) (signed : lower ≠ 0) :
    readInteger 10 lower upper ('-' :: digits) =
      (readMagnitude 10 lower .tooSmall 0 digits).map fun magnitude => -Int.ofNat magnitude := by
  cases digits with
  | nil => exact absurd rfl visible
  | cons c rest =>
      rw [readInteger, if_neg signed]
      exact fun single => List.cons_ne_nil _ _ single

end Signs

/-- A number that fits 32 bits is read back from what is written for it. -/
theorem readInt32_toString {number : Int} (above : -2 ^ 31 ≤ number) (below : number < 2 ^ 31) :
    readInt32 (toString number) = .ok number := by
  have bound : Nat.pow 2 31 = 2147483648 := by decide
  rw [readInt32, bound]
  cases number with
  | ofNat magnitude =>
      have within : magnitude ≤ 2147483648 - 1 := by
        simp only [Int.ofNat_eq_natCast] at below
        omega
      change readInteger 10 _ _ (toString magnitude).toList = _
      rw [readInteger_of_unsigned (toString_nat_ne_nil _) (not_mem_digits (by decide) _)
        (not_mem_digits (by decide) _), readMagnitude_toString within]
      rfl
  | negSucc less =>
      have within : less + 1 ≤ 2147483648 := by omega
      rw [toList_toString_negSucc, readInteger_of_minus (toString_nat_ne_nil _) (by decide),
        readMagnitude_toString within]
      rfl

end Text
end LayeredConfig

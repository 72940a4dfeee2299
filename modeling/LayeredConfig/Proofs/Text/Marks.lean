import Mathlib.Data.List.TakeWhile

namespace LayeredConfig
namespace Text

/-!
# Texts taken apart

A text that was put together from two parts can be taken apart again at the last
mark when the second part does not hold the mark, and at the first one when the
first part does not.  Numbers are written in digits, which tell them apart.
-/

/-- What stands before and after the last mark is determined. -/
theorem append_cons_inj_of_not_mem {mark : Char} {left right first second : List Char}
    (same : left ++ mark :: first = right ++ mark :: second) (inFirst : mark ∉ first)
    (inSecond : mark ∉ second) : left = right ∧ first = second := by
  rcases List.append_eq_append_iff.mp same with ⟨between, rightEq, rest⟩ | ⟨between, leftEq, rest⟩
  · cases between with
    | nil => exact ⟨by simpa using rightEq.symm, (List.cons.inj rest).2⟩
    | cons head tail =>
        rw [(List.cons.inj rest).2] at inFirst
        exact absurd (List.mem_append_right tail List.mem_cons_self) inFirst
  · cases between with
    | nil => exact ⟨by simpa using leftEq, ((List.cons.inj rest).2).symm⟩
    | cons head tail =>
        rw [(List.cons.inj rest).2] at inSecond
        exact absurd (List.mem_append_right tail List.mem_cons_self) inSecond

/-- A text that is empty or begins with a mark. -/
def BeginsWithMark (mark : Char → Bool) (cs : List Char) : Prop :=
  ∀ c, cs.head? = some c → mark c = true

theorem takeWhile_append_marked {mark : Char → Bool} {left first : List Char}
    (plain : ∀ c ∈ left, mark c = false) (marked : BeginsWithMark mark first) :
    (left ++ first).takeWhile (fun c => !mark c) = left := by
  rw [List.takeWhile_append_of_pos fun c member => by rw [plain c member]; rfl]
  cases first with
  | nil => exact List.append_nil left
  | cons c rest =>
      rw [List.takeWhile_cons_of_neg (by simp [marked c rfl]), List.append_nil]

/-- What stands before the first mark is determined, and so is the rest. -/
theorem append_inj_of_marked {mark : Char → Bool} {left right first second : List Char}
    (same : left ++ first = right ++ second) (plainLeft : ∀ c ∈ left, mark c = false)
    (plainRight : ∀ c ∈ right, mark c = false) (markedFirst : BeginsWithMark mark first)
    (markedSecond : BeginsWithMark mark second) : left = right ∧ first = second := by
  have parts := congrArg (List.takeWhile fun c => !mark c) same
  rw [takeWhile_append_marked plainLeft markedFirst,
    takeWhile_append_marked plainRight markedSecond] at parts
  subst parts
  exact ⟨rfl, List.append_cancel_left same⟩

/-! ## Digits -/

theorem isDigit_of_mem_toString {number : Nat} {c : Char}
    (member : c ∈ (toString number).toList) : c.isDigit = true := by
  have digits : (toString number).toList = Nat.toDigits 10 number := Nat.toList_repr
  exact Nat.isDigit_of_mem_toDigits (by decide) (by decide) (digits ▸ member)

theorem not_mem_digits {mark : Char} (plain : mark.isDigit = false) (number : Nat) :
    mark ∉ (toString number).toList := fun member =>
  Bool.false_ne_true (plain.symm.trans (isDigit_of_mem_toString member))

theorem toString_nat_inj {left right : Nat}
    (same : (toString left).toList = (toString right).toList) : left = right := by
  have digits : Nat.toDigits 10 left = Nat.toDigits 10 right := by
    simpa [toString, Nat.repr] using same
  rw [← Nat.ofDigitChars_ten_toDigits (n := left), digits, Nat.ofDigitChars_ten_toDigits]

end Text
end LayeredConfig

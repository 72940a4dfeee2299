import LayeredConfig.Assembly.Library
import LayeredConfig.Proofs.Text.Marks

namespace LayeredConfig
namespace Assembly
namespace Library

open Property

/-!
# Source names tell sources apart

The name of a source that a probe reads spells the location and, for one of
several documents, its number.  Both can be read off the name, so that two
sources of one name come from one location and stand at one place in it.
-/

theorem toList_sourceName (location : String) :
    (sourceName location).toList = sourceOpening.toList ++ location.toList ++ [']'] := by
  have closing : "]".toList = [']'] := by decide
  rw [sourceName, String.toList_append, String.toList_append, closing]

theorem sourceName_inj {left right : String} (same : sourceName left = sourceName right) :
    left = right := by
  have lists := congrArg String.toList same
  rw [toList_sourceName, toList_sourceName, List.append_cancel_right_eq,
    List.append_cancel_left_eq] at lists
  exact String.toList_inj.mp lists

/-! ## One of several documents -/

/-- The name of one of several documents. -/
def numberedName (location : String) (index : Nat) : String :=
  sourceName location ++ " (document #" ++ toString index ++ ")"

theorem toList_numberedName (location : String) (index : Nat) :
    (numberedName location index).toList =
      (sourceName location).toList ++ " (document ".toList ++
        '#' :: ((toString index).toList ++ [')']) := by
  simp only [numberedName, String.toList_append]
  have opening : " (document #".toList = " (document ".toList ++ ['#'] := by decide
  have closing : ")".toList = [')'] := by decide
  rw [opening, closing]
  simp only [List.append_assoc, List.cons_append, List.nil_append]

theorem numberedName_inj {left right : String} {first second : Nat}
    (same : numberedName left first = numberedName right second) :
    left = right ∧ first = second := by
  have lists := congrArg String.toList same
  rw [toList_numberedName, toList_numberedName] at lists
  have fresh : ∀ index : Nat, '#' ∉ (toString index).toList ++ [')'] := by
    intro index member
    rcases List.mem_append.mp member with digit | closing
    · exact Text.not_mem_digits (by decide) index digit
    · cases List.mem_singleton.mp closing
  rcases Text.append_cons_inj_of_not_mem lists (fresh first) (fresh second) with ⟨names, digits⟩
  have locations := String.toList_inj.mp (List.append_cancel_right names)
  exact ⟨sourceName_inj locations, Text.toString_nat_inj (List.append_cancel_right digits)⟩

theorem sourceName_ne_numberedName (left right : String) (index : Nat) :
    sourceName left ≠ numberedName right index := by
  intro same
  have lasts := congrArg (fun name => name.toList.getLast?) same
  simp only [toList_sourceName, toList_numberedName, List.getLast?_append, List.getLast?_cons]
    at lasts
  simp at lasts

/-- A source that a loader names stands alone or is one of several documents. -/
theorem formatName_eq (format : Format) (location : String) (count index : Nat) :
    format.sourceName (sourceName location) count index =
      if format = .yaml ∧ count ≠ 1 then numberedName location index else sourceName location :=
  rfl

/-- The location can be read off the name, whatever the formats. -/
theorem location_eq_of_formatName {first second : Format} {left right : String}
    {leftCount rightCount leftIndex rightIndex : Nat}
    (same : first.sourceName (sourceName left) leftCount leftIndex =
      second.sourceName (sourceName right) rightCount rightIndex) : left = right := by
  rw [formatName_eq, formatName_eq] at same
  split at same
  · split at same
    · exact (numberedName_inj same).1
    · exact absurd same.symm (sourceName_ne_numberedName _ _ _)
  · split at same
    · exact absurd same (sourceName_ne_numberedName _ _ _)
    · exact sourceName_inj same

/-- No name that a loader gives is that of the default properties. -/
theorem formatName_ne_defaultProperties (format : Format) (location : String)
    (count index : Nat) :
    format.sourceName (sourceName location) count index ≠ Keys.defaultProperties := by
  have opening : sourceOpening.toList.head? = some 'a' := by decide
  have first : (format.sourceName (sourceName location) count index).toList.head? = some 'a' := by
    rw [formatName_eq]
    split
    · rw [toList_numberedName, toList_sourceName]
      simp only [List.head?_append, opening, Option.some_or]
    · rw [toList_sourceName]
      simp only [List.head?_append, opening, Option.some_or]
  intro same
  rw [same] at first
  revert first
  decide

end Library
end Assembly
end LayeredConfig

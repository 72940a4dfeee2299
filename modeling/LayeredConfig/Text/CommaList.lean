import LayeredConfig.Text.Blank

namespace LayeredConfig
namespace Text

/-!
Lists written in one text with commas between the items.  Items are trimmed
and blank items are dropped.
-/

/-- The pieces of a text between the separators; there is always at least one. -/
def splitAt (separator : Char) : List Char → List (List Char)
  | [] => [[]]
  | c :: rest =>
      if c = separator then [] :: splitAt separator rest
      else
        match splitAt separator rest with
        | [] => [[c]]
        | piece :: more => (c :: piece) :: more

theorem splitAt_ne_nil (separator : Char) (cs : List Char) : splitAt separator cs ≠ [] := by
  cases cs with
  | nil => simp [splitAt]
  | cons c rest =>
      unfold splitAt
      split
      · simp
      · split <;> simp

/-- The pieces joined by the separator are the text. -/
theorem intercalate_splitAt (separator : Char) (cs : List Char) :
    [separator].intercalate (splitAt separator cs) = cs := by
  induction cs with
  | nil => rfl
  | cons c rest ih =>
      unfold splitAt
      cases pieces : splitAt separator rest with
      | nil => exact absurd pieces (splitAt_ne_nil separator rest)
      | cons piece more =>
          rw [pieces] at ih
          split
          · next same =>
              subst c
              simpa [List.intercalate, List.intersperse] using ih
          · cases more <;> simpa [List.intercalate, List.intersperse] using ih

/-- The items of a comma-separated text, trimmed, without the blank ones. -/
def items (cs : List Char) : List (List Char) :=
  ((splitAt ',' cs).map trimBoth).filter (fun item => !item.isEmpty)

/-- The items of a comma-separated string. -/
def commaList (s : String) : List String :=
  (items s.toList).map String.ofList

end Text
end LayeredConfig

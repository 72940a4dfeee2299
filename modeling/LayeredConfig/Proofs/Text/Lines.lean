import LayeredConfig.Text.Lines
import Mathlib.Data.List.Basic

namespace LayeredConfig
namespace Text

/-!
# Lines put one after the other

A text that is written line by line is read line by line, where no line holds a
line feed and none ends in a carriage return, which would be taken for a part of
the line end.
-/

/-- What a line needs so that it is read as it stands when a line feed follows it. -/
structure IsLine (line : List Char) : Prop where
  unbroken : '\n' ∉ line
  uncut : line.getLast? ≠ some '\r'

/-- A line without the carriage return at its end, which a line feed after it takes along. -/
def chomp (line : List Char) : List Char :=
  if line.getLast? = some '\r' then line.dropLast else line

theorem chomp_cons {c : Char} {rest : List Char} (more : rest ≠ []) :
    chomp (c :: rest) = c :: chomp rest := by
  cases rest with
  | nil => exact absurd rfl more
  | cons d others =>
      rw [chomp, chomp, List.getLast?_cons_cons, List.dropLast_cons_of_ne_nil more]
      split <;> rfl

/-- What stands before a line feed is a line, whatever it ends in. -/
theorem lines_append_unbroken {line : List Char} (unbroken : '\n' ∉ line) (rest : List Char) :
    lines (line ++ '\n' :: rest) = chomp line :: lines rest := by
  induction line with
  | nil => rw [List.nil_append, lines]; rfl
  | cons c tail ih =>
      rw [List.mem_cons, not_or] at unbroken
      by_cases last : c = '\r' ∧ tail = []
      · rcases last with ⟨rfl, rfl⟩
        rw [List.cons_append, List.nil_append, lines]
        rfl
      · have following : c = '\r' → ∀ after, tail ++ '\n' :: rest ≠ '\n' :: after := by
          intro carriage after same
          cases tail with
          | nil => exact last ⟨carriage, rfl⟩
          | cons d others =>
              rw [List.cons_append, List.cons.injEq] at same
              exact unbroken.2 (same.1 ▸ List.mem_cons_self)
        have whole : chomp (c :: tail) = c :: chomp tail := by
          by_cases single : tail = []
          · subst single
            have plain : c ≠ '\r' := fun carriage => last ⟨carriage, rfl⟩
            simp [chomp, plain]
          · exact chomp_cons single
        rw [List.cons_append, lines, ih unbroken.2, whole]
        · exact Ne.symm unbroken.1
        · exact fun after carriage => following carriage after

theorem lines_append_newline {line : List Char} (whole : IsLine line) (rest : List Char) :
    lines (line ++ '\n' :: rest) = line :: lines rest := by
  rw [lines_append_unbroken whole.unbroken, chomp, if_neg whole.uncut]

/-- A text without line ends is one line. -/
theorem lines_of_isLine {line : List Char} (whole : IsLine line) (visible : line ≠ []) :
    lines line = [line] := by
  induction line with
  | nil => exact absurd rfl visible
  | cons c tail ih =>
      have newline : c ≠ '\n' := fun same => whole.unbroken (same ▸ List.mem_cons_self)
      have following : ∀ after, tail ≠ '\n' :: after := by
        rintro after rfl
        exact whole.unbroken (List.mem_cons_of_mem c List.mem_cons_self)
      rw [lines]
      · cases tail with
        | nil => rfl
        | cons d others =>
            have shorter : IsLine (d :: others) :=
              ⟨fun member => whole.unbroken (List.mem_cons_of_mem c member), fun last => by
                refine whole.uncut ?_
                rw [List.getLast?_cons, last]
                rfl⟩
            rw [ih shorter (List.cons_ne_nil d others)]
      · exact newline
      · exact fun after _ => following after

/-- The lines that a text was written from are its lines. -/
theorem lines_flatMap {written : List (List Char)} (whole : ∀ line ∈ written, IsLine line) :
    lines (written.flatMap fun line => line ++ ['\n']) = written := by
  induction written with
  | nil => rfl
  | cons line rest ih =>
      rw [List.forall_mem_cons] at whole
      rw [List.flatMap_cons, List.append_assoc, List.singleton_append,
        lines_append_newline whole.1, ih whole.2]

/-! ## Texts that end with a line -/

/-- Behind a line feed the lines are those of the text that stands there. -/
theorem lines_append {first : List Char} (ended : first = [] ∨ first.getLast? = some '\n')
    (rest : List Char) : lines (first ++ rest) = lines first ++ lines rest := by
  rcases ended with rfl | last
  · rw [lines, List.nil_append, List.nil_append]
  · rcases List.eq_append_cons_of_mem (List.mem_of_getLast? last) with
      ⟨line, more, split, unbroken⟩
    have shorter : more = [] ∨ more.getLast? = some '\n' := by
      cases more with
      | nil => exact .inl rfl
      | cons c others =>
          rw [split, List.getLast?_append_of_ne_nil _ (List.cons_ne_nil _ _),
            List.getLast?_cons_cons] at last
          exact .inr last
    have others := lines_append shorter rest
    rw [split, List.append_assoc, List.cons_append, lines_append_unbroken unbroken,
      lines_append_unbroken unbroken, others, List.cons_append]
termination_by first.length
decreasing_by
  rw [split, List.length_append, List.length_cons]
  omega

end Text
end LayeredConfig

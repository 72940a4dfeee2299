import LayeredConfig.Proofs.Property.EscapedValues
import LayeredConfig.Proofs.Text.CommaList

namespace LayeredConfig
namespace Property
namespace LineFormat

open Text

/-!
# Texts one after the other

What a text holds is read as if nothing came before it, provided that the text
before it ends with a line and that this line does not go on.  The lines are then
those of the two texts, and no line is joined across the boundary.

A comment before a text therefore leaves it as it is, unless it goes on.  Lines
are joined before comments are looked for, so a comment that goes on takes the
first whole line of what follows along, and nothing more.
-/

/-- A text that is empty or ends with a line, and with one that does not go on. -/
structure Complete (text : List Char) : Prop where
  ended : text = [] ∨ text.getLast? = some '\n'
  closed : ∀ line ∈ (lines text).getLast?, continues line = false

/-- The lines of a text, joined where they go on. -/
def wholeLines (text : List Char) : List (List Char) :=
  joinLines none (lines text)

/-! ## Whether a line goes on -/

theorem continues_cons {c : Char} (plain : c ≠ '\\') (cs : List Char) :
    continues (c :: cs) = continues cs := by
  induction cs using List.reverseRecOn with
  | nil => exact (continues_concat [] c).trans (if_neg plain)
  | append_singleton init d ih =>
      rw [← List.cons_append, continues_concat, continues_concat, ih]

/-- Blanks at the start of a line do not count. -/
theorem continues_trimLeft (line : List Char) : continues (trimLeft line) = continues line := by
  induction line with
  | nil => rfl
  | cons c rest ih =>
      rw [trimLeft, List.dropWhile_cons]
      cases blank : isBlank c with
      | true =>
          have plain : c ≠ '\\' := by
            rintro rfl
            cases blank
          rw [if_pos rfl, continues_cons plain]
          exact ih
      | false => rw [if_neg Bool.false_ne_true]

theorem continues_piece (started : Option (List Char)) (line : List Char) :
    continues (if started.isSome then trimLeft line else line) = continues line := by
  split
  · exact continues_trimLeft line
  · rfl

/-! ## Joining lines -/

/-- Lines are not joined across a line that does not go on. -/
theorem joinLines_append {first : List (List Char)}
    (closed : ∀ line ∈ first.getLast?, continues line = false) {started : Option (List Char)}
    (begun : first = [] → started = none) (rest : List (List Char)) :
    joinLines started (first ++ rest) = joinLines started first ++ joinLines none rest := by
  induction first generalizing started with
  | nil => rw [begun rfl]; rfl
  | cons line more ih =>
      have later : ∀ last ∈ more.getLast?, continues last = false := by
        intro last member
        apply closed
        rw [List.getLast?_cons, Option.mem_def.mp member]
        rfl
      rw [List.cons_append, joinLines, joinLines]
      cases goes : continues line with
      | true =>
          have visible : more ≠ [] := by
            rintro rfl
            exact Bool.false_ne_true ((closed line rfl).symm.trans goes)
          simp only [continues_piece, goes, if_true]
          exact ih later fun nothing => absurd nothing visible
      | false =>
          simp only [continues_piece, goes, Bool.false_eq_true, if_false, List.cons_append]
          rw [ih later fun _ => rfl]

/-- What is joined to a line already begun is the first whole line and nothing more. -/
theorem exists_joinLines_some (begun : List Char) (rest : List (List Char)) :
    ∃ more, joinLines (some begun) rest = (begun ++ more) :: (joinLines none rest).tail := by
  induction rest generalizing begun with
  | nil => exact ⟨[], by rw [List.append_nil]; rfl⟩
  | cons line others ih =>
      rw [joinLines, joinLines]
      cases goes : continues line with
      | true =>
          simp only [continues_piece, goes, if_true]
          rcases ih (begun ++ (trimLeft line).dropLast) with ⟨more, joined⟩
          rcases ih line.dropLast with ⟨_, apart⟩
          refine ⟨(trimLeft line).dropLast ++ more, ?_⟩
          simp only [Option.isSome_some, Option.isSome_none, if_true, Option.getD_some,
            Option.getD_none, List.nil_append, Bool.false_eq_true, if_false]
          rw [joined, apart, List.tail_cons, List.append_assoc]
      | false =>
          simp only [continues_piece, goes, Bool.false_eq_true, if_false]
          exact ⟨trimLeft line, rfl⟩

theorem readPairs_append {first : List Char} (complete : Complete first) (rest : List Char) :
    readPairs (first ++ rest) = readPairs first ++ readPairs rest := by
  rw [readPairs, lines_append complete.ended, joinLines_append complete.closed fun _ => rfl,
    List.filterMap_append, readPairs, readPairs]

/-- Properties of the second text take the place of those of the first. -/
theorem parse_append {first : String} (complete : Complete first.toList) (second : String) :
    parse (first ++ second) = (parse first).insertAll (parse second).entries := by
  rw [parse, String.toList_append, readPairs_append complete, parse, parse,
    KeyedList.insertAll_ofList, KeyedList.ofList, KeyedList.insertAll_append, KeyedList.ofList]

/-! ## Comments -/

/-- The first character that is not blank is the mark of a comment. -/
def Marked (line : List Char) : Prop :=
  (trimLeft line).head? = some '#' ∨ (trimLeft line).head? = some '!'

/-- A single line that is a comment. -/
structure IsComment (line : List Char) : Prop where
  unbroken : '\n' ∉ line
  marked : Marked line

theorem readLine_marked {line : List Char} (marked : Marked line) : readLine line = none := by
  rcases marked with hash | bang
  · rcases List.head?_eq_some_iff.mp hash with ⟨rest, trimmed⟩
    simp [readLine, trimmed]
  · rcases List.head?_eq_some_iff.mp bang with ⟨rest, trimmed⟩
    simp [readLine, trimmed]

theorem trimLeft_append_of_visible {line : List Char} (visible : trimLeft line ≠ [])
    (more : List Char) : trimLeft (line ++ more) = trimLeft line ++ more := by
  rw [trimLeft, List.dropWhile_append, ← trimLeft, if_neg (by simpa using visible)]

theorem Marked.visible {line : List Char} (marked : Marked line) : trimLeft line ≠ [] := by
  intro nothing
  rw [Marked, nothing] at marked
  rcases marked with hash | bang
  · cases hash
  · cases bang

theorem Marked.append {line : List Char} (marked : Marked line) (more : List Char) :
    Marked (line ++ more) := by
  rw [Marked, trimLeft_append_of_visible marked.visible,
    List.head?_append_of_ne_nil _ marked.visible]
  exact marked

/-- A comment stays one without its last character, unless that is the mark. -/
theorem Marked.dropLast {line : List Char} (marked : Marked line) {last : Char}
    (ends : line.getLast? = some last) (plain : last ≠ '#' ∧ last ≠ '!') :
    Marked line.dropLast := by
  rcases List.getLast?_eq_some_iff.mp ends with ⟨init, rfl⟩
  rw [List.dropLast_concat]
  by_cases visible : trimLeft init = []
  · have rest : trimLeft (init ++ [last]) = trimLeft [last] :=
      trimLeft_append (List.dropWhile_eq_nil_iff.mp visible) [last]
    have whole : trimLeft [last] = [last] := by
      have seen := rest ▸ marked.visible
      rw [trimLeft, List.dropWhile_cons] at seen ⊢
      split at seen
      · exact absurd rfl seen
      · next plain => rw [if_neg plain]
    rw [Marked, rest, whole, List.head?_singleton, Option.some_inj, Option.some_inj] at marked
    exact absurd marked (not_or.mpr plain)
  · rw [Marked, trimLeft_append_of_visible visible, List.head?_append_of_ne_nil _ visible] at marked
    exact marked

theorem marked_chomp {line : List Char} (marked : Marked line) : Marked (chomp line) := by
  rw [chomp]
  split
  · next carriage => exact marked.dropLast carriage (by decide)
  · exact marked

theorem getLast?_of_continues {line : List Char} (goes : continues line = true) :
    line.getLast? = some '\\' := by
  rcases List.eq_nil_or_concat line with rfl | ⟨init, c, rfl⟩
  · cases goes
  · rw [List.concat_eq_append, continues_concat] at goes
    rw [List.concat_eq_append, List.getLast?_concat]
    split at goes
    · next backslash => rw [backslash]
    · cases goes

/-- A comment that goes on takes the first whole line along; any other comment takes nothing. -/
theorem readPairs_comment {comment : List Char} (isComment : IsComment comment)
    (rest : List Char) :
    readPairs (comment ++ '\n' :: rest) =
      (if continues (chomp comment) then (wholeLines rest).tail
        else wholeLines rest).filterMap readLine := by
  have marked := marked_chomp isComment.marked
  rw [readPairs, lines_append_unbroken isComment.unbroken, joinLines, wholeLines]
  cases goes : continues (chomp comment) with
  | true =>
      have opened : Marked (chomp comment).dropLast :=
        marked.dropLast (getLast?_of_continues goes) (by decide)
      rcases exists_joinLines_some (chomp comment).dropLast (lines rest) with ⟨more, joined⟩
      simp only [goes, if_true, Option.isSome_none, Option.getD_none, List.nil_append,
        Bool.false_eq_true, if_false]
      rw [joined, List.filterMap_cons_none (readLine_marked (opened.append more))]
  | false =>
      simp only [goes, Option.isSome_none, Option.getD_none, List.nil_append, Bool.false_eq_true,
        if_false]
      rw [List.filterMap_cons_none (readLine_marked marked)]

/-! ## Main result -/

theorem parse_comment {before comment : String} (complete : Complete before.toList)
    (isComment : IsComment comment.toList) (after : String) :
    parse (before ++ comment ++ "\n" ++ after) =
      KeyedList.ofList (readPairs before.toList ++
        (if continues (chomp comment.toList) then (wholeLines after.toList).tail
          else wholeLines after.toList).filterMap readLine) := by
  have newline : "\n".toList = ['\n'] := by decide
  rw [parse, String.toList_append, String.toList_append, String.toList_append, newline,
    List.append_assoc, List.append_assoc, List.singleton_append, readPairs_append complete,
    readPairs_comment isComment]

/-- Some property on a single line is none that the table has. -/
theorem exists_line_not_held (table : Table) : ∃ (text key value : String),
    (wholeLines text.toList).tail = [] ∧ readPairs text.toList = [(key, value)] ∧
      table.get? key ≠ some value := by
  by_cases held : table.get? "k" = some "0"
  · refine ⟨"k=1", "k", "1", by decide, by decide, ?_⟩
    rw [held]
    decide
  · exact ⟨"k=0", "k", "0", by decide, by decide, held⟩

/-- Behind a complete text a comment leaves whatever follows as it is exactly when it does not go
on; else the first whole line of what follows is lost with it. -/
theorem comment_hides_nothing_iff {before comment : String} (complete : Complete before.toList)
    (isComment : IsComment comment.toList) :
    ((∀ after, parse (before ++ comment ++ "\n" ++ after) = parse (before ++ after)) ↔
      continues (chomp comment.toList) = false) ∧
    (continues (chomp comment.toList) = true → ∀ after,
      parse (before ++ comment ++ "\n" ++ after) = KeyedList.ofList (readPairs before.toList ++
        (wholeLines after.toList).tail.filterMap readLine)) := by
  have apart : ∀ after, parse (before ++ after) =
      KeyedList.ofList (readPairs before.toList ++ readPairs after.toList) := by
    intro after
    rw [parse, String.toList_append, readPairs_append complete]
  refine ⟨⟨fun same => ?_, fun ends after => ?_⟩, fun goes after => ?_⟩
  · by_contra goes
    rw [Bool.not_eq_false] at goes
    rcases exists_line_not_held (parse before) with ⟨after, key, value, single, read, fresh⟩
    have written : parse before = (parse before).insert key value :=
      calc parse before
        _ = parse (before ++ comment ++ "\n" ++ after) := by
          rw [parse_comment complete isComment, goes, if_pos rfl, single, List.filterMap_nil,
            List.append_nil, parse]
        _ = parse (before ++ after) := same after
        _ = (parse before).insert key value := by
          rw [apart, read, KeyedList.ofList_concat, parse]
    apply fresh
    rw [written, KeyedList.get?_insert, if_pos rfl]
  · rw [parse_comment complete isComment, ends, apart]
    rfl
  · rw [parse_comment complete isComment, goes]
    rfl

/-- Two backslashes end the first comment, one ends the second. -/
theorem comment_hides_nothing_iff_backslashes :
    Complete "port=80\n".toList ∧ IsComment " # c:\\\\\x0d".toList ∧
      (∀ after, parse ("port=80\n" ++ " # c:\\\\\x0d" ++ "\n" ++ after) =
        parse ("port=80\n" ++ after)) ∧
      IsComment "! c:\\".toList ∧
      (parse ("port=80\n" ++ "! c:\\" ++ "\n" ++ "a=1,\\\n 2\nb=3")).entries =
        [("port", "80"), ("b", "3")] := by
  have complete : Complete "port=80\n".toList := ⟨by decide, by decide⟩
  have ended : IsComment " # c:\\\\\x0d".toList := ⟨by decide, .inl (by decide)⟩
  have goesOn : IsComment "! c:\\".toList := ⟨by decide, .inr (by decide)⟩
  refine ⟨complete, ended, (comment_hides_nothing_iff complete ended).1.mpr (by decide), goesOn, ?_⟩
  rw [(comment_hides_nothing_iff complete goesOn).2 (by decide)]
  decide

/-- A comment that ends in a backslash hides the property on the next line. -/
theorem comment_hides_property :
    Complete "".toList ∧ IsComment "# notes\\".toList ∧
      (parse ("" ++ "# notes\\" ++ "\n" ++ "port=80\n")).entries = [] ∧
      (parse ("" ++ "port=80\n")).entries = [("port", "80")] :=
  ⟨⟨by decide, by decide⟩, ⟨by decide, .inl (by decide)⟩, by decide, by decide⟩

end LineFormat
end Property
end LayeredConfig

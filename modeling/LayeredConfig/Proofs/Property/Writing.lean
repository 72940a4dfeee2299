import LayeredConfig.Proofs.KeyedList
import LayeredConfig.Proofs.Text.Lines
import LayeredConfig.Property.LineFormat

namespace LayeredConfig
namespace Property
namespace LineFormat

open Text

/-!
# Written properties are read back

A property is written on a line of its own, with a backslash before each
character that would be misread.  The passes of the reader do not disturb one
another on such a line: no line end and no comment mark is left in it, it ends in
a quote and so goes on in no other line, the first character without a backslash
that can end the key is the sign after it, and the quotes keep the blanks at the
ends of the value.
-/

/-- The letter that stands for a line end, a tab or a form feed after a backslash. -/
def escapeLetter : Char → Char
  | '\n' => 'n'
  | '\r' => 'r'
  | '\t' => 't'
  | '\x0c' => 'f'
  | c => c

/-- A text with a backslash before each special character. -/
def escape (special : Char → Bool) (cs : List Char) : List Char :=
  cs.flatMap fun c => if special c then ['\\', escapeLetter c] else [c]

/-- The characters that have a meaning of their own in a key. -/
def isSpecialInKey (c : Char) : Bool :=
  c == '\\' || c == '=' || c == ':' || c == '#' || c == '!' || isBlank c

/-- The characters that have a meaning of their own between quotes. -/
def isSpecialInQuotes (c : Char) : Bool :=
  c == '\\' || c == '\n' || c == '\r'

def quoted (cs : List Char) : List Char :=
  '"' :: escape isSpecialInQuotes cs ++ ['"']

/-- The line of one property. -/
def writeLine (pair : String × String) : List Char :=
  escape isSpecialInKey pair.1.toList ++ '=' :: quoted pair.2.toList

/-- Properties as a text, each on a line of its own. -/
def write (pairs : List (String × String)) : String :=
  String.ofList ((pairs.map writeLine).flatMap fun line => line ++ ['\n'])

/-! ## Backslashes -/

/-- What a set of special characters needs so that backslashes before them can be taken away:
backslashes are among them, and no letter with a meaning after a backslash. -/
structure Escapes (special : Char → Bool) : Prop where
  backslash : special '\\' = true
  letters : ∀ c, special c = true → unescape (escapeLetter c) = c

theorem unescape_escapeLetter {c : Char} (plain : c ∉ ['t', 'n', 'r', 'f']) :
    unescape (escapeLetter c) = c := by
  unfold escapeLetter
  split <;> try rfl
  unfold unescape
  split <;> simp_all

theorem escapes_of_not_mem {special : Char → Bool} (backslash : special '\\' = true)
    (plain : ['t', 'n', 'r', 'f'].any special = false) : Escapes special where
  backslash := backslash
  letters := fun c marked => unescape_escapeLetter fun letter =>
    List.any_eq_false.mp plain c letter marked

theorem escapes_key : Escapes isSpecialInKey :=
  escapes_of_not_mem (by decide) (by decide)

theorem escapes_quotes : Escapes isSpecialInQuotes :=
  escapes_of_not_mem (by decide) (by decide)

variable {special : Char → Bool}

theorem escape_cons (c : Char) (cs : List Char) :
    escape special (c :: cs) =
      (if special c then ['\\', escapeLetter c] else [c]) ++ escape special cs :=
  List.flatMap_cons

theorem unescapeAll_escape (escapes : Escapes special) (cs rest : List Char) :
    unescapeAll (escape special cs ++ rest) = cs ++ unescapeAll rest := by
  induction cs with
  | nil => rfl
  | cons c tail ih =>
      rw [escape_cons]
      cases marked : special c with
      | true =>
          simp only [if_true, List.cons_append, List.nil_append]
          rw [unescapeAll, escapes.letters c marked, ih]
      | false =>
          have plain : c ≠ '\\' := by
            rintro rfl
            exact Bool.false_ne_true (marked.symm.trans escapes.backslash)
          simp only [Bool.false_eq_true, if_false, List.cons_append, List.nil_append]
          rw [unescapeAll, ih]
          all_goals simp [plain]

theorem escapeLetter_ne {c other : Char} (ends : other = '\n' ∨ other = '\r') :
    escapeLetter c ≠ other := by
  unfold escapeLetter
  split
  · rcases ends with rfl | rfl <;> decide
  · rcases ends with rfl | rfl <;> decide
  · rcases ends with rfl | rfl <;> decide
  · rcases ends with rfl | rfl <;> decide
  · next newline carriage _ _ =>
      rcases ends with rfl | rfl
      · exact newline
      · exact carriage

/-- A text with a backslash before each line end has no line end. -/
theorem not_mem_escape {other : Char} (ends : other = '\n' ∨ other = '\r')
    (marked : special other = true) (cs : List Char) : other ∉ escape special cs := by
  intro member
  rcases List.mem_flatMap.mp member with ⟨c, _, written⟩
  split at written
  · rw [List.mem_cons, List.mem_singleton] at written
    rcases written with backslash | letter
    · rcases ends with rfl | rfl <;> exact absurd backslash (by decide)
    · exact escapeLetter_ne ends letter.symm
  · next plain =>
      rw [List.mem_singleton] at written
      exact plain (written ▸ marked)

/-! ## The key and the value of a line -/

theorem splitKey_escape (key rest : List Char) :
    splitKey (escape isSpecialInKey key ++ '=' :: rest) = (key, rest) := by
  induction key with
  | nil => simp [escape, splitKey]
  | cons c tail ih =>
      rw [escape_cons]
      cases marked : isSpecialInKey c with
      | true =>
          simp only [if_true, List.cons_append, List.nil_append]
          rw [splitKey, escapes_key.letters c marked, ih]
      | false =>
          simp only [isSpecialInKey, Bool.or_eq_false_iff, beq_eq_false_iff_ne] at marked
          obtain ⟨⟨⟨⟨⟨backslash, equals⟩, colon⟩, _⟩, _⟩, visible⟩ := marked
          simp only [Bool.false_eq_true, if_false, List.cons_append, List.nil_append]
          rw [splitKey]
          · simp [equals, colon, visible, ih]
          · exact fun same => absurd same backslash
          · exact fun _ _ same => absurd same backslash

theorem unquote_quotes (cs : List Char) : unquote ('"' :: (cs ++ ['"'])) = cs := by
  cases split : cs ++ ['"'] with
  | nil => exact absurd split (by simp)
  | cons second rest =>
      rw [unquote, ← split, if_pos (by simp), List.dropLast_concat]

theorem trimBoth_quoted (cs : List Char) : trimBoth (quoted cs) = quoted cs := by
  have visible : isBlank '"' = false := by decide
  have left : trimLeft (quoted cs) = quoted cs := by
    rw [trimLeft, quoted, List.cons_append, List.dropWhile_cons_of_neg (by simp [visible])]
  rw [trimBoth, left, trimRight, quoted, List.reverse_append, List.reverse_singleton,
    List.singleton_append, List.dropWhile_cons_of_neg (by simp [visible]), List.reverse_cons,
    List.reverse_reverse]

theorem readValue_quoted (value : List Char) : readValue (quoted value) = value := by
  have plain : unescapeAll (quoted value) = '"' :: (value ++ ['"']) := by
    rw [quoted, List.cons_append, unescapeAll, unescapeAll_escape escapes_quotes]
    · rfl
    · simp
    · simp
  rw [readValue, trimBoth_quoted, plain, unquote_quotes]

/-! ## Lines -/

/-- What begins a line with a written key is no blank and no comment mark. -/
theorem exists_head_of_key (key rest : List Char) :
    ∃ first others, escape isSpecialInKey key ++ '=' :: rest = first :: others ∧
      isBlank first = false ∧ first ≠ '#' ∧ first ≠ '!' := by
  cases key with
  | nil => exact ⟨'=', _, rfl, by decide, by decide, by decide⟩
  | cons c tail =>
      rw [escape_cons]
      cases marked : isSpecialInKey c with
      | true => exact ⟨'\\', _, rfl, by decide, by decide, by decide⟩
      | false =>
          simp only [isSpecialInKey, Bool.or_eq_false_iff, beq_eq_false_iff_ne] at marked
          exact ⟨c, _, rfl, marked.2, marked.1.1.2, marked.1.2⟩

/-- A line with a written key gives that key, and the value that the rest stands for. -/
theorem readLine_key (key rest : List Char) :
    readLine (escape isSpecialInKey key ++ '=' :: rest) =
      some (String.ofList key, String.ofList (readValue rest)) := by
  rcases exists_head_of_key key rest with ⟨first, others, line, visible, hash, bang⟩
  have whole : trimLeft (escape isSpecialInKey key ++ '=' :: rest) = first :: others := by
    rw [line, trimLeft, List.dropWhile_cons_of_neg (by simp [visible])]
  have split := splitKey_escape key rest
  rw [line] at split
  rw [readLine, whole]
  simp only [hash, bang, decide_false, Bool.or_self, Bool.false_eq_true, if_false, split]

theorem readLine_writeLine (pair : String × String) : readLine (writeLine pair) = some pair := by
  rw [writeLine, readLine_key, readValue_quoted, String.ofList_toList, String.ofList_toList]

theorem getLast?_writeLine (pair : String × String) : (writeLine pair).getLast? = some '"' := by
  rw [writeLine, quoted, ← List.cons_append, ← List.append_assoc, List.getLast?_concat]

theorem isLine_writeLine (pair : String × String) : IsLine (writeLine pair) where
  unbroken := by
    have key := not_mem_escape (.inl rfl) (show isSpecialInKey '\n' = true by decide) pair.1.toList
    have value := not_mem_escape (.inl rfl) (show isSpecialInQuotes '\n' = true by decide)
      pair.2.toList
    simp [writeLine, quoted, key, value]
  uncut := by
    rw [getLast?_writeLine]
    decide

/-- A line that ends in a quote goes on in no other line. -/
theorem continues_writeLine (pair : String × String) : continues (writeLine pair) = false := by
  have last := getLast?_writeLine pair
  rw [← List.head?_reverse] at last
  rcases List.head?_eq_some_iff.mp last with ⟨rest, reversed⟩
  rw [continues, reversed, List.takeWhile_cons_of_neg (by decide)]
  rfl

/-- Lines that do not go on are left apart. -/
theorem joinLines_of_whole {written : List (List Char)}
    (whole : ∀ line ∈ written, continues line = false) : joinLines none written = written := by
  induction written with
  | nil => rfl
  | cons line rest ih =>
      rw [List.forall_mem_cons] at whole
      simp [joinLines, whole.1, ih whole.2]

theorem readPairs_write (pairs : List (String × String)) :
    readPairs (write pairs).toList = pairs := by
  have cut : lines (write pairs).toList = pairs.map writeLine := by
    rw [write, String.toList_ofList]
    refine lines_flatMap ?_
    intro line member
    rcases List.mem_map.mp member with ⟨pair, _, rfl⟩
    exact isLine_writeLine pair
  have joined : joinLines none (pairs.map writeLine) = pairs.map writeLine := by
    refine joinLines_of_whole ?_
    intro line member
    rcases List.mem_map.mp member with ⟨pair, _, rfl⟩
    exact continues_writeLine pair
  rw [readPairs, cut, joined, List.filterMap_map]
  simp [readLine_writeLine]

/-- Reading what was written gives the pairs back, whatever characters are in them.  The keys
stand in the order in which they were first written, each with the value last written. -/
theorem parse_write (pairs : List (String × String)) :
    parse (write pairs) = KeyedList.ofList pairs ∧
      (parse (write pairs)).keys = (pairs.map Prod.fst).eraseDups ∧
      ∀ key, (parse (write pairs)).get? key = pairs.reverse.lookup key := by
  have read : parse (write pairs) = KeyedList.ofList pairs := by
    rw [parse, readPairs_write]
  refine ⟨read, ?_, fun key => ?_⟩
  · rw [read, KeyedList.keys_ofList]
  · rw [read, KeyedList.get?_ofList]

example : write [("a b", " \"c\n"), ("", "")] = "a\\ b=\" \"c\\n\"\n=\"\"\n" := by decide

end LineFormat
end Property
end LayeredConfig

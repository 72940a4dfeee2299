import LayeredConfig.Proofs.Property.EscapedValues
import LayeredConfig.Proofs.Text.CommaList
import LayeredConfig.Proofs.Text.Decimal

namespace LayeredConfig
namespace Property
namespace LineFormat

open Text

/-!
# Words in tables

No character of a word has a meaning of its own in a table or in a list.  Lists of
words and numbers in decimal are therefore read as they are written.
-/

/-! ## Words -/

/-- Letters and digits, of whatever script, the dot, the underscore and the hyphen.  Beyond ASCII
every visible character is let pass. -/
def isWordCharacter (c : Char) : Bool :=
  c.isAlphanum || c == '.' || c == '_' || c == '-' || (0x80 ≤ c.toNat && !isBlank c)

structure IsWord (text : String) : Prop where
  visible : text ≠ ""
  plain : ∀ c ∈ text.toList, isWordCharacter c = true

instance (text : String) : Decidable (IsWord text) :=
  decidable_of_iff (text ≠ "" ∧ text.toList.all isWordCharacter = true)
    ⟨fun word => ⟨word.1, List.all_eq_true.mp word.2⟩,
      fun word => ⟨word.visible, List.all_eq_true.mpr word.plain⟩⟩

theorem ne_of_isWordCharacter {c mark : Char} (word : isWordCharacter c = true)
    (outside : isWordCharacter mark = false) : c ≠ mark := by
  rintro rfl
  exact Bool.false_ne_true (outside.symm.trans word)

theorem isBlank_of_isAlphanum {c : Char} (word : c.isAlphanum = true) : isBlank c = false := by
  have ranges : ((65 ≤ c.toNat ∧ c.toNat ≤ 90) ∨ (97 ≤ c.toNat ∧ c.toNat ≤ 122)) ∨
      (48 ≤ c.toNat ∧ c.toNat ≤ 57) := by
    change ((decide (65 ≤ c.val ∧ c.val ≤ 90) || (decide (97 ≤ c.val) && decide (c.val ≤ 122))) ||
      c.isDigit) = true at word
    simp only [Bool.or_eq_true, Bool.and_eq_true, decide_eq_true_iff, UInt32.le_iff_toNat_le,
      Char.isDigit_iff_toNat] at word
    exact word
  simp only [isBlank, Bool.or_eq_false_iff, Bool.and_eq_false_iff, decide_eq_false_iff_not,
    beq_eq_false_iff_ne]
  omega

theorem isBlank_of_isWordCharacter {c : Char} (word : isWordCharacter c = true) :
    isBlank c = false := by
  simp only [isWordCharacter, Bool.or_eq_true, Bool.and_eq_true, beq_iff_eq, or_assoc] at word
  rcases word with letter | rfl | rfl | rfl | ⟨_, visible⟩
  · exact isBlank_of_isAlphanum letter
  · decide
  · decide
  · decide
  · simpa using visible

theorem isSpecialInKey_of_isWordCharacter {c : Char} (word : isWordCharacter c = true) :
    isSpecialInKey c = false := by
  simp only [isSpecialInKey, Bool.or_eq_false_iff, beq_eq_false_iff_ne]
  refine ⟨⟨⟨⟨⟨?_, ?_⟩, ?_⟩, ?_⟩, ?_⟩, isBlank_of_isWordCharacter word⟩
  all_goals exact ne_of_isWordCharacter word (by decide)

theorem trim_of_word {text : String} (word : ∀ c ∈ text.toList, isWordCharacter c = true) :
    trim text = text := by
  rw [trim, trimBoth_of_visible fun c member => isBlank_of_isWordCharacter (word c member),
    String.ofList_toList]

theorem isWordCharacter_of_mem_nat {number : Nat} {c : Char}
    (member : c ∈ (toString number).toList) : isWordCharacter c = true := by
  simp [isWordCharacter, Char.isAlphanum, isDigit_of_mem_toString member]

theorem isWordCharacter_of_mem_int {number : Int} {c : Char}
    (member : c ∈ (toString number).toList) : isWordCharacter c = true := by
  cases number with
  | ofNat magnitude => exact isWordCharacter_of_mem_nat member
  | negSucc less =>
      rw [toList_toString_negSucc, List.mem_cons] at member
      rcases member with rfl | digit
      · decide
      · exact isWordCharacter_of_mem_nat digit

/-! ## Lists of words -/

/-- The words of a list with commas between them; an empty list has no text. -/
def listText (names : List String) : Option String :=
  if names = [] then none else some (",".intercalate names)

/-- Words are what they list together. -/
theorem commaList_of_isWord {name : String} (word : IsWord name) : commaList name = [name] :=
  commaList_of_trimmed (trim_of_word word.plain) word.visible fun comma =>
    ne_of_isWordCharacter (word.plain _ comma) (by decide) rfl

/-- The text of a list of words is read as the list. -/
theorem commaList_of_listText {names : List String} (words : ∀ name ∈ names, IsWord name)
    {text : String} (listed : listText names = some text) : commaList text = names := by
  have each : names = names.flatMap commaList :=
    eq_flatMap_commaList_iff.mpr fun name known => commaList_of_isWord (words name known)
  rw [listText] at listed
  split at listed
  · cases listed
  · rw [← Option.some.inj listed, commaList_intercalate, ← each]

theorem mem_intercalate {c mark : Char} {texts : List (List Char)}
    (member : c ∈ [mark].intercalate texts) : c = mark ∨ ∃ text ∈ texts, c ∈ text := by
  induction texts with
  | nil => cases member
  | cons text rest ih =>
      cases rest with
      | nil => exact .inr ⟨text, List.mem_cons_self, by simpa using member⟩
      | cons next others =>
          rw [List.intercalate_cons_cons, List.append_assoc, List.mem_append, List.mem_append,
            List.mem_singleton] at member
          rcases member with here | same | later
          · exact .inr ⟨text, List.mem_cons_self, here⟩
          · exact .inl same
          · exact (ih later).imp_right fun ⟨found, listed, inside⟩ =>
              ⟨found, List.mem_cons_of_mem _ listed, inside⟩

/-- The characters of a list of words are those of the words, and commas. -/
theorem isWordCharacter_of_mem_listText {names : List String} {text : String} {c : Char}
    (words : ∀ name ∈ names, IsWord name) (listed : listText names = some text)
    (member : c ∈ text.toList) : isWordCharacter c = true ∨ c = ',' := by
  have comma : ",".toList = [','] := by decide
  rw [listText] at listed
  split at listed
  · cases listed
  · rw [← Option.some.inj listed, String.toList_intercalate, comma] at member
    rcases mem_intercalate member with same | ⟨_, inside, found⟩
    · exact .inr same
    · rcases List.mem_map.mp inside with ⟨name, known, rfl⟩
      exact .inl ((words name known).plain c found)

/-! ## Lines of words -/

/-- A key and a value that are read as they are written: the value may list words. -/
structure IsPlain (pair : String × String) : Prop where
  key : ∀ c ∈ pair.1.toList, isWordCharacter c = true
  value : ∀ c ∈ pair.2.toList, isWordCharacter c = true ∨ c = ','

/-- Pairs as a table, each on a line `key=value`. -/
def tableText (pairs : List (String × String)) : String :=
  String.join (pairs.map fun pair => pair.1 ++ "=" ++ pair.2 ++ "\n")

theorem escape_of_plain {special : Char → Bool} {cs : List Char}
    (plain : ∀ c ∈ cs, special c = false) : escape special cs = cs := by
  have each : ∀ c ∈ cs, (if special c then ['\\', escapeLetter c] else [c]) = [c] := by
    intro c member
    rw [plain c member, if_neg Bool.false_ne_true]
  rw [escape, List.flatMap_congr each, List.flatMap_singleton']

namespace IsPlain

variable {pair : String × String}

theorem visible (plain : IsPlain pair) : ∀ c ∈ pair.2.toList, isBlank c = false := by
  intro c member
  rcases plain.value c member with word | rfl
  · exact isBlank_of_isWordCharacter word
  · decide

theorem not_mem (plain : IsPlain pair) {mark : Char} (outside : isWordCharacter mark = false)
    (noComma : mark ≠ ',') : mark ∉ pair.2.toList := by
  intro member
  rcases plain.value mark member with word | comma
  · exact Bool.false_ne_true (outside.symm.trans word)
  · exact noComma comma

theorem writeBare_eq (plain : IsPlain pair) :
    writeBare pair.1 pair.2 = (pair.1 ++ "=" ++ pair.2).toList := by
  have equals : "=".toList = ['='] := by decide
  have key : escape isSpecialInKey pair.1.toList = pair.1.toList :=
    escape_of_plain fun c member => isSpecialInKey_of_isWordCharacter (plain.key c member)
  have value : escape isSpecialInValue pair.2.toList = pair.2.toList := by
    refine escape_of_plain fun c member => ?_
    rw [isSpecialInValue, plain.visible c member, Bool.or_false, beq_eq_false_iff_ne]
    rintro rfl
    exact plain.not_mem (by decide) (by decide) member
  rw [writeBare, key, value, String.toList_append, String.toList_append, equals,
    List.append_assoc, List.singleton_append]

theorem readLine_eq (plain : IsPlain pair) : readLine (writeBare pair.1 pair.2) = some pair := by
  apply readLine_writeBare
  · rintro ⟨quote, marks, first, _⟩
    have member := List.mem_of_head? first
    rw [List.mem_cons, List.mem_singleton] at marks
    rcases marks with rfl | rfl
    · exact plain.not_mem (by decide) (by decide) member
    · exact plain.not_mem (by decide) (by decide) member
  · rw [endsInBareBlank, Option.any_eq_false]
    intro c last
    rw [plain.visible c (List.mem_of_getLast? last)]
    simp

end IsPlain

theorem readPairs_tableText {pairs : List (String × String)}
    (plain : ∀ pair ∈ pairs, IsPlain pair) : readPairs (tableText pairs).toList = pairs := by
  have newline : "\n".toList = ['\n'] := by decide
  have written : (tableText pairs).toList =
      pairs.flatMap fun pair => writeBare pair.1 pair.2 ++ ['\n'] := by
    rw [tableText, String.toList_join, List.flatMap_map]
    refine List.flatMap_congr fun pair member => ?_
    rw [String.toList_append, newline, (plain pair member).writeBare_eq]
  rw [written, readPairs_bareLines fun pair member => (plain pair member).readLine_eq]

end LineFormat
end Property
end LayeredConfig

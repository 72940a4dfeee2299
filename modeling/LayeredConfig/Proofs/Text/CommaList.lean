import LayeredConfig.Text.CommaList
import Mathlib.Data.List.Basic
import Mathlib.Data.List.TakeWhile

namespace LayeredConfig
namespace Text

/-!
# The items of texts put together

A comma between two texts keeps their items apart, blanks around a text add
nothing to its items, and each item is the only item of itself.
-/

/-! ## Blanks at the ends -/

theorem not_mem_of_blank {c : Char} (visible : isBlank c = false) {blanks : List Char}
    (white : ∀ c ∈ blanks, isBlank c = true) : c ∉ blanks := fun member =>
  Bool.false_ne_true (visible.symm.trans (white c member))

theorem trimLeft_append {blanks : List Char} (white : ∀ c ∈ blanks, isBlank c = true)
    (cs : List Char) : trimLeft (blanks ++ cs) = trimLeft cs :=
  List.dropWhile_append_of_pos white

theorem trimRight_append {blanks : List Char} (white : ∀ c ∈ blanks, isBlank c = true)
    (cs : List Char) : trimRight (cs ++ blanks) = trimRight cs := by
  have backwards : ∀ c ∈ blanks.reverse, isBlank c = true :=
    fun c member => white c (List.mem_reverse.mp member)
  rw [trimRight, List.reverse_append, List.dropWhile_append_of_pos backwards, trimRight]

theorem trimBoth_append {before after : List Char} (white : ∀ c ∈ before, isBlank c = true)
    (whiteAfter : ∀ c ∈ after, isBlank c = true) (cs : List Char) :
    trimBoth (before ++ cs ++ after) = trimBoth cs := by
  rw [List.append_assoc, trimBoth, trimLeft_append white, trimLeft, List.dropWhile_append]
  split
  · next empty =>
      have nothing : trimLeft cs = [] := List.isEmpty_iff.mp empty
      have gone : after.dropWhile isBlank = [] := List.dropWhile_eq_nil_iff.mpr whiteAfter
      rw [gone, trimBoth, nothing]
  · rw [trimRight_append whiteAfter, trimBoth, trimLeft]

/-- A text is what is left of it with blanks around. -/
theorem exists_trimBoth (cs : List Char) :
    ∃ before after, cs = before ++ trimBoth cs ++ after ∧
      (∀ c ∈ before, isBlank c = true) ∧ ∀ c ∈ after, isBlank c = true := by
  refine ⟨cs.takeWhile isBlank, ((trimLeft cs).reverse.takeWhile isBlank).reverse, ?_, ?_, ?_⟩
  · have left : cs.takeWhile isBlank ++ trimLeft cs = cs := List.takeWhile_append_dropWhile
    have right : trimRight (trimLeft cs) ++ ((trimLeft cs).reverse.takeWhile isBlank).reverse =
        trimLeft cs := by
      rw [trimRight, ← List.reverse_append, List.takeWhile_append_dropWhile, List.reverse_reverse]
    rw [List.append_assoc, trimBoth, right, left]
  · exact fun c member => List.mem_takeWhile_imp member
  · exact fun c member => List.mem_takeWhile_imp (List.mem_reverse.mp member)

theorem mem_trimBoth_iff {c : Char} (visible : isBlank c = false) (cs : List Char) :
    c ∈ trimBoth cs ↔ c ∈ cs := by
  obtain ⟨before, after, split, white, whiteAfter⟩ := exists_trimBoth cs
  have among : c ∈ cs ↔ c ∈ before ++ trimBoth cs ++ after := by rw [← split]
  rw [among, List.mem_append, List.mem_append, or_iff_left (not_mem_of_blank visible whiteAfter),
    or_iff_right (not_mem_of_blank visible white)]

theorem trimBoth_trimBoth (cs : List Char) : trimBoth (trimBoth cs) = trimBoth cs := by
  obtain ⟨before, after, split, white, whiteAfter⟩ := exists_trimBoth cs
  exact (trimBoth_append white whiteAfter _).symm.trans (congrArg trimBoth split.symm)

/-- A text without blanks is left as it is. -/
theorem trimBoth_of_visible {cs : List Char} (visible : ∀ c ∈ cs, isBlank c = false) :
    trimBoth cs = cs := by
  have kept : ∀ ds : List Char, (∀ c ∈ ds, isBlank c = false) → ds.dropWhile isBlank = ds := by
    intro ds visible
    cases ds with
    | nil => rfl
    | cons c rest => rw [List.dropWhile_cons_of_neg (by simp [visible c List.mem_cons_self])]
  rw [trimBoth, trimLeft, kept cs visible, trimRight,
    kept cs.reverse fun c member => visible c (List.mem_reverse.mp member), List.reverse_reverse]

/-! ## Pieces -/

theorem splitAt_append (separator : Char) (first rest : List Char) :
    splitAt separator (first ++ separator :: rest) =
      splitAt separator first ++ splitAt separator rest := by
  induction first with
  | nil => simp [splitAt]
  | cons c tail ih =>
      rw [List.cons_append, splitAt, splitAt, ih]
      split
      · rfl
      · cases pieces : splitAt separator tail with
        | nil => exact absurd pieces (splitAt_ne_nil separator tail)
        | cons piece more => rfl

theorem splitAt_of_not_mem {separator : Char} {cs : List Char} (absent : separator ∉ cs) :
    splitAt separator cs = [cs] := by
  induction cs with
  | nil => rfl
  | cons c rest ih =>
      rw [List.mem_cons, not_or] at absent
      rw [splitAt, if_neg (Ne.symm absent.1), ih absent.2]

theorem not_mem_of_mem_splitAt {separator : Char} {cs piece : List Char}
    (member : piece ∈ splitAt separator cs) : separator ∉ piece := by
  induction cs generalizing piece with
  | nil =>
      rw [splitAt, List.mem_singleton] at member
      simp [member]
  | cons c rest ih =>
      rw [splitAt] at member
      split at member
      · rcases List.mem_cons.mp member with same | later
        · simp [same]
        · exact ih later
      · next different =>
          cases pieces : splitAt separator rest with
          | nil => exact absurd pieces (splitAt_ne_nil separator rest)
          | cons head more =>
              rw [pieces] at member ih
              rcases List.mem_cons.mp member with same | later
              · rw [same, List.mem_cons, not_or]
                exact ⟨Ne.symm different, ih List.mem_cons_self⟩
              · exact ih (List.mem_cons_of_mem _ later)

/-! ## Items -/

theorem items_append (first rest : List Char) :
    items (first ++ ',' :: rest) = items first ++ items rest := by
  rw [items, splitAt_append, List.map_append, List.filter_append, items, items]

theorem items_of_not_mem {cs : List Char} (absent : ',' ∉ cs) :
    items cs = if trimBoth cs = [] then [] else [trimBoth cs] := by
  rw [items, splitAt_of_not_mem absent, List.map_singleton]
  by_cases empty : trimBoth cs = []
  · simp [empty]
  · simp [empty]

/-- What an item is: a text that is not empty and has neither commas nor blanks at its ends. -/
theorem of_mem_items {cs item : List Char} (member : item ∈ items cs) :
    item ≠ [] ∧ ',' ∉ item ∧ trimBoth item = item := by
  obtain ⟨inside, nonempty⟩ := List.mem_filter.mp member
  obtain ⟨piece, among, rfl⟩ := List.mem_map.mp inside
  refine ⟨by simpa using nonempty, ?_, trimBoth_trimBoth piece⟩
  rw [mem_trimBoth_iff (by decide)]
  exact not_mem_of_mem_splitAt among

theorem items_of_mem_items {cs item : List Char} (member : item ∈ items cs) :
    items item = [item] := by
  obtain ⟨nonempty, absent, trimmed⟩ := of_mem_items member
  rw [items_of_not_mem absent, trimmed, if_neg nonempty]

/-- Blanks around a text do not count. -/
theorem items_append_blanks {before after : List Char} (white : ∀ c ∈ before, isBlank c = true)
    (whiteAfter : ∀ c ∈ after, isBlank c = true) (cs : List Char) :
    items (before ++ cs ++ after) = items cs := by
  by_cases comma : ',' ∈ cs
  · obtain ⟨first, rest, split⟩ := List.append_of_mem comma
    have none : ∀ c ∈ ([] : List Char), isBlank c = true := by simp
    have front := items_append_blanks white none first
    have back := items_append_blanks none whiteAfter rest
    rw [List.append_nil] at front
    rw [List.nil_append] at back
    rw [split, ← List.append_assoc, List.append_assoc, List.cons_append, items_append, items_append,
      front, back]
  · have absent : ',' ∉ before ++ cs ++ after := by
      rw [List.mem_append, List.mem_append, not_or, not_or]
      have visible : isBlank ',' = false := by decide
      exact ⟨⟨not_mem_of_blank visible white, comma⟩, not_mem_of_blank visible whiteAfter⟩
    rw [items_of_not_mem absent, items_of_not_mem comma, trimBoth_append white whiteAfter]
termination_by cs.length
decreasing_by
  all_goals simp only [split, List.length_append, List.length_cons]; omega

theorem items_nil : items [] = [] := by
  simp [items, splitAt, trimBoth, trimLeft, trimRight]

theorem items_trimBoth (cs : List Char) : items (trimBoth cs) = items cs := by
  obtain ⟨before, after, split, white, whiteAfter⟩ := exists_trimBoth cs
  exact (items_append_blanks white whiteAfter _).symm.trans (congrArg items split.symm)

/-- Texts joined by commas have the items of the texts. -/
theorem items_intercalate (texts : List (List Char)) :
    items ([','].intercalate texts) = texts.flatMap items := by
  induction texts with
  | nil => exact items_nil
  | cons text others ih =>
      cases others with
      | nil => simp
      | cons next rest =>
          rw [List.intercalate_cons_cons, List.append_assoc, List.singleton_append, items_append, ih]
          rfl

/-! ## Lists of strings -/

theorem commaList_trim (text : String) : commaList (trim text) = commaList text := by
  rw [commaList, trim, String.toList_ofList, items_trimBoth, commaList]

theorem commaList_empty : commaList "" = [] := by
  rw [commaList, String.toList_empty, items_nil, List.map_nil]

theorem commaList_of_mem {text entry : String} (member : entry ∈ commaList text) :
    commaList entry = [entry] := by
  rcases List.mem_map.mp member with ⟨item, inside, rfl⟩
  rw [commaList, String.toList_ofList, items_of_mem_items inside, List.map_singleton]

/-- A text without commas lists itself, trimmed, unless it is blank. -/
theorem commaList_of_not_mem {text : String} (absent : ',' ∉ text.toList) :
    commaList text = if trim text = "" then [] else [trim text] := by
  have blank : trim text = "" ↔ trimBoth text.toList = [] := by
    rw [← String.toList_inj, trim, String.toList_ofList, String.toList_empty]
  rw [commaList, items_of_not_mem absent]
  by_cases nothing : trimBoth text.toList = []
  · rw [if_pos nothing, if_pos (blank.mpr nothing), List.map_nil]
  · rw [if_neg nothing, if_neg fun empty => nothing (blank.mp empty), List.map_singleton, trim]

/-- A trimmed text without commas lists itself, unless it is empty. -/
theorem commaList_of_trimmed {text : String} (trimmed : trim text = text) (visible : text ≠ "")
    (absent : ',' ∉ text.toList) : commaList text = [text] := by
  rw [commaList_of_not_mem absent, trimmed, if_neg visible]

/-- Texts without commas list together what is left of them, blank ones apart. -/
theorem flatMap_commaList_of_not_mem {texts : List String}
    (free : ∀ text ∈ texts, ',' ∉ text.toList) :
    texts.flatMap commaList = (texts.map trim).filter (· ≠ "") := by
  induction texts with
  | nil => rfl
  | cons text rest ih =>
      rw [List.forall_mem_cons] at free
      rw [List.flatMap_cons, commaList_of_not_mem free.1, ih free.2, List.map_cons]
      by_cases blank : trim text = ""
      · rw [if_pos blank, List.nil_append, List.filter_cons_of_neg (by simp [blank])]
      · rw [if_neg blank, List.filter_cons_of_pos (by simpa using blank), List.singleton_append]

/-- Texts joined by commas list together what each of them lists. -/
theorem commaList_intercalate (texts : List String) :
    commaList (",".intercalate texts) = texts.flatMap commaList := by
  have comma : ",".toList = [','] := by decide
  rw [commaList, String.toList_intercalate, comma, items_intercalate, List.flatMap_map,
    List.map_flatMap]
  rfl

/-- Names are what they list together exactly when each of them lists itself. -/
theorem eq_flatMap_commaList_iff {names : List String} :
    names = names.flatMap commaList ↔ ∀ name ∈ names, commaList name = [name] := by
  constructor
  · intro same name member
    rw [same] at member
    rcases List.mem_flatMap.mp member with ⟨text, _, listed⟩
    exact commaList_of_mem listed
  · intro each
    rw [List.flatMap_congr each, List.flatMap_singleton']

end Text
end LayeredConfig

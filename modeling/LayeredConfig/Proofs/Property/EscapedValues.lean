import LayeredConfig.Proofs.Property.Writing

namespace LayeredConfig
namespace Property
namespace LineFormat

open Text

/-!
# Values written without quotes

A value may stand without quotes when there is a backslash before each backslash
and each blank of it.  Blanks around a value are passed over before backslashes
are taken away.  So a blank that ends the value and is written as itself is passed
over in spite of its backslash, which then stands before nothing and is dropped.
All other characters are read back, blanks at the start included.
-/

/-- The characters that have a meaning of their own in a value without quotes. -/
def isSpecialInValue (c : Char) : Bool :=
  c == '\\' || isBlank c

/-- The line of one property whose value stands without quotes. -/
def writeBare (key value : String) : List Char :=
  escape isSpecialInKey key.toList ++ '=' :: escape isSpecialInValue value.toList

/-- Whether the text ends in a blank for which no letter is written. -/
def endsInBareBlank (cs : List Char) : Bool :=
  cs.getLast?.any fun c => isBlank c && escapeLetter c == c

/-- The text begins and ends with the same quote. -/
def InQuotes (cs : List Char) : Prop :=
  ∃ quote ∈ ['"', '\''], cs.head? = some quote ∧ cs.getLast? = some quote

instance (cs : List Char) : Decidable (InQuotes cs) :=
  List.decidableBEx (fun quote => cs.head? = some quote ∧ cs.getLast? = some quote) ['"', '\'']

theorem escapes_value : Escapes isSpecialInValue :=
  escapes_of_not_mem (by decide) (by decide)

/-! ## The blanks around a value -/

/-- A letter is written for a blank, or else a character is written as itself. -/
theorem isBlank_escapeLetter (c : Char) :
    isBlank (escapeLetter c) = (isBlank c && escapeLetter c == c) := by
  unfold escapeLetter
  split
  · decide
  · decide
  · decide
  · decide
  · rw [beq_self_eq_true, Bool.and_true]

theorem escape_concat {special : Char → Bool} (cs : List Char) (c : Char) :
    escape special (cs ++ [c]) =
      escape special cs ++ if special c then ['\\', escapeLetter c] else [c] := by
  rw [escape, List.flatMap_append, List.flatMap_singleton, escape]

theorem endsInBareBlank_concat (cs : List Char) (c : Char) :
    endsInBareBlank (cs ++ [c]) = isBlank (escapeLetter c) := by
  rw [endsInBareBlank, List.getLast?_concat, Option.any_some, isBlank_escapeLetter]

theorem trimLeft_escape (cs : List Char) :
    trimLeft (escape isSpecialInValue cs) = escape isSpecialInValue cs := by
  cases cs with
  | nil => rfl
  | cons c tail =>
      rw [escape_cons, trimLeft]
      cases marked : isSpecialInValue c with
      | true => exact List.dropWhile_cons_of_neg (by decide)
      | false =>
          rw [isSpecialInValue, Bool.or_eq_false_iff] at marked
          exact List.dropWhile_cons_of_neg (by simp [marked.2])

theorem trimRight_concat (cs : List Char) (c : Char) :
    trimRight (cs ++ [c]) = if isBlank c then trimRight cs else cs ++ [c] := by
  rw [trimRight, List.reverse_concat, List.dropWhile_cons]
  split
  · rw [trimRight]
  · rw [List.reverse_cons, List.reverse_reverse]

/-- Only a blank at the end that is written as itself is passed over. -/
theorem trimBoth_escape (cs : List Char) :
    trimBoth (escape isSpecialInValue cs) =
      if endsInBareBlank cs then escape isSpecialInValue cs.dropLast ++ ['\\']
      else escape isSpecialInValue cs := by
  rw [trimBoth, trimLeft_escape]
  rcases List.eq_nil_or_concat cs with rfl | ⟨init, c, rfl⟩
  · rfl
  · rw [List.concat_eq_append, endsInBareBlank_concat, escape_concat, List.dropLast_concat]
    cases marked : isSpecialInValue c with
    | true =>
        have backslash : isBlank '\\' = false := by decide
        have pair : escape isSpecialInValue init ++ ['\\', escapeLetter c] =
            escape isSpecialInValue init ++ ['\\'] ++ [escapeLetter c] := by simp
        rw [if_pos rfl, pair, trimRight_concat, trimRight_concat, backslash]
        rfl
    | false =>
        rw [isSpecialInValue, Bool.or_eq_false_iff] at marked
        have visible : isBlank (escapeLetter c) = false := by
          rw [isBlank_escapeLetter, marked.2, Bool.false_and]
        rw [if_neg Bool.false_ne_true, trimRight_concat, marked.2, visible]
        rfl

/-! ## The value read back -/

theorem readValue_escape (cs : List Char) :
    readValue (escape isSpecialInValue cs) =
      unquote (if endsInBareBlank cs then cs.dropLast else cs) := by
  rw [readValue, trimBoth_escape]
  split
  · rw [unescapeAll_escape escapes_value, unescapeAll, List.append_nil]
  · have whole := unescapeAll_escape escapes_value cs []
    rw [List.append_nil, unescapeAll, List.append_nil] at whole
    rw [whole]

theorem unquote_of_not_inQuotes {cs : List Char} (bare : ¬ InQuotes cs) : unquote cs = cs := by
  fun_cases unquote cs with
  | case1 => rfl
  | case2 c => rfl
  | case3 first second rest quoted =>
      simp only [Bool.and_eq_true, Bool.or_eq_true, decide_eq_true_eq] at quoted
      refine absurd ⟨first, by simpa using quoted.1, rfl, ?_⟩ bare
      rw [List.getLast?_cons_cons]
      exact quoted.2
  | case4 first second rest _ => rfl

theorem length_unquote_le (cs : List Char) : (unquote cs).length ≤ cs.length := by
  fun_cases unquote cs with
  | case1 => exact Nat.le_refl _
  | case2 c => exact Nat.le_refl _
  | case3 first second rest _ =>
      rw [List.length_dropLast]
      exact Nat.le_trans (Nat.sub_le _ _) (Nat.le_succ _)
  | case4 first second rest _ => exact Nat.le_refl _

/-! ## The line -/

/-- A backslash more at the end turns it round whether the line goes on. -/
theorem continues_concat (cs : List Char) (c : Char) :
    continues (cs ++ [c]) = if c = '\\' then !continues cs else false := by
  rw [continues, List.reverse_concat, List.takeWhile_cons, continues]
  split
  · next backslash =>
      rw [if_pos (beq_iff_eq.mp backslash), List.length_cons]
      rcases Nat.mod_two_eq_zero_or_one
          (cs.reverse.takeWhile fun c => c == '\\').length with even | odd
      · simp [even, Nat.add_mod]
      · simp [odd, Nat.add_mod]
  · next other =>
      rw [if_neg fun same => other (beq_iff_eq.mpr same)]
      rfl

/-- The backslashes of a written value stand two by two or before another character. -/
theorem continues_append_escape {special : Char → Bool} (escapes : Escapes special)
    {before : List Char} (ends : continues before = false) (cs : List Char) :
    continues (before ++ escape special cs) = false := by
  induction cs using List.reverseRecOn with
  | nil => rwa [escape, List.flatMap_nil, List.append_nil]
  | append_singleton init c ih =>
      rw [escape_concat, ← List.append_assoc]
      cases marked : special c with
      | true =>
          have pair : before ++ escape special init ++ ['\\', escapeLetter c] =
              before ++ escape special init ++ ['\\'] ++ [escapeLetter c] := by simp
          rw [if_pos rfl, pair, continues_concat, continues_concat, ih]
          split <;> rfl
      | false =>
          have plain : c ≠ '\\' := by
            rintro rfl
            exact Bool.false_ne_true (marked.symm.trans escapes.backslash)
          rw [if_neg Bool.false_ne_true, continues_concat, if_neg plain]

theorem continues_writeBare (key value : String) : continues (writeBare key value) = false := by
  have ends : continues (escape isSpecialInKey key.toList ++ ['=']) = false := by
    rw [continues_concat, if_neg (by decide)]
  rw [writeBare, List.append_cons]
  exact continues_append_escape escapes_value ends value.toList

theorem not_mem_writeBare {other : Char} (ends : other = '\n' ∨ other = '\r')
    (key value : String) : other ∉ writeBare key value := by
  have inKey := not_mem_escape ends
    (show isSpecialInKey other = true by rcases ends with rfl | rfl <;> decide) key.toList
  have inValue := not_mem_escape ends
    (show isSpecialInValue other = true by rcases ends with rfl | rfl <;> decide) value.toList
  have inSign : other ≠ '=' := by rcases ends with rfl | rfl <;> decide
  simp [writeBare, inKey, inValue, inSign]

theorem isLine_writeBare (key value : String) : IsLine (writeBare key value) where
  unbroken := not_mem_writeBare (.inl rfl) key value
  uncut := fun last => not_mem_writeBare (.inr rfl) key value (List.mem_of_getLast? last)

theorem readPairs_writeBare (key value : String) {ending : List Char}
    (ended : ending = [] ∨ ending = ['\n']) :
    readPairs (writeBare key value ++ ending) =
      [(key, String.ofList (readValue (escape isSpecialInValue value.toList)))] := by
  have whole := isLine_writeBare key value
  have cut : lines (writeBare key value ++ ending) = [writeBare key value] := by
    rcases ended with rfl | rfl
    · rw [List.append_nil, lines_of_isLine whole (by simp [writeBare])]
    · rw [lines_append_newline whole, lines]
  have joined : joinLines none [writeBare key value] = [writeBare key value] :=
    joinLines_of_whole (List.forall_mem_singleton.mpr (continues_writeBare key value))
  rw [readPairs, cut, joined, List.filterMap_cons, writeBare, readLine_key, List.filterMap_nil,
    String.ofList_toList]

theorem readLine_writeBare {key value : String} (bare : ¬ InQuotes value.toList)
    (kept : endsInBareBlank value.toList = false) :
    readLine (writeBare key value) = some (key, value) := by
  rw [writeBare, readLine_key, readValue_escape, kept, if_neg Bool.false_ne_true,
    unquote_of_not_inQuotes bare, String.ofList_toList, String.ofList_toList]

/-- Properties on lines of their own are read back together when each is read back by itself. -/
theorem readPairs_bareLines {pairs : List (String × String)}
    (intact : ∀ pair ∈ pairs, readLine (writeBare pair.1 pair.2) = some pair) :
    readPairs (pairs.flatMap fun pair => writeBare pair.1 pair.2 ++ ['\n']) = pairs := by
  have written : (pairs.flatMap fun pair => writeBare pair.1 pair.2 ++ ['\n']) =
      (pairs.map fun pair => writeBare pair.1 pair.2).flatMap fun line => line ++ ['\n'] := by
    rw [List.flatMap_map]
  have cut : lines (pairs.flatMap fun pair => writeBare pair.1 pair.2 ++ ['\n']) =
      pairs.map fun pair => writeBare pair.1 pair.2 := by
    rw [written]
    refine lines_flatMap fun line member => ?_
    rcases List.mem_map.mp member with ⟨pair, _, rfl⟩
    exact isLine_writeBare pair.1 pair.2
  have joined : joinLines none (pairs.map fun pair => writeBare pair.1 pair.2) =
      pairs.map fun pair => writeBare pair.1 pair.2 := by
    refine joinLines_of_whole fun line member => ?_
    rcases List.mem_map.mp member with ⟨pair, _, rfl⟩
    exact continues_writeBare pair.1 pair.2
  have read : pairs.filterMap (readLine ∘ fun pair => writeBare pair.1 pair.2) =
      pairs.filterMap some := List.filterMap_congr intact
  rw [readPairs, cut, joined, List.filterMap_map, read, List.filterMap_some]

/-! ## Main result -/

/-- A property whose value stands without quotes is read back alone and under its key, and with
its value exactly when that does not end in a blank written as itself; then that blank is lost. -/
theorem bare_value_intact_iff (key value : String) {ending : String}
    (ended : ending = "" ∨ ending = "\n") (bare : ¬ InQuotes value.toList) :
    ((parse (String.ofList (writeBare key value) ++ ending)).get? key = some value ↔
      endsInBareBlank value.toList = false) ∧
    (parse (String.ofList (writeBare key value) ++ ending)).entries =
      [(key, if endsInBareBlank value.toList then
        String.ofList (unquote value.toList.dropLast) else value)] := by
  have ends : ending.toList = [] ∨ ending.toList = ['\n'] := by
    rcases ended with rfl | rfl
    · exact .inl (by decide)
    · exact .inr (by decide)
  have entries : (parse (String.ofList (writeBare key value) ++ ending)).entries =
      [(key, if endsInBareBlank value.toList then
        String.ofList (unquote value.toList.dropLast) else value)] := by
    rw [parse, String.toList_append, String.toList_ofList, readPairs_writeBare key value ends,
      readValue_escape]
    split
    · rfl
    · rw [unquote_of_not_inQuotes bare, String.ofList_toList]
      rfl
  refine ⟨?_, entries⟩
  rw [KeyedList.get?_eq_some_iff, entries, List.mem_singleton, Prod.mk.injEq, eq_self, true_and]
  cases ending : endsInBareBlank value.toList with
  | false => simp
  | true =>
      refine iff_of_false (fun same => ?_) (by decide)
      -- What is left is shorter than the value.
      have lengths := congrArg (fun text => text.toList.length) same
      have shorter := length_unquote_le value.toList.dropLast
      have visible : value.toList ≠ [] := by
        intro nothing
        rw [nothing] at ending
        cases ending
      have positive := List.length_pos_iff.mpr visible
      simp only [if_true, String.toList_ofList] at lengths
      rw [List.length_dropLast] at shorter
      omega

/-- A tab at the end is read back, as a letter is written for it; a space is not. -/
theorem bare_value_intact_iff_spaced :
    ¬ InQuotes " a b\t".toList ∧ (parse "k=\\ a\\ b\\t\n").get? "k" = some " a b\t" ∧
      ¬ InQuotes " a ".toList ∧ (parse "k=\\ a\\ ").get? "k" ≠ some " a " := by
  have tabBare : ¬ InQuotes " a b\t".toList := by decide
  have spaceBare : ¬ InQuotes " a ".toList := by decide
  have tab := bare_value_intact_iff "k" " a b\t" (.inr rfl) tabBare
  have space := bare_value_intact_iff "k" " a " (.inl rfl) spaceBare
  exact ⟨tabBare, tab.1.mpr (by decide), spaceBare, space.1.not.mpr (by decide)⟩

/-- A space at the end of a value is lost although a backslash stands before it. -/
theorem last_blank_lost :
    ¬ InQuotes "a ".toList ∧ writeBare "k" "a " = "k=a\\ ".toList ∧
      (parse "k=a\\ ").get? "k" = some "a" := by
  exact ⟨by decide, by decide, by decide⟩

end LineFormat
end Property
end LayeredConfig

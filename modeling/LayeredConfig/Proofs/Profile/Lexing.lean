import LayeredConfig.Profile.Expression
import Mathlib.Data.List.Chain
import Mathlib.Data.List.TakeWhile

namespace LayeredConfig
namespace Profile
namespace Expression

/-!
# The tokens of a profile expression

A text is cut into tokens in one way: five characters are tokens by themselves,
blanks count for nothing, and names are the longest runs of all other characters.
Tokens can be spelled with any blanks between them, as long as no two names meet.
-/

/-- A text that can be the name of a profile in an expression. -/
structure IsName (text : List Char) : Prop where
  nonempty : text ≠ []
  named : ∀ c ∈ text, c ∉ ['!', '&', '|', '(', ')'] ∧ Text.isBlank c = false

/-- The characters of a token. -/
def Token.spelling : Token → List Char
  | name text => text.toList
  | not => ['!']
  | and => ['&']
  | or => ['|']
  | opening => ['(']
  | closing => [')']

def Token.IsSymbol (token : Token) : Prop :=
  ∀ text, token ≠ .name text

/-- How a text is cut into tokens. -/
inductive Lexed : List Char → List Token → Prop where
  | nil : Lexed [] []
  | blank {c : Char} {rest : List Char} {tokens : List Token} (white : Text.isBlank c = true)
      (others : Lexed rest tokens) : Lexed (c :: rest) tokens
  | symbol {token : Token} {rest : List Char} {tokens : List Token} (symbol : token.IsSymbol)
      (others : Lexed rest tokens) : Lexed (token.spelling ++ rest) (token :: tokens)
  | name {text : String} {rest : List Char} {tokens : List Token} (valid : IsName text.toList)
      (longest : ∀ c, rest.head? = some c → ¬ IsName [c]) (others : Lexed rest tokens) :
      Lexed (text.toList ++ rest) (.name text :: tokens)

theorem symbol?_eq_none_iff (c : Char) :
    symbol? c = none ↔ c ∉ ['!', '&', '|', '(', ')'] := by
  unfold symbol?
  split <;> simp_all

theorem isNameChar_iff (c : Char) :
    isNameChar c = true ↔ c ∉ ['!', '&', '|', '(', ')'] ∧ Text.isBlank c = false := by
  rw [isNameChar, Bool.and_eq_true, Option.isNone_iff_eq_none, symbol?_eq_none_iff,
    Bool.not_eq_true']

theorem symbol?_of_isBlank {c : Char} (white : Text.isBlank c = true) : symbol? c = none := by
  rw [symbol?_eq_none_iff]
  intro member
  have dark : ['!', '&', '|', '(', ')'].any Text.isBlank = false := by decide
  exact List.any_eq_false.mp dark c member white

theorem isName_singleton_iff (c : Char) : IsName [c] ↔ isNameChar c = true := by
  rw [isNameChar_iff]
  constructor
  · intro name
    exact name.named c List.mem_cons_self
  · intro named
    refine ⟨List.cons_ne_nil c [], ?_⟩
    intro d member
    rw [List.mem_singleton.mp member]
    exact named

theorem isName_iff (text : List Char) :
    IsName text ↔ text ≠ [] ∧ ∀ c ∈ text, isNameChar c = true := by
  simp only [isNameChar_iff]
  exact ⟨fun name => ⟨name.nonempty, name.named⟩, fun both => ⟨both.1, both.2⟩⟩

theorem spelling_of_symbol? {c : Char} {token : Token} (spelled : symbol? c = some token) :
    token.IsSymbol ∧ token.spelling = [c] := by
  unfold symbol? at spelled
  split at spelled <;> simp_all [Token.IsSymbol, Token.spelling]
  all_goals subst token; simp

theorem tokens_symbol {token : Token} (symbol : token.IsSymbol) (rest : List Char) :
    tokens (token.spelling ++ rest) = token :: tokens rest := by
  cases token with
  | name text => exact absurd rfl (symbol text)
  | not => simp [Token.spelling, tokens, symbol?]
  | and => simp [Token.spelling, tokens, symbol?]
  | or => simp [Token.spelling, tokens, symbol?]
  | opening => simp [Token.spelling, tokens, symbol?]
  | closing => simp [Token.spelling, tokens, symbol?]

/-! ## Cutting -/

/-- A name is read up to the first character that is not part of one. -/
theorem tokens_name {text : String} {rest : List Char} (valid : IsName text.toList)
    (longest : ∀ c, rest.head? = some c → ¬ IsName [c]) :
    tokens (text.toList ++ rest) = .name text :: tokens rest := by
  obtain ⟨nonempty, named⟩ := (isName_iff _).mp valid
  have stops : rest.takeWhile isNameChar = [] ∧ rest.dropWhile isNameChar = rest := by
    cases rest with
    | nil => exact ⟨rfl, rfl⟩
    | cons d after =>
        have ends : isNameChar d ≠ true :=
          fun goes => longest d rfl ((isName_singleton_iff d).mpr goes)
        exact ⟨List.takeWhile_cons_of_neg ends, List.dropWhile_cons_of_neg ends⟩
  cases spelled : text.toList with
  | nil => exact absurd spelled nonempty
  | cons c more =>
      rw [spelled, List.forall_mem_cons] at named
      obtain ⟨plain, visible⟩ := (isNameChar_iff c).mp named.1
      rw [List.cons_append, tokens, (symbol?_eq_none_iff c).mpr plain]
      simp only [visible, Bool.false_eq_true, if_false]
      rw [List.takeWhile_append_of_pos named.2, List.dropWhile_append_of_pos named.2, stops.1,
        stops.2, List.append_nil, ← spelled, String.ofList_toList]

theorem lexed_tokens (cs : List Char) : Lexed cs (tokens cs) := by
  fun_induction tokens cs with
  | case1 => exact .nil
  | case2 c rest token spelled ih =>
      obtain ⟨symbol, spelling⟩ := spelling_of_symbol? spelled
      rw [← List.singleton_append, ← spelling]
      exact .symbol symbol ih
  | case3 c rest plain white ih => exact .blank white ih
  | case4 c rest plain visible ih =>
      have named : isNameChar c = true :=
        (isNameChar_iff c).mpr ⟨(symbol?_eq_none_iff c).mp plain, by simpa using visible⟩
      have valid : IsName (String.ofList (c :: rest.takeWhile isNameChar)).toList := by
        rw [String.toList_ofList, isName_iff, List.forall_mem_cons]
        exact ⟨List.cons_ne_nil _ _, named, fun d member => List.mem_takeWhile_imp member⟩
      have longest : ∀ d, (rest.dropWhile isNameChar).head? = some d → ¬ IsName [d] := by
        intro d first goes
        have stops := List.head?_dropWhile_not isNameChar rest
        rw [first] at stops
        simp only [(isName_singleton_iff d).mp goes] at stops
        cases stops
      have whole : c :: rest = (String.ofList (c :: rest.takeWhile isNameChar)).toList ++
          rest.dropWhile isNameChar := by
        rw [String.toList_ofList, List.cons_append, List.takeWhile_append_dropWhile]
      rw [whole]
      exact .name valid longest ih

/-- Every text is cut into tokens in exactly one way. -/
theorem lexed_iff {cs : List Char} {found : List Token} : Lexed cs found ↔ tokens cs = found := by
  constructor
  · intro lexed
    induction lexed with
    | nil => rw [tokens]
    | blank white others ih =>
        rw [tokens, symbol?_of_isBlank white]
        simp only [white, if_true, ih]
    | symbol symbol others ih => rw [tokens_symbol symbol, ih]
    | name valid longest others ih => rw [tokens_name valid longest, ih]
  · rintro rfl
    exact lexed_tokens cs

/-! ## Spelling -/

/-- The tokens spelled one after the other, with some blanks before each of them and at the end. -/
def spell (blanks : Nat → List Char) : List Token → List Char
  | [] => blanks 0
  | token :: rest => blanks 0 ++ (token.spelling ++ spell (fun index => blanks (index + 1)) rest)

/-- No two names stand next to each other. -/
abbrev Apart (tokens : List Token) : Prop :=
  tokens.IsChain fun first second => first.IsSymbol ∨ second.IsSymbol

theorem Lexed.blanks {white cs : List Char} {tokens : List Token}
    (blank : ∀ c ∈ white, Text.isBlank c = true) (lexed : Lexed cs tokens) :
    Lexed (white ++ cs) tokens := by
  induction white with
  | nil => exact lexed
  | cons c rest ih =>
      rw [List.forall_mem_cons] at blank
      exact .blank blank.1 (ih blank.2)

/-- What is spelled after a name goes on with no character of a name. -/
theorem not_isName_of_head_spell {blanks : Nat → List Char} {tokens : List Token}
    (white : ∀ index, ∀ c ∈ blanks index, Text.isBlank c = true)
    (symbol : ∀ token, tokens.head? = some token → token.IsSymbol) {c : Char}
    (first : (spell blanks tokens).head? = some c) : ¬ IsName [c] := by
  intro name
  obtain ⟨plain, visible⟩ := name.named c List.mem_cons_self
  cases before : blanks 0 with
  | cons d more =>
      have same : d = c := by
        cases tokens <;> simpa [spell, before] using first
      have blank := white 0 d (before ▸ List.mem_cons_self)
      rw [same, visible] at blank
      cases blank
  | nil =>
      cases tokens with
      | nil => simp [spell, before] at first
      | cons token rest =>
          rw [spell, before, List.nil_append] at first
          have marks := symbol token rfl
          cases token with
          | name text => exact marks text rfl
          | _ =>
              rw [Token.spelling, List.singleton_append, List.head?_cons,
                Option.some.injEq] at first
              exact plain (first ▸ by decide)

/-- Tokens are read back from their spelling, whatever the blanks between them. -/
theorem lexed_spell {blanks : Nat → List Char} {tokens : List Token}
    (white : ∀ index, ∀ c ∈ blanks index, Text.isBlank c = true)
    (valid : ∀ text, Token.name text ∈ tokens → IsName text.toList) (apart : Apart tokens) :
    Lexed (spell blanks tokens) tokens := by
  induction tokens generalizing blanks with
  | nil =>
      have last := Lexed.nil.blanks (white 0)
      rwa [List.append_nil] at last
  | cons token rest ih =>
      have others := ih (fun index => white (index + 1))
        (fun text member => valid text (List.mem_cons_of_mem _ member)) apart.tail
      refine Lexed.blanks (white 0) ?_
      by_cases symbol : token.IsSymbol
      · exact .symbol symbol others
      · cases token with
        | name text =>
            refine .name (valid text List.mem_cons_self) ?_ others
            intro c first
            refine not_isName_of_head_spell (fun index => white (index + 1)) ?_ first
            intro next follows
            cases rest with
            | nil => cases follows
            | cons head tail =>
                cases follows
                exact (List.isChain_cons_cons.mp apart).1.resolve_left symbol
        | _ => exact absurd (fun text => Token.noConfusion) symbol

end Expression
end Profile
end LayeredConfig

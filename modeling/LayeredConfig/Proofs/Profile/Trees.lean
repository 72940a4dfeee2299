import LayeredConfig.Proofs.Profile.Grammar

namespace LayeredConfig
namespace Profile
namespace Expression

/-!
# Trees and their texts

What the grammar derives is a tree whose conjunctions and disjunctions have at
least two parts and whose names can be read.  Every such tree has a written form,
in which conjunctions and disjunctions inside others stand in parentheses, and it
is read back from that form with any blanks between the tokens.
-/

/-- A tree in which conjunctions and disjunctions have at least two parts, and names can be
read. -/
inductive Proper : Expression → Prop where
  | name {text : String} (valid : IsName text.toList) : Proper (.name text)
  | not {inner : Expression} (proper : Proper inner) : Proper (.not inner)
  | all {parts : List Expression} (several : 2 ≤ parts.length)
      (each : ∀ part ∈ parts, Proper part) : Proper (.all parts)
  | any {parts : List Expression} (several : 2 ≤ parts.length)
      (each : ∀ part ∈ parts, Proper part) : Proper (.any parts)

theorem proper_all_iff {parts : List Expression} :
    Proper (.all parts) ↔ 2 ≤ parts.length ∧ ∀ part ∈ parts, Proper part :=
  ⟨fun | .all several each => ⟨several, each⟩, fun both => .all both.1 both.2⟩

theorem proper_any_iff {parts : List Expression} :
    Proper (.any parts) ↔ 2 ≤ parts.length ∧ ∀ part ∈ parts, Proper part :=
  ⟨fun | .any several each => ⟨several, each⟩, fun both => .any both.1 both.2⟩

/-! ## What the grammar derives -/

/-- The names among the tokens can be read. -/
def NamesValid (tokens : List Token) : Prop :=
  ∀ text, Token.name text ∈ tokens → IsName text.toList

theorem namesValid_append_iff {first rest : List Token} :
    NamesValid (first ++ rest) ↔ NamesValid first ∧ NamesValid rest := by
  simp only [NamesValid, List.mem_append, or_imp, forall_and]

theorem namesValid_cons_iff {token : Token} (symbol : token.IsSymbol) {tokens : List Token} :
    NamesValid (token :: tokens) ↔ NamesValid tokens := by
  simp only [NamesValid, List.mem_cons]
  exact forall_congr' fun text => by simp [(symbol text).symm]

mutual

/-- The names of a tree can be read when those among its tokens can. -/
theorem Unary.namesValid_iff {tokens : List Token} {expression : Expression} :
    Unary tokens expression → (NamesValid tokens ↔ Proper expression)
  | .name text => by
      constructor
      · intro valid
        exact .name (valid text List.mem_cons_self)
      · rintro ⟨valid⟩ other member
        cases List.mem_singleton.mp member
        exact valid
  | .not negated => by
      rw [namesValid_cons_iff fun _ => Token.noConfusion, negated.namesValid_iff]
      exact ⟨.not, fun | .not proper => proper⟩
  | .group enclosed => by
      rw [namesValid_cons_iff fun _ => Token.noConfusion, namesValid_append_iff,
        namesValid_cons_iff fun _ => Token.noConfusion, enclosed.namesValid_iff]
      exact and_iff_left fun _ member => nomatch member

theorem Spells.namesValid_iff {tokens : List Token} {expression : Expression} :
    Spells tokens expression → (NamesValid tokens ↔ Proper expression)
  | .single operand => operand.namesValid_iff
  | .all operand following => by
      have others := following.namesValid_iff fun _ => Token.noConfusion
      rw [namesValid_append_iff, operand.namesValid_iff, others.2, proper_all_iff,
        List.forall_mem_cons]
      exact (and_iff_right (Nat.succ_le_succ others.1)).symm
  | .any operand following => by
      have others := following.namesValid_iff fun _ => Token.noConfusion
      rw [namesValid_append_iff, operand.namesValid_iff, others.2, proper_any_iff,
        List.forall_mem_cons]
      exact (and_iff_right (Nat.succ_le_succ others.1)).symm

theorem Operands.namesValid_iff {operator : Token} {tokens : List Token}
    {parts : List Expression} :
    Operands operator tokens parts → operator.IsSymbol →
      1 ≤ parts.length ∧ (NamesValid tokens ↔ ∀ part ∈ parts, Proper part)
  | .last operand, symbol => by
      rw [namesValid_cons_iff symbol, operand.namesValid_iff, List.forall_mem_singleton]
      exact ⟨Nat.le_refl 1, Iff.rfl⟩
  | .more operand following, symbol => by
      rw [namesValid_cons_iff symbol, namesValid_append_iff, operand.namesValid_iff,
        (following.namesValid_iff symbol).2, List.forall_mem_cons]
      exact ⟨Nat.succ_le_succ (Nat.zero_le _), Iff.rfl⟩

end

theorem namesValid_of_lexed {cs : List Char} {tokens : List Token} (lexed : Lexed cs tokens) :
    NamesValid tokens := by
  induction lexed with
  | nil => exact fun _ member => nomatch member
  | blank _ _ ih => exact ih
  | symbol symbol _ ih => exact (namesValid_cons_iff symbol).mpr ih
  | name valid _ _ ih =>
      intro other member
      rcases List.mem_cons.mp member with same | later
      · cases same
        exact valid
      · exact ih other later

/-! ## Names stand apart -/

theorem apart_cons_symbol {token : Token} (symbol : token.IsSymbol) {tokens : List Token}
    (apart : Apart tokens) : Apart (token :: tokens) :=
  List.isChain_cons.mpr ⟨fun _ _ => .inl symbol, apart⟩

theorem Apart.append_symbol {first rest : List Token} {token : Token} (left : Apart first)
    (symbol : token.IsSymbol) (right : Apart (token :: rest)) :
    Apart (first ++ token :: rest) := by
  refine List.isChain_append.mpr ⟨left, right, ?_⟩
  intro _ _ next follows
  cases follows
  exact .inr symbol

mutual

theorem Unary.apart {tokens : List Token} {expression : Expression} :
    Unary tokens expression → Apart tokens
  | .name text => List.isChain_singleton _
  | .not negated => apart_cons_symbol (fun _ => Token.noConfusion) negated.apart
  | .group enclosed =>
      apart_cons_symbol (fun _ => Token.noConfusion)
        (enclosed.apart.append_symbol (fun _ => Token.noConfusion) (List.isChain_singleton _))

theorem Spells.apart {tokens : List Token} {expression : Expression} :
    Spells tokens expression → Apart tokens
  | .single operand => operand.apart
  | .all operand following => by
      rcases following.apart fun _ => Token.noConfusion with ⟨tail, rfl, others⟩
      exact operand.apart.append_symbol (fun _ => Token.noConfusion) others
  | .any operand following => by
      rcases following.apart fun _ => Token.noConfusion with ⟨tail, rfl, others⟩
      exact operand.apart.append_symbol (fun _ => Token.noConfusion) others

theorem Operands.apart {operator : Token} {tokens : List Token} {parts : List Expression} :
    Operands operator tokens parts → operator.IsSymbol →
      ∃ tail, tokens = operator :: tail ∧ Apart tokens
  | .last operand, symbol => ⟨_, rfl, apart_cons_symbol symbol operand.apart⟩
  | .more operand following, symbol => by
      rcases following.apart symbol with ⟨tail, rfl, others⟩
      exact ⟨_, rfl, apart_cons_symbol symbol (operand.apart.append_symbol symbol others)⟩

end

/-! ## The written form of a tree -/

mutual

/-- The tokens of a tree that is an operand. -/
def operandTokens : Expression → List Token
  | name text => [.name text]
  | not inner => .not :: operandTokens inner
  | all parts => .opening :: (joined .and parts ++ [.closing])
  | any parts => .opening :: (joined .or parts ++ [.closing])

/-- The tokens of operands with an operator between them. -/
def joined (operator : Token) : List Expression → List Token
  | [] => []
  | [only] => operandTokens only
  | first :: second :: rest => operandTokens first ++ operator :: joined operator (second :: rest)

end

/-- The tokens of a tree. -/
def written : Expression → List Token
  | all parts => joined .and parts
  | any parts => joined .or parts
  | other => operandTokens other

theorem operands_joined (operator : Token) {parts : List Expression} (nonempty : parts ≠ [])
    (each : ∀ part ∈ parts, Unary (operandTokens part) part) :
    Operands operator (operator :: joined operator parts) parts := by
  induction parts with
  | nil => exact absurd rfl nonempty
  | cons first rest ih =>
      rw [List.forall_mem_cons] at each
      cases rest with
      | nil =>
          rw [joined]
          exact .last each.1
      | cons second more =>
          rw [joined]
          exact .more each.1 (ih (List.cons_ne_nil _ _) each.2)

theorem exists_split_joined (operator : Token) {parts : List Expression}
    (several : 2 ≤ parts.length) (each : ∀ part ∈ parts, Unary (operandTokens part) part) :
    ∃ first rest others, parts = first :: rest ∧
      joined operator parts = operandTokens first ++ others ∧
      Unary (operandTokens first) first ∧ Operands operator others rest := by
  match parts, several with
  | first :: second :: more, _ =>
      rw [List.forall_mem_cons] at each
      refine ⟨first, second :: more, _, rfl, by rw [joined], each.1, ?_⟩
      exact operands_joined operator (List.cons_ne_nil _ _) each.2

theorem spells_joined_and {parts : List Expression} (several : 2 ≤ parts.length)
    (each : ∀ part ∈ parts, Unary (operandTokens part) part) :
    Spells (joined .and parts) (.all parts) := by
  rcases exists_split_joined .and several each with ⟨first, rest, others, rfl, split, operand, more⟩
  rw [split]
  exact .all operand more

theorem spells_joined_or {parts : List Expression} (several : 2 ≤ parts.length)
    (each : ∀ part ∈ parts, Unary (operandTokens part) part) :
    Spells (joined .or parts) (.any parts) := by
  rcases exists_split_joined .or several each with ⟨first, rest, others, rfl, split, operand, more⟩
  rw [split]
  exact .any operand more

theorem unary_operandTokens {expression : Expression} (proper : Proper expression) :
    Unary (operandTokens expression) expression := by
  induction proper with
  | name valid =>
      rw [operandTokens]
      exact .name _
  | not _ ih =>
      rw [operandTokens]
      exact .not ih
  | all several _ ih =>
      rw [operandTokens]
      exact .group (spells_joined_and several ih)
  | any several _ ih =>
      rw [operandTokens]
      exact .group (spells_joined_or several ih)

theorem spells_written {expression : Expression} (proper : Proper expression) :
    Spells (written expression) expression := by
  cases proper with
  | name valid => exact .single (unary_operandTokens (.name valid))
  | not inner => exact .single (unary_operandTokens (.not inner))
  | all several each =>
      exact spells_joined_and several fun part member => unary_operandTokens (each part member)
  | any several each =>
      exact spells_joined_or several fun part member => unary_operandTokens (each part member)

/-! ## Reading a text -/

/-- The reader accepts a text exactly when the grammar derives its tokens, and gives the tree that
they spell.  Every tree with names that can be read and with at least two parts in each conjunction
and disjunction is read back from its written form, whatever the blanks between the tokens; no
other tree is ever read. -/
theorem parse_accepts_grammar :
    (∀ text expression, parse text = .ok expression ↔
        ∃ tokens, Lexed text.toList tokens ∧ Spells tokens expression) ∧
      (∀ expression, Proper expression → ∀ blanks : Nat → List Char,
        (∀ index, ∀ c ∈ blanks index, Text.isBlank c = true) →
          parse (String.ofList (spell blanks (written expression))) = .ok expression) ∧
      ∀ text expression, parse text = .ok expression → Proper expression := by
  have accepted : ∀ text expression, parse text = .ok expression ↔
      ∃ tokens, Lexed text.toList tokens ∧ Spells tokens expression := by
    intro text expression
    rw [parse, ofTokens_eq_ok_iff]
    constructor
    · intro spelled
      exact ⟨_, lexed_tokens _, spelled⟩
    · rintro ⟨found, lexed, spelled⟩
      rwa [lexed_iff.mp lexed]
  refine ⟨accepted, ?_, ?_⟩
  · intro expression proper blanks white
    have spelled := spells_written proper
    refine (accepted _ _).mpr ⟨written expression, ?_, spelled⟩
    rw [String.toList_ofList]
    exact lexed_spell white (spelled.namesValid_iff.mpr proper) spelled.apart
  · intro text expression read
    rcases (accepted text expression).mp read with ⟨found, lexed, spelled⟩
    exact spelled.namesValid_iff.mp (namesValid_of_lexed lexed)

/-- A disjunction with a conjunction and a negation in it. -/
def grouped : Expression :=
  .any [.all [.name "a", .not (.name "b")], .name "c"]

theorem parse_accepts_grammar_grouped :
    Proper grouped ∧ parse "( a& !b )| c" = .ok grouped := by
  have named : ∀ text ∈ ["a", "b", "c"], IsName text.toList := by
    simp only [List.forall_mem_cons, List.not_mem_nil, false_imp_iff, implies_true, and_true]
    exact ⟨(isName_singleton_iff 'a').mpr (by decide), (isName_singleton_iff 'b').mpr (by decide),
      (isName_singleton_iff 'c').mpr (by decide)⟩
  have proper : Proper grouped := by
    refine .any (by decide) ?_
    simp only [List.forall_mem_cons, List.not_mem_nil, false_imp_iff, implies_true, and_true]
    refine ⟨.all (by decide) ?_, .name (named _ (by decide))⟩
    simp only [List.forall_mem_cons, List.not_mem_nil, false_imp_iff, implies_true, and_true]
    exact ⟨.name (named _ (by decide)), .not (.name (named _ (by decide)))⟩
  refine ⟨proper, ?_⟩
  have text : "( a& !b )| c" =
      String.ofList (spell (fun index => if index % 2 = 0 then [] else [' ']) (written grouped)) := by
    decide
  rw [text]
  refine parse_accepts_grammar.2.1 grouped proper _ ?_
  intro index c member
  split at member
  · cases member
  · cases List.mem_singleton.mp member
    decide

end Expression
end Profile
end LayeredConfig

import LayeredConfig.Proofs.Profile.Lexing
import LayeredConfig.Proofs.Traversal

namespace LayeredConfig
namespace Profile
namespace Expression

/-!
# The grammar of profile expressions

An expression is a single operand, or several of them joined by `&` alone or by
`|` alone; an operand is a name, a negation or an expression in parentheses.  The
reader accepts the token lists of this grammar and no others, and gives the tree
that their derivation spells.
-/

mutual

/-- What the tokens of an operand spell. -/
inductive Unary : List Token → Expression → Prop where
  | name (text : String) : Unary [.name text] (.name text)
  | not {tokens : List Token} {inner : Expression} (negated : Unary tokens inner) :
      Unary (.not :: tokens) (.not inner)
  | group {tokens : List Token} {inner : Expression} (enclosed : Spells tokens inner) :
      Unary (.opening :: (tokens ++ [.closing])) inner

/-- What the tokens of an expression spell. -/
inductive Spells : List Token → Expression → Prop where
  | single {tokens : List Token} {only : Expression} (operand : Unary tokens only) :
      Spells tokens only
  | all {tokens others : List Token} {first : Expression} {parts : List Expression}
      (operand : Unary tokens first) (following : Operands .and others parts) :
      Spells (tokens ++ others) (.all (first :: parts))
  | any {tokens others : List Token} {first : Expression} {parts : List Expression}
      (operand : Unary tokens first) (following : Operands .or others parts) :
      Spells (tokens ++ others) (.any (first :: parts))

/-- Further operands, each after the same operator. -/
inductive Operands : Token → List Token → List Expression → Prop where
  | last {operator : Token} {tokens : List Token} {only : Expression}
      (operand : Unary tokens only) : Operands operator (operator :: tokens) [only]
  | more {operator : Token} {tokens others : List Token} {first : Expression}
      {parts : List Expression} (operand : Unary tokens first)
      (following : Operands operator others parts) :
      Operands operator (operator :: (tokens ++ others)) (first :: parts)

end

/-! ## What the reader does, step by step -/

section Reader

variable {Result : Type} {input : List Token}

/-- What is read and what is left, without the bound on it. -/
def plain (outcome : Except Fault (Reading Token Result input)) :
    Except Fault (Result × List Token) :=
  outcome.map fun read => (read.result, read.rest)

theorem plain_readUnary (input : List Token) :
    plain (readUnary input) =
      match input with
      | [] => .error .unexpectedEnd
      | .name text :: rest => .ok (.name text, rest)
      | .not :: rest =>
          (plain (readUnary rest)).map fun inner => (.not inner.1, inner.2)
      | .opening :: rest =>
          (plain (readExpression rest)).bind fun inner =>
            match inner.2 with
            | .closing :: after => .ok (inner.1, after)
            | _ => .error .unclosed
      | _ :: _ => .error .nameExpected := by
  cases input with
  | nil => rw [readUnary]; rfl
  | cons token rest =>
      cases token with
      | name text => rw [readUnary]; rfl
      | not =>
          rw [readUnary]
          dsimp only
          cases readUnary rest <;> rfl
      | opening =>
          rw [readUnary]
          dsimp only
          cases readExpression rest with
          | error fault => rfl
          | ok inner =>
              obtain ⟨result, remaining, shorter⟩ := inner
              cases remaining with
              | nil => rfl
              | cons next after => cases next <;> rfl
      | and | or | closing =>
          rw [readUnary]
          · rfl
          all_goals simp

theorem plain_readExpression (input : List Token) :
    plain (readExpression input) =
      (plain (readUnary input)).bind fun first =>
        match first.2 with
        | .and :: after =>
            (plain (readOperands .and .or after)).map fun others =>
              (.all (first.1 :: others.1), others.2)
        | .or :: after =>
            (plain (readOperands .or .and after)).map fun others =>
              (.any (first.1 :: others.1), others.2)
        | _ => .ok first := by
  rw [readExpression]
  cases readUnary input with
  | error fault => rfl
  | ok first =>
      obtain ⟨result, remaining, shorter⟩ := first
      cases remaining with
      | nil => rfl
      | cons next after =>
          cases next with
          | and =>
              simp only [plain, Except.map, Except.bind]
              cases readOperands .and .or after <;> rfl
          | or =>
              simp only [plain, Except.map, Except.bind]
              cases readOperands .or .and after <;> rfl
          | _ => rfl

theorem plain_readOperands (same other : Token) (input : List Token) :
    plain (readOperands same other input) =
      (plain (readUnary input)).bind fun first =>
        match first.2 with
        | [] => .ok ([first.1], [])
        | token :: after =>
            if token = other then .error .mixedOperators
            else if token = same then
              (plain (readOperands same other after)).map fun others =>
                (first.1 :: others.1, others.2)
            else .ok ([first.1], token :: after) := by
  rw [readOperands]
  cases readUnary input with
  | error fault => rfl
  | ok first =>
      obtain ⟨result, remaining, shorter⟩ := first
      cases remaining with
      | nil => rfl
      | cons next after =>
          simp only [plain, Except.map, Except.bind]
          by_cases mixed : next = other
          · rw [if_pos mixed, if_pos mixed]
          · rw [if_neg mixed, if_neg mixed]
            by_cases again : next = same
            · rw [if_pos again, if_pos again]
              cases readOperands same other after <;> rfl
            · rw [if_neg again, if_neg again]

end Reader

/-! ## What is read is spelled -/

mutual

theorem unary_of_read {input rest : List Token} {expression : Expression}
    (read : plain (readUnary input) = .ok (expression, rest)) :
    ∃ tokens, input = tokens ++ rest ∧ Unary tokens expression := by
  rw [plain_readUnary] at read
  cases input with
  | nil => cases read
  | cons token following =>
      cases token with
      | name text =>
          cases read
          exact ⟨[.name text], rfl, .name text⟩
      | not =>
          rcases Traversal.map_eq_ok_iff.mp read with ⟨⟨inner, left⟩, found, same⟩
          cases same
          rcases unary_of_read found with ⟨tokens, split, negated⟩
          exact ⟨.not :: tokens, by rw [split, List.cons_append], .not negated⟩
      | opening =>
          rcases Traversal.bind_eq_ok_iff.mp read with ⟨⟨inner, left⟩, found, closed⟩
          rcases spells_of_read found with ⟨tokens, split, enclosed⟩
          split at closed
          · next after follows =>
              cases closed
              simp only at follows
              refine ⟨.opening :: (tokens ++ [.closing]), ?_, .group enclosed⟩
              rw [split, follows, List.cons_append, List.append_assoc, List.singleton_append]
          · cases closed
      | and => cases read
      | or => cases read
      | closing => cases read
termination_by (input.length, 0)

theorem spells_of_read {input rest : List Token} {expression : Expression}
    (read : plain (readExpression input) = .ok (expression, rest)) :
    ∃ tokens, input = tokens ++ rest ∧ Spells tokens expression := by
  rw [plain_readExpression] at read
  rcases Traversal.bind_eq_ok_iff.mp read with ⟨⟨first, left⟩, found, continued⟩
  rcases unary_of_read found with ⟨tokens, split, operand⟩
  dsimp only at continued
  split at continued
  · rcases Traversal.map_eq_ok_iff.mp continued with ⟨⟨parts, after⟩, others, same⟩
    cases same
    rcases operands_of_read others with ⟨more, splitMore, following⟩
    exact ⟨_, by rw [split, splitMore, List.append_assoc, List.cons_append],
      .all operand following⟩
  · rcases Traversal.map_eq_ok_iff.mp continued with ⟨⟨parts, after⟩, others, same⟩
    cases same
    rcases operands_of_read others with ⟨more, splitMore, following⟩
    exact ⟨_, by rw [split, splitMore, List.append_assoc, List.cons_append],
      .any operand following⟩
  · cases continued
    exact ⟨tokens, split, .single operand⟩
termination_by (input.length, 1)
decreasing_by
  · exact Prod.Lex.right _ Nat.zero_lt_one
  · simp only [split, List.length_append, List.length_cons]
    exact Prod.Lex.left _ _ (by omega)
  · simp only [split, List.length_append, List.length_cons]
    exact Prod.Lex.left _ _ (by omega)

theorem operands_of_read {same other : Token} {input rest : List Token} {parts : List Expression}
    (read : plain (readOperands same other input) = .ok (parts, rest)) :
    ∃ tokens, input = tokens ++ rest ∧ Operands same (same :: tokens) parts := by
  rw [plain_readOperands] at read
  rcases Traversal.bind_eq_ok_iff.mp read with ⟨⟨first, left⟩, found, continued⟩
  rcases unary_of_read found with ⟨tokens, split, operand⟩
  dsimp only at continued
  split at continued
  · cases continued
    exact ⟨tokens, split, .last operand⟩
  · next token after =>
      by_cases mixed : token = other
      · rw [if_pos mixed] at continued
        cases continued
      · rw [if_neg mixed] at continued
        by_cases again : token = same
        · rw [if_pos again] at continued
          rcases Traversal.map_eq_ok_iff.mp continued with ⟨⟨others, remaining⟩, foundMore, equal⟩
          cases equal
          rcases operands_of_read foundMore with ⟨more, splitMore, following⟩
          refine ⟨tokens ++ same :: more, ?_, .more operand following⟩
          rw [split, splitMore, again, List.append_assoc, List.cons_append]
        · rw [if_neg again] at continued
          cases continued
          exact ⟨tokens, split, .last operand⟩
termination_by (input.length, 1)
decreasing_by
  · exact Prod.Lex.right _ Nat.zero_lt_one
  · simp only [split, List.length_append, List.length_cons]
    exact Prod.Lex.left _ _ (by omega)

end

/-! ## What is spelled is read -/

mutual

/-- An operand is read whatever follows it. -/
theorem Unary.read {tokens : List Token} {expression : Expression} :
    Unary tokens expression → ∀ rest,
      plain (readUnary (tokens ++ rest)) = .ok (expression, rest)
  | .name text, rest => by
      rw [List.singleton_append, plain_readUnary]
  | .not negated, rest => by
      rw [List.cons_append, plain_readUnary]
      dsimp only
      rw [negated.read rest]
      rfl
  | .group enclosed, rest => by
      rw [List.cons_append, List.append_assoc, List.singleton_append, plain_readUnary]
      dsimp only
      rw [enclosed.read (.closing :: rest) (by simp)]
      rfl

/-- An expression is read when no operator follows it. -/
theorem Spells.read {tokens : List Token} {expression : Expression} :
    Spells tokens expression → ∀ rest,
      (∀ token, rest.head? = some token → token ≠ .and ∧ token ≠ .or) →
        plain (readExpression (tokens ++ rest)) = .ok (expression, rest)
  | .single operand, rest, ends => by
      rw [plain_readExpression, operand.read rest]
      cases rest with
      | nil => rfl
      | cons token after =>
          obtain ⟨noAnd, noOr⟩ := ends token rfl
          cases token <;> first | rfl | contradiction
  | .all operand following, rest, ends => by
      rcases following.read (show Token.and ≠ .or by decide) rest ends with ⟨tail, rfl, others⟩
      rw [plain_readExpression, List.append_assoc, operand.read]
      simp only [Except.bind, List.cons_append]
      rw [others]
      rfl
  | .any operand following, rest, ends => by
      rcases following.read (show Token.or ≠ .and by decide) rest
        (fun token first => (ends token first).symm) with ⟨tail, rfl, others⟩
      rw [plain_readExpression, List.append_assoc, operand.read]
      simp only [Except.bind, List.cons_append]
      rw [others]
      rfl

/-- Operands are read to the end of those joined by the operator. -/
theorem Operands.read {operator other : Token} {tokens : List Token} {parts : List Expression} :
    Operands operator tokens parts → operator ≠ other → ∀ rest,
      (∀ token, rest.head? = some token → token ≠ operator ∧ token ≠ other) →
        ∃ tail, tokens = operator :: tail ∧
          plain (readOperands operator other (tail ++ rest)) = .ok (parts, rest)
  | .last operand, different, rest, ends => by
      refine ⟨_, rfl, ?_⟩
      rw [plain_readOperands, operand.read rest]
      cases rest with
      | nil => rfl
      | cons token after =>
          obtain ⟨noMore, unmixed⟩ := ends token rfl
          simp only [Except.bind, if_neg unmixed, if_neg noMore]
  | .more operand following, different, rest, ends => by
      rcases following.read different rest ends with ⟨tail, rfl, others⟩
      refine ⟨_, rfl, ?_⟩
      rw [plain_readOperands, List.append_assoc, operand.read]
      simp only [Except.bind, List.cons_append, if_neg different, if_true]
      rw [others]
      rfl

end

/-- The tokens of a whole text are accepted when the grammar derives them. -/
theorem ofTokens_eq_ok_iff {tokens : List Token} {expression : Expression} :
    ofTokens tokens = .ok expression ↔ Spells tokens expression := by
  have whole : ofTokens tokens = .ok expression ↔
      plain (readExpression tokens) = .ok (expression, []) := by
    cases tokens with
    | nil =>
        rw [plain_readExpression, plain_readUnary]
        exact iff_of_false (by simp [ofTokens]) (by simp [Except.bind])
    | cons token rest =>
        rw [ofTokens]
        cases readExpression (token :: rest) with
        | error fault => simp [plain, Except.map]
        | ok read =>
            obtain ⟨result, remaining, shorter⟩ := read
            cases remaining <;> simp [plain, Except.map]
  rw [whole]
  constructor
  · intro read
    rcases spells_of_read read with ⟨found, split, spelled⟩
    rw [List.append_nil] at split
    rw [split]
    exact spelled
  · intro spelled
    have read := spelled.read [] (by simp)
    rwa [List.append_nil] at read

end Expression
end Profile
end LayeredConfig

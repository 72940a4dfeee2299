import LayeredConfig.Reading
import LayeredConfig.Text.Blank

namespace LayeredConfig
namespace Profile

/-!
Profile expressions: `!a`, `a & b & c`, `a | b` and parentheses over names.

An expression is read from its tokens.  `&` and `|` do not mix without
parentheses, and each step of the reader hands on a shorter rest.
-/

inductive Expression where
  | name (text : String)
  | not (inner : Expression)
  | all (parts : List Expression)
  | any (parts : List Expression)
  deriving Repr

namespace Expression

inductive Token where
  | name (text : String)
  | not
  | and
  | or
  | opening
  | closing
  deriving DecidableEq, Repr

inductive Fault where
  | empty
  | mixedOperators
  | unclosed
  | nameExpected
  | unexpectedEnd
  | trailingInput
  deriving DecidableEq, Repr

namespace Fault

def message : Fault → String
  | empty => "expression is empty"
  | mixedOperators => "'&' and '|' must not be mixed without parentheses"
  | unclosed => "missing closing parenthesis"
  | nameExpected => "expected a profile name"
  | unexpectedEnd => "unexpected end of expression"
  | trailingInput => "unexpected trailing input"

end Fault

/-- The token that a character is by itself. -/
def symbol? : Char → Option Token
  | '!' => some .not
  | '&' => some .and
  | '|' => some .or
  | '(' => some .opening
  | ')' => some .closing
  | _ => none

/-- The characters that names are made of. -/
def isNameChar (c : Char) : Bool :=
  (symbol? c).isNone && !Text.isBlank c

/-- The tokens of a text; names are the longest runs of name characters. -/
def tokens : List Char → List Token
  | [] => []
  | c :: rest =>
      match symbol? c with
      | some token => token :: tokens rest
      | none =>
          if Text.isBlank c then tokens rest
          else .name (String.ofList (c :: rest.takeWhile isNameChar)) ::
            tokens (rest.dropWhile isNameChar)
termination_by cs => cs.length
decreasing_by
  all_goals simp only [List.length_cons]
  all_goals have shorter := (List.dropWhile_suffix (l := rest) isNameChar).length_le
  all_goals omega

mutual

/-- Read a name, a negation or an expression in parentheses. -/
def readUnary (input : List Token) : Except Fault (Reading Token Expression input) :=
  match input with
  | [] => .error .unexpectedEnd
  | .name text :: rest => .ok ⟨.name text, rest, by simp⟩
  | .not :: rest =>
      match readUnary rest with
      | .error fault => .error fault
      | .ok inner => .ok ⟨.not inner.result, inner.rest, Nat.lt_succ_of_lt inner.shorter⟩
  | .opening :: rest =>
      match readExpression rest with
      | .error fault => .error fault
      | .ok inner =>
          match follows : inner.rest with
          | .closing :: after =>
              .ok ⟨inner.result, after, Nat.lt_succ_of_lt (inner.tail_shorter follows)⟩
          | _ => .error .unclosed
  | _ :: _ => .error .nameExpected
termination_by (input.length, 0)

/-- Read one operand, or several joined by `&` alone or by `|` alone. -/
def readExpression (input : List Token) : Except Fault (Reading Token Expression input) :=
  match readUnary input with
  | .error fault => .error fault
  | .ok first =>
      match follows : first.rest with
      | .and :: after =>
          have shorter := first.tail_shorter follows
          match readOperands .and .or after with
          | .error fault => .error fault
          | .ok others =>
              .ok ⟨.all (first.result :: others.result), others.rest,
                Nat.lt_trans others.shorter shorter⟩
      | .or :: after =>
          have shorter := first.tail_shorter follows
          match readOperands .or .and after with
          | .error fault => .error fault
          | .ok others =>
              .ok ⟨.any (first.result :: others.result), others.rest,
                Nat.lt_trans others.shorter shorter⟩
      | _ => .ok first
termination_by (input.length, 1)

/-- Read one operand and those that follow it after `same`; `other` must not follow. -/
def readOperands (same other : Token) (input : List Token) :
    Except Fault (Reading Token (List Expression) input) :=
  match readUnary input with
  | .error fault => .error fault
  | .ok first =>
      match follows : first.rest with
      | [] => .ok ⟨[first.result], first.rest, first.shorter⟩
      | token :: after =>
          have shorter := first.tail_shorter follows
          if token = other then .error .mixedOperators
          else if token = same then
            match readOperands same other after with
            | .error fault => .error fault
            | .ok others =>
                .ok ⟨first.result :: others.result, others.rest,
                  Nat.lt_trans others.shorter shorter⟩
          else .ok ⟨[first.result], first.rest, first.shorter⟩
termination_by (input.length, 1)

end

/-- The expression that the tokens spell from the first to the last. -/
def ofTokens (input : List Token) : Except Fault Expression :=
  match input with
  | [] => .error .empty
  | _ :: _ =>
      match readExpression input with
      | .error fault => .error fault
      | .ok read => if read.rest.isEmpty then .ok read.result else .error .trailingInput

def parse (text : String) : Except Fault Expression :=
  ofTokens (tokens text.toList)

mutual

/-- Whether the expression holds when exactly the names in `active` do. -/
def holds (active : String → Bool) : Expression → Bool
  | name text => active text
  | not inner => !holds active inner
  | all parts => allHold active parts
  | any parts => anyHolds active parts

def allHold (active : String → Bool) : List Expression → Bool
  | [] => true
  | part :: rest => holds active part && allHold active rest

def anyHolds (active : String → Bool) : List Expression → Bool
  | [] => false
  | part :: rest => holds active part || anyHolds active rest

end

end Expression
end Profile
end LayeredConfig

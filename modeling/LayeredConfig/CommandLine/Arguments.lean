import LayeredConfig.CommandLine.Parameter
import LayeredConfig.KeyedList

namespace LayeredConfig
namespace CommandLine

/-!
Reading arguments by the grammar of a command.

A parameter whose value is a word of its own takes effect when the next
parameter or operand is met, or at the end; until then it is pending.  After
`--` all words are operands.
-/

/-- What may be given to a command. -/
structure Grammar where
  parameters : List Parameter
  operand : Option Parameter
  /-- The commands that a word may choose. -/
  commands : List String

/-- Where values come from. -/
inductive Origin where
  /-- The variable that stands in for the parameter. -/
  | standIn
  | arguments
  deriving DecidableEq, Repr

structure Given where
  origin : Origin
  values : List Value

/-- What has been given, by the names of the parameters. -/
abbrev Givens := KeyedList String Given

namespace Givens

/-- Enter the words given to a parameter. -/
def enter (givens : Givens) (origin : Origin) (parameter : Parameter) (words : List String) :
    Except Refusal Givens :=
  if parameter.takesValue && words.isEmpty then .error .valueMissing
  else
    match parameter.action with
    | .help => .error .help
    | .version => .error .version
    | .flag =>
        if givens.contains parameter.name then .error .repeated
        else .ok (givens.insert parameter.name ⟨origin, []⟩)
    | .single =>
        if givens.contains parameter.name then .error .repeated
        else (parameter.read words).map fun values => givens.insert parameter.name ⟨origin, values⟩
    | .several =>
        (parameter.read words).map fun values =>
          givens.update parameter.name ⟨origin, []⟩ fun earlier =>
            { earlier with values := earlier.values ++ values }

end Givens

/-- How far the arguments of a command have been read. -/
structure Reader where
  givens : Givens
  /-- A parameter that has not taken effect, with the words given to it. -/
  pending : Option (Parameter × List String)
  /-- Whether the operand has been met. -/
  met : Bool
  /-- Whether all further words are operands. -/
  closed : Bool

namespace Reader

def start : Reader where
  givens := KeyedList.empty
  pending := none
  met := false
  closed := false

/-- Let the pending parameter take effect. -/
def settle (reader : Reader) : Except Refusal Reader :=
  match reader.pending with
  | none => .ok reader
  | some (parameter, words) =>
      (reader.givens.enter .arguments parameter words).map fun givens =>
        { reader with givens, pending := none }

/-- Give a parameter that takes effect at once. -/
def give (reader : Reader) (parameter : Parameter) (words : List String) :
    Except Refusal Reader := do
  let settled ← reader.settle
  let givens ← settled.givens.enter .arguments parameter words
  return { settled with givens }

/-- Give a parameter that is pending from now on. -/
def hold (reader : Reader) (parameter : Parameter) (words : List String) :
    Except Refusal Reader := do
  let settled ← reader.settle
  return { settled with pending := some (parameter, words) }

/-- The parameter that waits for its value. -/
def awaiting (reader : Reader) : Option Parameter :=
  match reader.pending with
  | some (parameter, []) => some parameter
  | _ => none

/-- Read a parameter by its long name, perhaps with a value after an equals sign. -/
def readLong (grammar : Grammar) (reader : Reader) (name : String) (value : Option String) :
    Except Refusal Reader :=
  match grammar.parameters.find? (fun parameter => parameter.name = name) with
  | none => .error .unknownArgument
  | some parameter =>
      match parameter.takesValue, value with
      | true, some word => reader.give parameter [word]
      | true, none => reader.hold parameter []
      | false, some _ => .error .valueUnneeded
      | false, none => reader.give parameter []

/-- Read parameters by their short names, of which the last may have its value attached. -/
def readShort (grammar : Grammar) (reader : Reader) : List Char → Except Refusal Reader
  | [] => .ok reader
  | c :: rest =>
      match grammar.parameters.find? (fun parameter => parameter.short = some c) with
      | none => .error .unknownArgument
      | some parameter =>
          if parameter.takesValue then
            match rest with
            | [] => reader.hold parameter []
            | '=' :: value => reader.give parameter [String.ofList value]
            | value => reader.give parameter [String.ofList value]
          else (reader.give parameter []).bind fun next => readShort grammar next rest

/-- Read an operand. -/
def readOperand (grammar : Grammar) (reader : Reader) (word : String) : Except Refusal Reader :=
  match if reader.met then none else grammar.operand with
  | some operand => (reader.hold operand [word]).map fun next => { next with met := true }
  | none =>
      if grammar.commands.isEmpty || (reader.closed && grammar.commands.contains word) then
        .error .unknownArgument
      else .error .unknownCommand

/-- Read a word that is no command. -/
def readWord (grammar : Grammar) (reader : Reader) (word : String) : Except Refusal Reader :=
  if reader.closed then reader.readOperand grammar word
  else
    match word.toList with
    | '-' :: '-' :: [] => .ok { reader with closed := true }
    | '-' :: '-' :: long =>
        let value :=
          match long.dropWhile (· ≠ '=') with
          | [] => none
          | _ :: value => some (String.ofList value)
        reader.readLong grammar (String.ofList (long.takeWhile (· ≠ '='))) value
    | '-' :: c :: short => reader.readShort grammar (c :: short)
    | _ =>
        match reader.awaiting with
        | some parameter => .ok { reader with pending := some (parameter, [word]) }
        | none => reader.readOperand grammar word

/-- Whether a word chooses a command. -/
def chooses (grammar : Grammar) (reader : Reader) (word : String) : Bool :=
  !reader.closed && reader.awaiting.isNone && grammar.commands.contains word

/-- Read words up to one that chooses a command; the rest of them belong to it. -/
def readAll (grammar : Grammar) (reader : Reader) :
    List String → Except Refusal (Reader × Option (String × List String))
  | [] => .ok (reader, none)
  | word :: rest =>
      if reader.chooses grammar word then .ok (reader, some (word, rest))
      else (reader.readWord grammar word).bind fun next => readAll grammar next rest

/-- Take the value of a variable for a parameter that has not been given. -/
def consult (surroundings : String → Option String) (givens : Givens) (parameter : Parameter) :
    Except Refusal Givens :=
  if givens.contains parameter.name then .ok givens
  else
    match parameter.standIn.bind surroundings with
    | none => .ok givens
    | some word => givens.enter .standIn parameter [word]

/-- What has been given at the end. -/
def finish (grammar : Grammar) (surroundings : String → Option String) (reader : Reader) :
    Except Refusal Givens := do
  let settled ← reader.settle
  grammar.parameters.foldlM (consult surroundings) settled.givens

end Reader
end CommandLine
end LayeredConfig

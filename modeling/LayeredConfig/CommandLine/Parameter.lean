import LayeredConfig.Module.ApplicationKind
import LayeredConfig.Text.CommaList

namespace LayeredConfig
namespace CommandLine

/-!
The parameters that arguments may give, and why arguments are refused.
-/

/-- Why the arguments are no command to carry out. -/
inductive Refusal where
  /-- A parameter that is to be given once is given again. -/
  | repeated
  /-- A flag is given a value. -/
  | valueUnneeded
  /-- A value is missing, or empty where it names a file. -/
  | valueMissing
  /-- A value is not of its form. -/
  | valueRejected
  | unknownArgument
  | unknownCommand
  /-- There are parameters and no command. -/
  | commandMissing
  /-- There is nothing at all. -/
  | nothingGiven
  /-- Help is asked for. -/
  | help
  /-- The version is asked for. -/
  | version
  deriving DecidableEq, Repr

namespace Refusal

/-- Asking for help or for the version is no fault. -/
def exitCode : Refusal → Nat
  | help => 0
  | version => 0
  | _ => 2

end Refusal

/-- What the values of a parameter look like. -/
inductive Form where
  | text
  /-- The path of a file or directory. -/
  | path
  /-- A key and a value with an equals sign between them. -/
  | property
  | kind
  deriving DecidableEq, Repr

inductive Value where
  | text (text : String)
  | property (key value : String)
  | kind (kind : Module.ApplicationKind)
  deriving DecidableEq, Repr

/-- Read a property: the key is trimmed and must not be blank. -/
def readProperty (word : String) : Except Refusal Value :=
  let key := Text.trim (String.ofList (word.toList.takeWhile (· ≠ '=')))
  match word.toList.dropWhile (· ≠ '=') with
  | [] => .error .valueRejected
  | _ :: value =>
      if key = "" then .error .valueRejected else .ok (.property key (String.ofList value))

def Form.read (form : Form) (word : String) : Except Refusal Value :=
  match form with
  | text => .ok (.text word)
  | path => if word = "" then .error .valueMissing else .ok (.text word)
  | property => readProperty word
  | kind =>
      match Module.ApplicationKind.parse word with
      | .ok accepted => .ok (.kind accepted)
      | .error _ => .error .valueRejected

/-- What it means to give a parameter. -/
inductive Action where
  /-- It is given or not. -/
  | flag
  /-- It has one value. -/
  | single
  /-- It has the values of all its occurrences. -/
  | several
  | help
  | version
  deriving DecidableEq, Repr

/-- A parameter, which is told from others by its long name. -/
structure Parameter where
  name : String
  short : Option Char
  action : Action
  form : Form
  /-- Whether commas divide a word into values. -/
  divided : Bool
  /-- The environment variable that stands in for the parameter. -/
  standIn : Option String

namespace Parameter

def takesValue (parameter : Parameter) : Bool :=
  parameter.action = .single || parameter.action = .several

/-- The values in the words given to a parameter. -/
def read (parameter : Parameter) (words : List String) : Except Refusal (List Value) :=
  let pieces :=
    if parameter.divided then
      words.flatMap fun word => (Text.splitAt ',' word.toList).map String.ofList
    else words
  pieces.mapM parameter.form.read

/-- A flag. -/
def flag (name : String) : Parameter where
  name := name
  short := none
  action := .flag
  form := .text
  divided := false
  standIn := none

/-- A parameter with one value. -/
def single (name : String) (form : Form) (standIn : Option String) : Parameter where
  name := name
  short := none
  action := .single
  form := form
  divided := false
  standIn := standIn

/-- A parameter with values that commas may divide. -/
def several (name : String) (form : Form) (standIn : Option String) : Parameter where
  name := name
  short := none
  action := .several
  form := form
  divided := true
  standIn := standIn

end Parameter
end CommandLine
end LayeredConfig

import LayeredConfig.KeyedList
import LayeredConfig.Text.Blank
import LayeredConfig.Text.Lines

namespace LayeredConfig
namespace Property

/-!
The line format of properties: one `key=value` a line.

Lines that end in an odd number of backslashes continue on the next one.  A
line whose first character that is not blank is `#` or `!` is a comment.  The
key ends at the first `=`, `:` or blank without a backslash before it.
-/

/-- Properties in the order in which their keys were first written. -/
abbrev Table := KeyedList String String

namespace LineFormat

open Text

/-- Whether the line goes on: it ends in an odd number of backslashes. -/
def continues (line : List Char) : Bool :=
  (line.reverse.takeWhile (· == '\\')).length % 2 == 1

/-- Join the lines that continue, each without its last backslash and, from the second
on, without leading blanks.  `started` is the part of a line already read. -/
def joinLines (started : Option (List Char)) : List (List Char) → List (List Char)
  | [] => started.toList
  | line :: rest =>
      let piece := if started.isSome then trimLeft line else line
      if continues piece then
        joinLines (some (started.getD [] ++ piece.dropLast)) rest
      else
        (started.getD [] ++ piece) :: joinLines none rest

/-- The character that stands for itself after a backslash, four letters apart. -/
def unescape : Char → Char
  | 't' => '\t'
  | 'n' => '\n'
  | 'r' => '\r'
  | 'f' => '\x0c'
  | c => c

/-- Resolve the backslashes of a value; one at the very end is dropped. -/
def unescapeAll : List Char → List Char
  | [] => []
  | '\\' :: [] => []
  | '\\' :: c :: rest => unescape c :: unescapeAll rest
  | c :: rest => c :: unescapeAll rest

/-- What follows a key that ended at a blank: the value, less one separator before it. -/
def dropSeparator (cs : List Char) : List Char :=
  match trimLeft cs with
  | '=' :: rest => rest
  | ':' :: rest => rest
  | rest => rest

/-- The key of a line, with its backslashes resolved, and the text after its end. -/
def splitKey : List Char → List Char × List Char
  | [] => ([], [])
  | '\\' :: [] => ([], [])
  | '\\' :: c :: rest => (unescape c :: (splitKey rest).1, (splitKey rest).2)
  | c :: rest =>
      if c = '=' || c = ':' then ([], rest)
      else if isBlank c then ([], dropSeparator rest)
      else (c :: (splitKey rest).1, (splitKey rest).2)

/-- The text between two equal quotes, or the whole text when there are none. -/
def unquote : List Char → List Char
  | [] => []
  | [c] => [c]
  | first :: second :: rest =>
      if (first = '"' || first = '\'') && (second :: rest).getLast? = some first then
        (second :: rest).dropLast
      else
        first :: second :: rest

/-- The value written in the text after a key. -/
def readValue (cs : List Char) : List Char :=
  unquote (unescapeAll (trimBoth cs))

/-- The property on one whole line; blank lines and comments hold none. -/
def readLine (line : List Char) : Option (String × String) :=
  match trimLeft line with
  | [] => none
  | first :: rest =>
      if first = '#' || first = '!' then none
      else
        let (key, value) := splitKey (first :: rest)
        some (String.ofList key, String.ofList (readValue value))

/-- The properties of a text, line by line. -/
def readPairs (text : List Char) : List (String × String) :=
  (joinLines none (lines text)).filterMap readLine

/-- The properties of a text; a repeated key keeps its first position and its last value. -/
def parse (text : String) : Table :=
  KeyedList.ofList (readPairs text.toList)

end LineFormat
end Property
end LayeredConfig

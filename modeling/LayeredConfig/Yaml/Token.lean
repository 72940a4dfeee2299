import LayeredConfig.Yaml.Character
import LayeredConfig.Yaml.Tag

namespace LayeredConfig
namespace Yaml

/-! The tokens of YAML texts, and why a text may not be YAML. -/

/-- Why a text cannot be read. -/
inductive Fault where
  | forbiddenCharacter
  | directive
  | anchor
  | tag
  | tabInIndentation
  | unclosedQuote
  | documentMarkInQuote
  | escape
  | blockHeader
  /-- A colon that may be part of a word and may end it. -/
  | ambiguousColon
  | unknownToken
  /-- An entry, key or value where the indentation allows none. -/
  | misplacedEntry
  | colonExpected
  | nodeExpected
  | entryExpected
  | documentStartExpected
  | unknownAnchor
  | tooManyAliases
  | tooDeep
  /-- A scalar does not have the type of its tag, or does not fit 64 bits. -/
  | scalar
  | duplicateKey
  /-- A record lacks a field, has one twice, or one of another form. -/
  | record
  | severalDocuments
  deriving DecidableEq, Repr

/-- How a scalar is written. -/
inductive ScalarStyle where
  | plain
  | quoted
  | literal
  | folded
  deriving DecidableEq, Repr

inductive Token where
  | version (major minor : Nat)
  | tagDirective (handle : String) (meaning : Tag)
  | documentStart
  | documentEnd
  | blockSequence
  | blockMapping
  | blockEnd
  | flowSequence
  | flowSequenceEnd
  | flowMapping
  | flowMappingEnd
  | blockEntry
  | flowEntry
  | key
  | value
  | reference (name : String)
  | anchor (name : String)
  | tag (handle : String) (suffix : Tag)
  | scalar (style : ScalarStyle) (text : String)
  deriving DecidableEq, Repr

/-- A place in a text. -/
structure Mark where
  /-- The number of bytes before it. -/
  index : Nat
  line : Nat
  column : Nat
  deriving DecidableEq, Repr

namespace Mark

def start : Mark where
  index := 0
  line := 0
  column := 0

/-- The place after a character. -/
def after (mark : Mark) (c : Char) : Mark :=
  let index := mark.index + c.utf8Size
  if isBreak c then { index, line := mark.line + 1, column := 0 }
  else { mark with index, column := mark.column + 1 }

def afterAll (mark : Mark) (cs : List Char) : Mark :=
  cs.foldl after mark

end Mark

/-- The rest of a text and the place where it starts. -/
structure Cursor where
  mark : Mark
  rest : List Char

namespace Cursor

/-- Pass over the next characters. -/
def skip (cursor : Cursor) (count : Nat) : Cursor where
  mark := cursor.mark.afterAll (cursor.rest.take count)
  rest := cursor.rest.drop count

/-- Pass over the characters that satisfy a condition. -/
def skipWhile (cursor : Cursor) (condition : Char → Bool) : Cursor where
  mark := cursor.mark.afterAll (cursor.rest.takeWhile condition)
  rest := cursor.rest.dropWhile condition

end Cursor

end Yaml
end LayeredConfig

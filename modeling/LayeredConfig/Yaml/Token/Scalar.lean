import LayeredConfig.Text.Integer
import LayeredConfig.Yaml.Token

namespace LayeredConfig
namespace Yaml

/-!
Reading scalars: plain ones, quoted ones and blocks.

Between two words of a plain or quoted scalar that stand on different lines,
one line end becomes a space and further ones are kept.
-/

/-- What stands between two words of a scalar. -/
structure Gap where
  /-- Spaces on the line of the word before, last one first. -/
  spaces : List Char
  /-- Whether a line ended. -/
  folded : Bool
  /-- The line end that folds, unless it was escaped. -/
  first : Option Char
  /-- Further line ends, last one first. -/
  further : List Char

namespace Gap

def none : Gap where
  spaces := []
  folded := false
  first := Option.none
  further := []

/-- A line end that was escaped and leaves nothing behind. -/
def escaped : Gap :=
  { none with folded := true }

/-- Extend the gap by a space or a tab. -/
def addSpace (gap : Gap) (c : Char) : Gap :=
  if gap.folded then gap else { gap with spaces := c :: gap.spaces }

/-- Extend the gap by a line end. -/
def addBreak (gap : Gap) (c : Char) : Gap :=
  if gap.folded then { gap with further := c :: gap.further }
  else { spaces := [], folded := true, first := some c, further := [] }

/-- What the gap adds to the text, last character first. -/
def reversed (gap : Gap) : List Char :=
  if !gap.folded then gap.spaces
  else
    match gap.first with
    | some '\n' => if gap.further.isEmpty then [' '] else gap.further
    | other => gap.further ++ other.toList

def isEmpty (gap : Gap) : Bool :=
  !gap.folded && gap.spaces.isEmpty

end Gap

/-- A scalar that was read. -/
structure ReadScalar where
  text : String
  cursor : Cursor
  /-- Whether a line ended after the last word. -/
  lineEnded : Bool

/-- Whether a plain scalar ends before the rest of a text. -/
def endsPlain (inFlow : Bool) : List Char → Bool
  | [] => true
  | c :: rest => (c = ':' && startsWithGap rest) || (inFlow && isFlowMark c)

/-- Whether the rest of a text has a colon that flow collections do not allow. -/
def hasAmbiguousColon : List Char → Bool
  | ':' :: c :: _ => isFlowMark c || c = '?'
  | _ => false

/-- Read a plain scalar.  `written` is the text so far, last character first, and `gap` what
follows it.  Lines that go on must be indented by `indent` outside flow collections. -/
def readPlain (inFlow : Bool) (indent : Nat) (written : List Char) (gap : Gap) (mark : Mark) :
    List Char → Except Fault ReadScalar
  | [] => .ok ⟨String.ofList written.reverse, ⟨mark, []⟩, gap.folded⟩
  | c :: rest =>
      let finished : ReadScalar :=
        ⟨String.ofList written.reverse, ⟨mark, c :: rest⟩, gap.folded⟩
      if isSpace c then
        if gap.folded && mark.column < indent && c = '\t' then .error .tabInIndentation
        else readPlain inFlow indent written (gap.addSpace c) (mark.after c) rest
      else if isBreak c then
        readPlain inFlow indent written (gap.addBreak c) (mark.after c) rest
      else if gap.folded && !inFlow && mark.column < indent then .ok finished
      else if mark.column = 0 && gap.folded && startsWithDocumentMark (c :: rest) then .ok finished
      else if c = '#' && !gap.isEmpty then .ok finished
      else if inFlow && hasAmbiguousColon (c :: rest) then .error .ambiguousColon
      else if endsPlain inFlow (c :: rest) then .ok finished
      else readPlain inFlow indent (c :: (gap.reversed ++ written)) Gap.none (mark.after c) rest

/-- The character that stands for itself after a backslash, by its letter. -/
def escape? : Char → Option Char
  | '0' => some '\x00'
  | 'a' => some '\x07'
  | 'b' => some '\x08'
  | 't' => some '\t'
  | '\t' => some '\t'
  | 'n' => some '\n'
  | 'v' => some '\x0b'
  | 'f' => some '\x0c'
  | 'r' => some '\r'
  | 'e' => some '\x1b'
  | ' ' => some ' '
  | '"' => some '"'
  | '/' => some '/'
  | '\\' => some '\\'
  | 'N' => some '\x85'
  | '_' => some '\xa0'
  | 'L' => some '\u2028'
  | 'P' => some '\u2029'
  | _ => none

/-- How many hexadecimal digits follow the letter of an escape. -/
def hexDigits? : Char → Option Nat
  | 'x' => some 2
  | 'u' => some 4
  | 'U' => some 8
  | _ => none

/-- The character with a code point; surrogates have none. -/
def character? (code : Nat) : Option Char :=
  if code.isValidChar then some (Char.ofNat code) else none

/-- Read the text after an opening quote.  `digits` counts the digits that an escape still
needs and `code` is its value so far. -/
def readQuoted (quote : Char) (written : List Char) (gap : Gap) (digits code : Nat)
    (mark : Mark) : List Char → Except Fault ReadScalar
  | [] => .error .unclosedQuote
  | c :: rest =>
      if digits ≠ 0 then
        match Text.digitValue? 16 c with
        | none => .error .escape
        | some digit =>
            if digits = 1 then
              match character? (code * 16 + digit) with
              | none => .error .escape
              | some escaped =>
                  readQuoted quote (escaped :: written) gap 0 0 (mark.after c) rest
            else readQuoted quote written gap (digits - 1) (code * 16 + digit) (mark.after c) rest
      else if isSpace c then
        readQuoted quote written (gap.addSpace c) 0 0 (mark.after c) rest
      else if isBreak c then
        readQuoted quote written (gap.addBreak c) 0 0 (mark.after c) rest
      else if mark.column = 0 && startsWithDocumentMark (c :: rest) then
        .error .documentMarkInQuote
      else
        let text := gap.reversed ++ written
        if c = quote then
          match quote, rest with
          | '\'', '\'' :: more =>
              readQuoted quote ('\'' :: text) Gap.none 0 0 ((mark.after c).after c) more
          | _, _ => .ok ⟨String.ofList text.reverse, ⟨mark.after c, rest⟩, false⟩
        else if c = '\\' && quote = '"' then
          match rest with
          | [] => .error .escape
          | letter :: more =>
              let next := (mark.after c).after letter
              if isBreak letter then readQuoted quote text Gap.escaped 0 0 next more
              else
                match escape? letter, hexDigits? letter with
                | some escaped, _ => readQuoted quote (escaped :: text) Gap.none 0 0 next more
                | none, some count => readQuoted quote text Gap.none count 0 next more
                | none, none => .error .escape
        else readQuoted quote (c :: text) Gap.none 0 0 (mark.after c) rest

/-- What becomes of the line ends after the last line of a block. -/
inductive Chomping where
  | strip
  | clip
  | keep
  deriving DecidableEq

/-- The marks after the sign that opens a block. -/
structure BlockHeader where
  chomping : Chomping
  /-- The indentation relative to the surrounding block, when it is stated. -/
  indentation : Option Nat

def chomping? : Char → Option Chomping
  | '+' => some .keep
  | '-' => some .strip
  | _ => none

/-- A digit from 1 to 9. -/
def indentation? (c : Char) : Option Nat :=
  if c.isDigit && c ≠ '0' then some (c.toNat - '0'.toNat) else none

/-- Read the marks of a block in either order; a zero is no indentation. -/
def readHeader : List Char → Except Fault (BlockHeader × List Char)
  | first :: second :: rest =>
      match chomping? first, indentation? first with
      | some chomping, _ =>
          if second = '0' then .error .blockHeader
          else
            match indentation? second with
            | some count => .ok (⟨chomping, some count⟩, rest)
            | none => .ok (⟨chomping, none⟩, second :: rest)
      | none, some count =>
          match chomping? second with
          | some chomping => .ok (⟨chomping, some count⟩, rest)
          | none => .ok (⟨.clip, some count⟩, second :: rest)
      | none, none =>
          if first = '0' then .error .blockHeader
          else .ok (⟨.clip, none⟩, first :: second :: rest)
  | [single] =>
      match chomping? single, indentation? single with
      | some chomping, _ => .ok (⟨chomping, none⟩, [])
      | none, some count => .ok (⟨.clip, some count⟩, [])
      | none, none => if single = '0' then .error .blockHeader else .ok (⟨.clip, none⟩, [single])
  | [] => .ok (⟨.clip, none⟩, [])

/-- The greatest number of spaces before the first line with anything else and at it. -/
def detectIndent (column most : Nat) : List Char → Except Fault Nat
  | [] => .ok (max most column)
  | c :: rest =>
      if c = ' ' then detectIndent (column + 1) most rest
      else if c = '\t' then .error .tabInIndentation
      else if isBreak c then detectIndent 0 (max most column) rest
      else .ok (max most column)

/-- The state of reading a block. -/
structure BlockState where
  /-- The text so far, last character first. -/
  written : List Char
  /-- The end of the last line. -/
  ending : Option Char
  /-- The ends of empty lines after it, last one first. -/
  empty : List Char
  /-- Whether the last line began with a space or a tab. -/
  indented : Bool
  /-- Whether a line is being read, past its indentation. -/
  inLine : Bool

namespace BlockState

def start : BlockState where
  written := []
  ending := none
  empty := []
  indented := false
  inLine := false

/-- Begin a line: in a folded block the line end before it becomes a space unless either
line is indented further or there are empty lines. -/
def beginLine (state : BlockState) (literal : Bool) (c : Char) : BlockState :=
  let joint :=
    if !literal && state.ending = some '\n' && !state.indented && !isSpace c then
      if state.empty.isEmpty then [' '] else state.empty
    else state.empty ++ state.ending.toList
  { written := c :: (joint ++ state.written)
    ending := none
    empty := []
    indented := isSpace c
    inLine := true }

def text (state : BlockState) (chomping : Chomping) : String :=
  String.ofList (match chomping with
    | .strip => state.written
    | .clip => state.ending.toList ++ state.written
    | .keep => state.empty ++ state.ending.toList ++ state.written).reverse

end BlockState

/-- Read the lines of a block that are indented by `indent`. -/
def readBlockLines (literal : Bool) (indent : Nat) (state : BlockState) (mark : Mark) :
    List Char → Except Fault (BlockState × Cursor)
  | [] => .ok (state, ⟨mark, []⟩)
  | c :: rest =>
      if state.inLine then
        if isBreak c then
          readBlockLines literal indent { state with ending := some c, inLine := false }
            (mark.after c) rest
        else
          readBlockLines literal indent { state with written := c :: state.written }
            (mark.after c) rest
      else if mark.column < indent && c = ' ' then
        readBlockLines literal indent state (mark.after c) rest
      else if mark.column < indent && c = '\t' then .error .tabInIndentation
      else if isBreak c then
        readBlockLines literal indent { state with empty := c :: state.empty } (mark.after c) rest
      else if mark.column < indent then .ok (state, ⟨mark, c :: rest⟩)
      else readBlockLines literal indent (state.beginLine literal c) (mark.after c) rest

/-- Read a block from the mark that opens it.  `parent` is the indentation of the surrounding
block, one more than its column and zero at the top. -/
def readBlock (literal : Bool) (parent : Nat) (cursor : Cursor) : Except Fault ReadScalar := do
  let opened := cursor.skip 1
  let (header, afterHeader) ← readHeader opened.rest
  let marked := opened.skip (opened.rest.length - afterHeader.length)
  let spaced := marked.skipWhile isSpace
  let commented := if spaced.rest.head? = some '#' then spaced.skipWhile (!isBreak ·) else spaced
  if !(commented.rest.head?.all isBreak) then throw .blockHeader
  let body := commented.skip 1
  let indent ←
    match header.indentation with
    | some count => pure (parent - 1 + count)
    | none => (detectIndent 0 0 body.rest).map fun detected => max (max detected parent) 1
  let (state, rest) ← readBlockLines literal indent BlockState.start body.mark body.rest
  return ⟨state.text header.chomping, rest, true⟩

end Yaml
end LayeredConfig

import LayeredConfig.Yaml.Token.Scalar
import LayeredConfig.Yaml.Token.Tag

namespace LayeredConfig
namespace Yaml

/-!
The tokens of a text.

Indentation becomes tokens that open and close blocks.  Where a key may stand a
scalar, reference or collection is remembered as a candidate; a colon after it
on the same line makes it a key, and the tokens for that go in before it.
-/

/-- What may turn out to be a key. -/
structure Candidate where
  /-- The number of tokens before it. -/
  position : Nat
  mark : Mark
  /-- Whether the text is wrong unless it is a key. -/
  required : Bool

/-- The state of reading tokens.  Indentations count from one; zero is that of no block. -/
structure Scanner where
  cursor : Cursor
  /-- The tokens so far, last one first. -/
  tokens : List Token
  indent : Nat
  /-- The indentations of the surrounding blocks, innermost first. -/
  outerIndents : List Nat
  /-- Whether a key may start here. -/
  keyAllowed : Bool
  candidate : Option Candidate
  /-- The candidates outside the open flow collections, innermost first. -/
  outerCandidates : List (Option Candidate)

namespace Scanner

/-- The start of a text. -/
def start (cs : List Char) : Scanner where
  cursor := ⟨Mark.start, cs⟩
  tokens := []
  indent := 0
  outerIndents := []
  keyAllowed := true
  candidate := none
  outerCandidates := []

def inFlow (scanner : Scanner) : Bool :=
  !scanner.outerCandidates.isEmpty

/-- The indentation of what starts here. -/
def level (scanner : Scanner) : Nat :=
  scanner.cursor.mark.column + 1

def emit (scanner : Scanner) (token : Token) : Scanner :=
  { scanner with tokens := token :: scanner.tokens }

/-- Put a token after the first `position` tokens. -/
def insert (scanner : Scanner) (position : Nat) (token : Token) : Scanner :=
  { scanner with
    tokens := scanner.tokens.insertIdx (scanner.tokens.length - position) token }

/-- Pass over the mark of a token. -/
def skip (scanner : Scanner) (count : Nat) : Scanner :=
  { scanner with cursor := scanner.cursor.skip count }

def allowKey (scanner : Scanner) (allowed : Bool) : Scanner :=
  { scanner with keyAllowed := allowed }

/-- The indentation, the surrounding ones and the tokens after closing all blocks that are
indented further than `level`. -/
def close (level indent : Nat) (tokens : List Token) : List Nat → Nat × List Nat × List Token
  | [] => (indent, [], tokens)
  | outer :: more =>
      if level < indent then close level outer (.blockEnd :: tokens) more
      else (indent, outer :: more, tokens)

/-- Close the blocks that are indented further than `level`; flow collections have none. -/
def closeBlocks (level : Nat) (scanner : Scanner) : Scanner :=
  if scanner.inFlow then scanner
  else
    let (indent, outerIndents, tokens) :=
      close level scanner.indent scanner.tokens scanner.outerIndents
    { scanner with indent, outerIndents, tokens }

/-- Open a block before the token at `position` when `level` is indented further than the
current one. -/
def openBlock (scanner : Scanner) (level position : Nat) (token : Token) : Scanner :=
  if scanner.inFlow || level ≤ scanner.indent then scanner
  else
    { scanner.insert position token with
      indent := level
      outerIndents := scanner.indent :: scanner.outerIndents }

/-- Forget the candidate, which must not be required. -/
def dropCandidate (scanner : Scanner) : Except Fault Scanner :=
  if scanner.candidate.any Candidate.required then .error .colonExpected
  else .ok { scanner with candidate := none }

/-- Remember what starts here as a candidate where keys are allowed. -/
def saveCandidate (scanner : Scanner) : Except Fault Scanner :=
  if scanner.keyAllowed then
    (scanner.dropCandidate).map fun dropped =>
      { dropped with
        candidate := some
          { position := scanner.tokens.length
            mark := scanner.cursor.mark
            required := !scanner.inFlow && scanner.indent = scanner.level } }
  else .ok scanner

/-- Drop a candidate that lies on an earlier line or more than 1024 bytes back. -/
def refresh (now : Mark) : Option Candidate → Except Fault (Option Candidate)
  | none => .ok none
  | some candidate =>
      if candidate.mark.line < now.line || candidate.mark.index + 1024 < now.index then
        if candidate.required then .error .colonExpected else .ok none
      else .ok (some candidate)

/-- Drop all candidates that can be keys no more. -/
def refreshAll (scanner : Scanner) : Except Fault Scanner := do
  let outer ← scanner.outerCandidates.reverse.mapM (refresh scanner.cursor.mark)
  let candidate ← refresh scanner.cursor.mark scanner.candidate
  return { scanner with candidate, outerCandidates := outer.reverse }

/-- Pass over spaces, comments, line ends and the byte order marks that begin a line, which
take up a column.  Tabs count as spaces only where no key may start; outside flow collections
a key may start after a line end. -/
def skipGaps (inFlow inComment keyAllowed : Bool) (mark : Mark) : List Char → Bool × Cursor
  | [] => (keyAllowed, ⟨mark, []⟩)
  | c :: rest =>
      if isBreak c then skipGaps inFlow false (keyAllowed || !inFlow) (mark.after c) rest
      else if inComment || c = ' ' || (c = '\t' && (inFlow || !keyAllowed)) then
        skipGaps inFlow inComment keyAllowed (mark.after c) rest
      else if c = '\ufeff' && mark.column = 0 then
        skipGaps inFlow false keyAllowed (mark.after c) rest
      else if c = '#' then skipGaps inFlow true keyAllowed (mark.after c) rest
      else (keyAllowed, ⟨mark, c :: rest⟩)

/-- Go to the next token and close the blocks that end before it. -/
def advance (scanner : Scanner) : Except Fault Scanner := do
  let (keyAllowed, cursor) :=
    skipGaps scanner.inFlow false scanner.keyAllowed scanner.cursor.mark scanner.cursor.rest
  let refreshed ← { scanner with keyAllowed, cursor }.refreshAll
  return closeBlocks refreshed.level refreshed

/-- A directive. -/
def fetchDirective (scanner : Scanner) : Except Fault Scanner := do
  let dropped ← (closeBlocks 0 scanner).dropCandidate
  let (token, rest) ← readDirective (scanner.cursor.rest.drop 1)
  return ((dropped.allowKey false).skip (scanner.cursor.rest.length - rest.length)).emit token

/-- The start or the end of a document. -/
def fetchDocumentMark (scanner : Scanner) (token : Token) : Except Fault Scanner := do
  let dropped ← (closeBlocks 0 scanner).dropCandidate
  return ((dropped.allowKey false).emit token).skip 3

/-- A mark that opens a flow collection. -/
def fetchFlowStart (scanner : Scanner) (token : Token) : Except Fault Scanner := do
  let saved ← scanner.saveCandidate
  return { ((saved.allowKey true).emit token).skip 1 with
    candidate := none
    outerCandidates := saved.candidate :: saved.outerCandidates }

/-- A mark that closes a flow collection. -/
def fetchFlowEnd (scanner : Scanner) (token : Token) : Except Fault Scanner := do
  let dropped ← scanner.dropCandidate
  let closed :=
    match dropped.outerCandidates with
    | [] => dropped
    | candidate :: more => { dropped with candidate, outerCandidates := more }
  return ((closed.allowKey false).emit token).skip 1

/-- A comma between the entries of a flow collection. -/
def fetchFlowEntry (scanner : Scanner) : Except Fault Scanner := do
  let dropped ← scanner.dropCandidate
  return ((dropped.allowKey true).emit .flowEntry).skip 1

/-- A mark before an entry or a key of a block, which opens a block of its own kind. -/
def fetchBlockMark (scanner : Scanner) (block mark : Token) (allowed : Bool) :
    Except Fault Scanner := do
  if !scanner.inFlow && !scanner.keyAllowed then throw .misplacedEntry
  let opened := scanner.openBlock scanner.level scanner.tokens.length block
  let dropped ← opened.dropCandidate
  return ((dropped.allowKey allowed).emit mark).skip 1

/-- A colon before a value, which makes the candidate a key. -/
def fetchValue (scanner : Scanner) : Except Fault Scanner :=
  match scanner.candidate with
  | some candidate =>
      let keyed := scanner.insert candidate.position .key
      let opened := keyed.openBlock (candidate.mark.column + 1) candidate.position .blockMapping
      .ok (({ opened with candidate := none, keyAllowed := false }.emit .value).skip 1)
  | none =>
      if !scanner.inFlow && !scanner.keyAllowed then .error .misplacedEntry
      else
        let opened := scanner.openBlock scanner.level scanner.tokens.length .blockMapping
        .ok (((opened.allowKey (!scanner.inFlow)).emit .value).skip 1)

/-- A reference, an anchor or a tag, `count` characters of which were read. -/
def fetchName (scanner : Scanner) (token : Token) (rest : List Char) : Except Fault Scanner := do
  let saved ← scanner.saveCandidate
  return ((saved.allowKey false).skip (scanner.cursor.rest.length - rest.length)).emit token

def fetchTag (scanner : Scanner) : Except Fault Scanner := do
  let (handle, suffix, rest) ← readTag scanner.cursor.rest
  if !endsTag scanner.inFlow rest then throw .tag
  scanner.fetchName (.tag handle suffix) rest

def fetchQuoted (scanner : Scanner) (quote : Char) : Except Fault Scanner := do
  let saved ← scanner.saveCandidate
  let opened := scanner.cursor.skip 1
  let read ← readQuoted quote [] Gap.none 0 0 opened.mark opened.rest
  return { (saved.allowKey false).emit (.scalar .quoted read.text) with cursor := read.cursor }

def fetchBlockScalar (scanner : Scanner) (literal : Bool) : Except Fault Scanner := do
  let dropped ← scanner.dropCandidate
  let read ← readBlock literal scanner.indent scanner.cursor
  let style := if literal then ScalarStyle.literal else ScalarStyle.folded
  return { (dropped.allowKey true).emit (.scalar style read.text) with cursor := read.cursor }

def fetchPlain (scanner : Scanner) : Except Fault Scanner := do
  let saved ← scanner.saveCandidate
  let read ← readPlain scanner.inFlow scanner.indent [] Gap.none scanner.cursor.mark
    scanner.cursor.rest
  return { (saved.allowKey read.lineEnded).emit (.scalar .plain read.text) with
    cursor := read.cursor }

/-- The characters that begin no plain scalar by themselves. -/
def isIndicator (c : Char) : Bool :=
  isGap c || c ∈ "-?:,[]\x7b\x7d#&*!|>'\"%@\x60".toList

/-- Whether a plain scalar begins here: a dash, a question mark or a colon may begin one when
no gap follows, the latter two only outside flow collections. -/
def startsPlain (inFlow : Bool) : List Char → Bool
  | [] => false
  | c :: rest =>
      !isIndicator c || (c = '-' && !(rest.head?.any isSpace)) ||
        (!inFlow && (c = '?' || c = ':') && !startsWithGap rest)

/-- Read the token that starts with the character `c`. -/
def fetch (scanner : Scanner) (c : Char) (rest : List Char) : Except Fault Scanner :=
  let cs := c :: rest
  let atLineStart := scanner.cursor.mark.column = 0
  if atLineStart ∧ c = '%' then scanner.fetchDirective
  else if atLineStart ∧ startsWithMarks '-' cs then scanner.fetchDocumentMark .documentStart
  else if atLineStart ∧ startsWithMarks '.' cs then scanner.fetchDocumentMark .documentEnd
  else if c = '[' then scanner.fetchFlowStart .flowSequence
  else if c = '\x7b' then scanner.fetchFlowStart .flowMapping
  else if c = ']' then scanner.fetchFlowEnd .flowSequenceEnd
  else if c = '\x7d' then scanner.fetchFlowEnd .flowMappingEnd
  else if c = ',' then scanner.fetchFlowEntry
  else if c = '-' ∧ startsWithGap rest then scanner.fetchBlockMark .blockSequence .blockEntry true
  else if c = '?' ∧ (scanner.inFlow ∨ startsWithGap rest) then
    scanner.fetchBlockMark .blockMapping .key (!scanner.inFlow)
  else if c = ':' ∧ (scanner.inFlow ∨ startsWithGap rest) then scanner.fetchValue
  else if c = '*' then do
    let (name, after) ← readAnchor rest
    scanner.fetchName (.reference name) after
  else if c = '&' then do
    let (name, after) ← readAnchor rest
    scanner.fetchName (.anchor name) after
  else if c = '!' then scanner.fetchTag
  else if c = '|' ∧ !scanner.inFlow then scanner.fetchBlockScalar true
  else if c = '>' ∧ !scanner.inFlow then scanner.fetchBlockScalar false
  else if c = '\'' ∨ c = '"' then scanner.fetchQuoted c
  else if startsPlain scanner.inFlow cs then scanner.fetchPlain
  else .error .unknownToken

/-- Read all tokens.  Each one takes up text, or the text is not YAML. -/
def run (scanner : Scanner) : Except Fault (List Token) :=
  match scanner.advance with
  | .error fault => .error fault
  | .ok reached =>
      match reached.cursor.rest with
      | [] => ((closeBlocks 0 reached).dropCandidate).map fun final => final.tokens.reverse
      | c :: rest =>
          match reached.fetch c rest with
          | .error fault => .error fault
          | .ok next =>
              if next.cursor.rest.length < scanner.cursor.rest.length then run next
              else .error .unknownToken
termination_by scanner.cursor.rest.length

end Scanner

/-- The tokens of a text. -/
def tokens (text : String) : Except Fault (List Token) :=
  match characters? text with
  | none => .error .forbiddenCharacter
  | some cs => (Scanner.start cs).run

end Yaml
end LayeredConfig

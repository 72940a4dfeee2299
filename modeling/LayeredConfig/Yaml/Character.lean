namespace LayeredConfig
namespace Yaml

/-!
Characters of YAML texts: which ones may occur, and which ones end lines and
separate words.
-/

/-- The characters that a text may hold; of the control characters only tab, line feed,
carriage return and next line. -/
def isAllowed (c : Char) : Bool :=
  let code := c.toNat
  code == 0x09 || code == 0x0A || code == 0x0D || (0x20 ≤ code && code ≤ 0x7E) || code == 0x85 ||
    (0xA0 ≤ code && code ≤ 0xD7FF) || (0xE000 ≤ code && code ≤ 0xFFFD) || 0x10000 ≤ code

/-- Write each line end of one line feed, whether it was a line feed, a carriage return, both
or a next line.  The two Unicode separators stay. -/
def unifyBreaks : List Char → List Char
  | [] => []
  | '\r' :: '\n' :: rest => '\n' :: unifyBreaks rest
  | c :: rest =>
      (if c = '\r' || c = '\x85' then '\n' else c) :: unifyBreaks rest

/-- The characters of a text with unified line ends; `none` when one may not occur. -/
def characters? (text : String) : Option (List Char) :=
  if text.toList.all isAllowed then some (unifyBreaks text.toList) else none

/-- Line ends, once they are unified. -/
def isBreak (c : Char) : Bool :=
  c = '\n' || c = '\u2028' || c = '\u2029'

/-- Spaces and tabs. -/
def isSpace (c : Char) : Bool :=
  c = ' ' || c = '\t'

def isGap (c : Char) : Bool :=
  isSpace c || isBreak c

/-- Whether a text starts with a gap or is over. -/
def startsWithGap : List Char → Bool
  | [] => true
  | c :: _ => isGap c

/-- The characters of anchors, tag handles and directive names. -/
def isWord (c : Char) : Bool :=
  c.isAlphanum || c = '_' || c = '-'

/-- The marks that surround and separate the entries of flow collections. -/
def isFlowMark (c : Char) : Bool :=
  c = ',' || c = '[' || c = ']' || c = '\x7b' || c = '\x7d'

/-- Whether a text starts with three equal marks and then a gap: the start or the end of a
document when it stands at the start of a line. -/
def startsWithMarks (mark : Char) : List Char → Bool
  | a :: b :: c :: rest => a = mark && b = mark && c = mark && startsWithGap rest
  | _ => false

def startsWithDocumentMark (cs : List Char) : Bool :=
  startsWithMarks '-' cs || startsWithMarks '.' cs

end Yaml
end LayeredConfig

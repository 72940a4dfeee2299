import LayeredConfig.Text.Integer
import LayeredConfig.Yaml.Token

namespace LayeredConfig
namespace Yaml

/-! Reading the names of anchors, tags and directives. -/

/-- The characters of tags, apart from those that escape others. -/
def isTagChar (c : Char) : Bool :=
  isWord c || c ∈ ";/?:@&=+$.!~*'()".toList

/-- One byte written as a percent sign and two hexadecimal digits. -/
def readByte : List Char → Option (UInt8 × List Char)
  | '%' :: high :: low :: rest =>
      match Text.digitValue? 16 high, Text.digitValue? 16 low with
      | some h, some l => some (UInt8.ofNat (h * 16 + l), rest)
      | _, _ => none
  | _ => none

/-- The number of bytes of a character, from its first byte. -/
def byteWidth? (byte : UInt8) : Option Nat :=
  if byte < 0x80 then some 1
  else if 0xC0 ≤ byte && byte < 0xE0 then some 2
  else if 0xE0 ≤ byte && byte < 0xF0 then some 3
  else if 0xF0 ≤ byte && byte < 0xF8 then some 4
  else none

/-- Read the bytes that continue a character. -/
def readContinuation : (count : Nat) → List Char → Option (List UInt8 × List Char)
  | 0, rest => some ([], rest)
  | count + 1, cs =>
      match readByte cs with
      | some (byte, rest) =>
          if 0x80 ≤ byte && byte < 0xC0 then
            (readContinuation count rest).map fun (bytes, after) => (byte :: bytes, after)
          else none
      | none => none

/-- Read the bytes of an escaped character, as many as the first of them asks for.  They may
spell no character. -/
def readEscaped (cs : List Char) : Option (List UInt8 × List Char) :=
  match readByte cs with
  | none => none
  | some (byte, rest) =>
      match byteWidth? byte with
      | none => none
      | some width =>
          (readContinuation (width - 1) rest).map fun (bytes, after) => (byte :: bytes, after)

/-- Read the bytes of a tag, at most `bound` characters.  Commas and brackets belong to it
only between angle brackets. -/
def readTagText (verbatim : Bool) : (bound : Nat) → List Char →
    Except Fault (List UInt8 × List Char)
  | 0, cs => .ok ([], cs)
  | _ + 1, [] => .ok ([], [])
  | bound + 1, c :: rest =>
      if c = '%' then
        match readEscaped (c :: rest) with
        | none => .error .tag
        | some (escaped, after) =>
            (readTagText verbatim bound after).map fun (bytes, last) => (escaped ++ bytes, last)
      else if isTagChar c || (verbatim && (c = ',' || c = '[' || c = ']')) then
        (readTagText verbatim bound rest).map fun (bytes, last) =>
          (String.utf8EncodeChar c ++ bytes, last)
      else .ok ([], c :: rest)

/-- Read a tag handle, with its second exclamation mark if there is one. -/
def readHandle : List Char → Option (List Char × List Char)
  | '!' :: rest =>
      let word := rest.takeWhile isWord
      match rest.dropWhile isWord with
      | '!' :: after => some ('!' :: word ++ ['!'], after)
      | after => some ('!' :: word, after)
  | _ => none

/-- Read a tag at its exclamation mark: handle, suffix and the rest.  A tag between angle
brackets has no handle, and neither has the lone mark. -/
def readTag (cs : List Char) : Except Fault (String × Tag × List Char) := do
  let bound := cs.length
  match cs with
  | '!' :: '<' :: rest =>
      let (bytes, after) ← readTagText true bound rest
      match bytes, after with
      | _ :: _, '>' :: last => return ("", Tag.ofBytes bytes, last)
      | _, _ => throw .tag
  | _ =>
      match readHandle cs with
      | none => throw .tag
      | some (handle, rest) =>
          if 1 < handle.length ∧ handle.getLast? = some '!' then
            let (bytes, after) ← readTagText false bound rest
            if bytes.isEmpty then throw .tag
            return (String.ofList handle, Tag.ofBytes bytes, after)
          else
            let (bytes, after) ← readTagText false bound rest
            let suffix := (Tag.ofText (String.ofList (handle.drop 1))).append (Tag.ofBytes bytes)
            if suffix.isEmpty then return ("", Tag.ofText "!", after)
            else return ("!", suffix, after)

/-- Whether a tag or an anchor may end before the rest of a text. -/
def endsTag (inFlow : Bool) (cs : List Char) : Bool :=
  startsWithGap cs || (inFlow && cs.head? = some ',')

/-- Read the name of an anchor or a reference after its mark. -/
def readAnchor (cs : List Char) : Except Fault (String × List Char) :=
  let name := cs.takeWhile isWord
  let rest := cs.dropWhile isWord
  let ends := startsWithGap rest || rest.head?.any (fun c => c ∈ "?:,]\x7d%@\x60".toList)
  if name.isEmpty || !ends then .error .anchor else .ok (String.ofList name, rest)

/-- Read up to nine decimal digits. -/
def readVersionNumber (cs : List Char) : Except Fault (Nat × List Char) :=
  let digits := cs.takeWhile Char.isDigit
  if digits.isEmpty || 9 < digits.length then .error .directive
  else .ok (digits.foldl (fun number c => number * 10 + (c.toNat - '0'.toNat)) 0,
    cs.dropWhile Char.isDigit)

/-- Read a directive after its percent sign, with its line and the end of that. -/
def readDirective (cs : List Char) : Except Fault (Token × List Char) := do
  let name := cs.takeWhile isWord
  let rest := cs.dropWhile isWord
  if name.isEmpty || !startsWithGap rest then throw .directive
  let body := rest.dropWhile isSpace
  let (token, after) ←
    if name = "YAML".toList then do
      let (major, dotted) ← readVersionNumber body
      match dotted with
      | '.' :: minorText =>
          let (minor, last) ← readVersionNumber minorText
          pure (Token.version major minor, last)
      | _ => throw .directive
    else if name = "TAG".toList then
      match readHandle body with
      | none => throw .directive
      | some (handle, spaced) => do
          if handle ≠ ['!'] ∧ handle.getLast? ≠ some '!' then throw .directive
          if !(spaced.head?.any isSpace) then throw .directive
          let (meaning, last) ← readTagText true cs.length (spaced.dropWhile isSpace)
          if meaning.isEmpty || !startsWithGap last then throw .directive
          pure (Token.tagDirective (String.ofList handle) (Tag.ofBytes meaning), last)
    else throw .directive
  let spaced := after.dropWhile isSpace
  let last := if spaced.head? = some '#' then spaced.dropWhile (!isBreak ·) else spaced
  if last.head?.all isBreak then return (token, last.drop 1) else throw .directive

end Yaml
end LayeredConfig

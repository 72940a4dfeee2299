namespace LayeredConfig
namespace Text

/-!
JSON values and their text on several lines, two spaces deeper at each level.
-/

inductive Json where
  | null
  | boolean (value : Bool)
  | string (text : String)
  | array (items : List Json)
  | object (fields : List (String × Json))

namespace Json

/-- An object with its fields in the order of their names. -/
def record (fields : List (String × Json)) : Json :=
  object (fields.mergeSort (fun first second => first.1 ≤ second.1))

def strings (texts : List String) : Json :=
  array (texts.map string)

/-- The text, or null for none. -/
def optional : Option String → Json
  | none => null
  | some text => string text

/-- A hexadecimal digit. -/
def hexDigit (n : Nat) : Char :=
  if n < 10 then Char.ofNat ('0'.toNat + n) else Char.ofNat ('a'.toNat + (n - 10))

/-- A character inside quotes. -/
def escape (c : Char) : List Char :=
  if c = '"' then ['\\', '"']
  else if c = '\\' then ['\\', '\\']
  else if c = '\n' then ['\\', 'n']
  else if c = '\r' then ['\\', 'r']
  else if c = '\t' then ['\\', 't']
  else if c = '\x08' then ['\\', 'b']
  else if c = '\x0c' then ['\\', 'f']
  else if c.toNat < 0x20 then
    ['\\', 'u', '0', '0', hexDigit (c.toNat / 16), hexDigit (c.toNat % 16)]
  else [c]

def quote (text : String) : String :=
  String.ofList ('"' :: text.toList.flatMap escape ++ ['"'])

/-- A new line at some depth. -/
def line (depth : Nat) : String :=
  String.ofList ('\n' :: List.replicate (2 * depth) ' ')

mutual

/-- The text of a value whose closing bracket stands at `depth`. -/
def render (depth : Nat) : Json → String
  | null => "null"
  | boolean true => "true"
  | boolean false => "false"
  | string text => quote text
  | array [] => "[]"
  | array (first :: rest) =>
      "[" ++ line (depth + 1) ++ render (depth + 1) first ++ renderItems (depth + 1) rest ++
        line depth ++ "]"
  | object [] => "\x7b\x7d"
  | object ((name, first) :: rest) =>
      "\x7b" ++ line (depth + 1) ++ quote name ++ ": " ++ render (depth + 1) first ++
        renderFields (depth + 1) rest ++ line depth ++ "\x7d"

/-- The text of items that follow another one. -/
def renderItems (depth : Nat) : List Json → String
  | [] => ""
  | item :: rest => "," ++ line depth ++ render depth item ++ renderItems depth rest

/-- The text of fields that follow another one. -/
def renderFields (depth : Nat) : List (String × Json) → String
  | [] => ""
  | (name, value) :: rest =>
      "," ++ line depth ++ quote name ++ ": " ++ render depth value ++ renderFields depth rest

end

/-- The text of a value. -/
def pretty (value : Json) : String :=
  render 0 value

end Json
end Text
end LayeredConfig

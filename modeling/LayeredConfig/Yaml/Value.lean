import LayeredConfig.Yaml.Document
import LayeredConfig.Yaml.Number

namespace LayeredConfig
namespace Yaml

/-!
The values of documents.

Plain scalars spell null, truth values, numbers or strings; other scalars are
strings.  The keys of a mapping are distinct as values.
-/

inductive Value where
  | null
  | boolean (value : Bool)
  | number (value : Numeral)
  | string (text : String)
  | sequence (items : List Value)
  | mapping (entries : List (Value × Value))
  | tagged (tag : String) (inner : Value)

namespace Value

mutual

/-- Whether two values are the same; the order of mappings does not count, nor does an
exclamation mark before the name of a tag. -/
def same : Value → Value → Bool
  | null, null => true
  | boolean left, boolean right => left = right
  | number left, number right => left.same right
  | string left, string right => left = right
  | sequence left, sequence right => sameItems left right
  | mapping left, mapping right => left.length = right.length && within left right
  | tagged left inner, tagged right other =>
      Tag.withoutMark left = Tag.withoutMark right && same inner other
  | _, _ => false

def sameItems : List Value → List Value → Bool
  | [], [] => true
  | left :: lefts, right :: rights => same left right && sameItems lefts rights
  | _, _ => false

/-- Whether every entry of the one list is in the other. -/
def within : List (Value × Value) → List (Value × Value) → Bool
  | [], _ => true
  | (key, value) :: rest, entries =>
      entries.any (fun entry => same key entry.1 && same value entry.2) && within rest entries

end

end Value

/-- The spellings of null. -/
def isNull (text : String) : Bool :=
  text ∈ ["null", "Null", "NULL", "~"]

def boolean? (text : String) : Option Bool :=
  if text ∈ ["true", "True", "TRUE"] then some true
  else if text ∈ ["false", "False", "FALSE"] then some false
  else none

/-- The whole number that a text spells.  One that does not fit 64 bits but 128 is an error. -/
def readInteger (text : String) : Except Fault (Option Int) :=
  let cs := text.toList
  match Numeral.integer? (Nat.pow 2 63) (Nat.pow 2 64 - 1) cs with
  | some value => .ok (some value)
  | none =>
      if (Numeral.integer? (Nat.pow 2 127) (Nat.pow 2 128 - 1) cs).isSome then .error .scalar
      else .ok none

/-- The value of a plain scalar. -/
def readPlainValue (text : String) : Except Fault Value :=
  if text.isEmpty || isNull text then .ok .null
  else
    match boolean? text with
    | some value => .ok (.boolean value)
    | none =>
        match readInteger text with
        | .error fault => .error fault
        | .ok (some value) => .ok (.number (.integer value))
        | .ok none =>
            if Numeral.hasLeadingZero text.toList then .ok (.string text)
            else
              match Numeral.float? text.toList with
              | some value => .ok (.number (.float value))
              | none => .ok (.string text)

/-- The value of a scalar with a tag that has no name.  The tag may be that of a type of the
core schema; scalars of other tags are strings, but one without quotes is read as usual when its
tag is local. -/
def readTyped (type : Tag) (style : ScalarStyle) (text : String) : Except Fault Value :=
  let whenSome (value : Option Value) : Except Fault Value :=
    match value with
    | some result => .ok result
    | none => .error .scalar
  if type = Tag.core "bool" then whenSome ((boolean? text).map .boolean)
  else if type = Tag.core "int" then do
    whenSome ((← readInteger text).map fun value => .number (.integer value))
  else if type = Tag.core "float" then
    whenSome ((Numeral.float? text.toList).map fun value => .number (.float value))
  else if type = Tag.core "null" then
    whenSome (if isNull text then some .null else none)
  else if type.isLocal && style = .plain then readPlainValue text
  else .ok (.string text)

/-- The value of a scalar with a tag that has no name, or with none. -/
def readScalar (tag : Option Tag) (style : ScalarStyle) (text : String) : Except Fault Value :=
  match tag with
  | some type => readTyped type style text
  | none => if style = .plain then readPlainValue text else .ok (.string text)

namespace Document

/-- The value of a node whose tag has a name is tagged. -/
def withTag (tag : Option Tag) (read : Option Tag → Except Fault (Value × Nat)) :
    Except Fault (Value × Nat) :=
  match tag.bind Tag.name? with
  | some name => (read none).map fun (value, steps) => (.tagged name value, steps)
  | none => read tag

/-- Read items one after the other, each with the steps that the ones before it took. -/
def readAll (read : Node → Nat → Except Fault (Value × Nat)) :
    List Node → Nat → Except Fault (List Value × Nat)
  | [], steps => .ok ([], steps)
  | item :: rest, steps => do
      let (value, after) ← read item steps
      let (more, final) ← readAll read rest after
      return (value :: more, final)

/-- Read entries one after the other; `known` are the keys before them. -/
def readEntries (read : Node → Nat → Except Fault (Value × Nat)) (known : List Value) :
    List (Node × Node) → Nat → Except Fault (List (Value × Value) × Nat)
  | [], steps => .ok ([], steps)
  | (key, value) :: rest, steps => do
      let (keyValue, afterKey) ← read key steps
      if known.any (fun other => other.same keyValue) then throw .duplicateKey
      let (valueValue, after) ← read value afterKey
      let (more, final) ← readEntries read (keyValue :: known) rest after
      return ((keyValue, valueValue) :: more, final)

/-- Count a reference that is followed; there may be a hundred for each part of the document. -/
def countStep (document : Document) (node : Node) (steps : Nat) : Except Fault Nat :=
  match node with
  | .reference _ =>
      if document.root.size * 100 < steps + 1 then .error .tooManyAliases else .ok (steps + 1)
  | _ => .ok steps

/-- The value of a node that refers to no other; `read` reads the nodes in a collection, unless
there may be none.  `steps` counts the references followed so far. -/
def readResolved (read : Option (Node → Nat → Except Fault (Value × Nat))) (steps : Nat) :
    Node → Except Fault (Value × Nat)
  | .reference _ => throw .unknownAnchor
  | .scalar tag style text =>
      withTag tag fun type => (readScalar type style text).map fun value => (value, steps)
  | .sequence tag items =>
      match read with
      | none => throw .tooDeep
      | some read =>
          withTag tag fun _ =>
            (readAll read items steps).map fun (values, after) => (.sequence values, after)
  | .mapping tag entries =>
      match read with
      | none => throw .tooDeep
      | some read =>
          withTag tag fun _ =>
            (readEntries read [] entries steps).map fun (values, after) => (.mapping values, after)

/-- The value of a node with at most `depth` collections inside one another. -/
def readValue (document : Document) : (depth : Nat) → Node → Nat → Except Fault (Value × Nat)
  | 0, node, steps => do
      let counted ← document.countStep node steps
      readResolved none counted (← document.resolve node)
  | depth + 1, node, steps => do
      let counted ← document.countStep node steps
      readResolved (some (document.readValue depth)) counted (← document.resolve node)

/-- The greatest number of collections inside one another. -/
def depthLimit : Nat := 128

def value (document : Document) : Except Fault Value :=
  (document.readValue depthLimit document.root 0).map Prod.fst

end Document

/-- The values of the documents of a text. -/
def parse (text : String) : Except Fault (List Value) := do
  (← Document.parseAll text).mapM Document.value

end Yaml
end LayeredConfig

import LayeredConfig.KeyedList
import LayeredConfig.Yaml.Value

namespace LayeredConfig
namespace Yaml
namespace Record

/-!
Reading nodes as records of known fields.

A text is taken from any scalar as it is written.  Where a list or a record is
expected, nothing at all stands for an empty one.  The references that are
followed are counted, in whatever place they stand.
-/

/-- A reader, whose state is the number of references followed so far. -/
abbrev Reader (Result : Type) : Type :=
  StateT Nat (Except Fault) Result

/-- Run a reader from the start of a document. -/
def run (reader : Reader Result) : Except Fault Result :=
  (reader 0).map Prod.fst

/-- The node itself or the one that it refers to. -/
def follow (document : Document) (node : Node) : Reader Node := do
  set (← document.countStep node (← get))
  document.resolve node

/-- The text of a scalar. -/
def text (document : Document) (node : Node) : Reader String := do
  match ← follow document node with
  | .scalar _ _ text => return text
  | _ => throw .record

/-- Whether a node is missing. -/
def isMissing : Node → Bool
  | .scalar _ .plain "" => true
  | _ => false

/-- A list of what `read` reads. -/
def list (read : Document → Node → Reader Result) (document : Document) (node : Node) :
    Reader (List Result) := do
  match ← follow document node with
  | .sequence _ items => items.mapM (read document)
  | other => if isMissing other then return [] else throw .record

/-- What `read` reads, or nothing for null. -/
def option (read : Document → Node → Reader Result) (document : Document) (node : Node) :
    Reader (Option Result) := do
  let target ← follow document node
  match target with
  | .scalar (some tag) .plain text =>
      if tag = Tag.core "null" then
        if isNull text then return none else throw .record
      else return some (← read document target)
  | .scalar none .plain text =>
      if text.isEmpty || isNull text then return none else return some (← read document target)
  | _ => return some (← read document target)

/-- A whole number of 32 bits with a sign. -/
def int32 (document : Document) (node : Node) : Reader Int := do
  match ← follow document node with
  | .scalar tag style text =>
      if style = .plain ∨ (style = .literal ∧ tag = some (Tag.core "int")) then
        match Numeral.integer? (Nat.pow 2 31) (Nat.pow 2 31 - 1) text.toList with
        | some value => return value
        | none => throw .record
      else throw .record
  | _ => throw .record

/-- One of some names, written as a scalar or as the tag of a null. -/
def choice (find? : String → Option Result) (document : Document) (node : Node) :
    Reader Result := do
  let found (name : String) : Reader Result :=
    match find? name with
    | some result => return result
    | none => throw .record
  match ← follow document node with
  | .scalar tag style text =>
      match tag.bind Tag.name? with
      | none => found text
      | some name =>
          if style = .plain ∧ (text.isEmpty ∨ isNull text) then found name else throw .record
  | _ => throw .record

/-- The entries of a mapping. -/
def entries (document : Document) (node : Node) : Reader (List (Node × Node)) := do
  match ← follow document node with
  | .mapping _ entries => return entries
  | other => if isMissing other then return [] else throw .record

/-- A mapping of texts to texts; a repeated key takes its last value. -/
def table (document : Document) (node : Node) : Reader (KeyedList String String) := do
  let pairs ← (← entries document node).mapM fun (key, value) => do
    return (← text document key, ← text document value)
  return KeyedList.ofList pairs

/-- The nodes of the known fields of a record, each at most once; others are passed over. -/
def fields (known : List String) (document : Document) (node : Node) :
    Reader (KeyedList String Node) := do
  (← entries document node).foldlM (fun found (key, value) => do
    let name ← text document key
    if name ∉ known then return found
    else if found.contains name then throw .record
    else return found.insert name value) KeyedList.empty

/-- A field that must be present. -/
def required (found : KeyedList String Node) (name : String) (read : Node → Reader Result) :
    Reader Result :=
  match found.get? name with
  | some node => read node
  | none => throw .record

/-- A field with a value for its absence. -/
def optional (found : KeyedList String Node) (name : String) (absent : Result)
    (read : Node → Reader Result) : Reader Result :=
  match found.get? name with
  | some node => read node
  | none => return absent

end Record
end Yaml
end LayeredConfig

import LayeredConfig.Property.Source
import LayeredConfig.Yaml.Value

namespace LayeredConfig
namespace Property

/-!
Properties from nested values: the keys along a path are joined by points and
positions in a sequence stand in brackets.
-/

open Yaml (Value)

/-- The text of a value that is no collection. -/
def leafText : Value → Option String
  | .null => some ""
  | .boolean value => some (if value then "true" else "false")
  | .number value => some value.text
  | .string text => some text
  | .tagged _ inner => leafText inner
  | .sequence _ => none
  | .mapping _ => none

/-- The path of a key below another path. -/
def fieldPath (path : Option String) (key : String) : String :=
  match path with
  | none => key
  | some outer => outer ++ "." ++ key

mutual

/-- The leaves below a path, in order.  Keys that are collections are passed over with their
values, and a value at the top that is no collection has no path. -/
def flatten (path : Option String) : Value → List (String × String)
  | .mapping entries => flattenEntries path entries
  | .sequence items => flattenItems (path.getD "") 0 items
  | .tagged _ inner => flatten path inner
  | leaf =>
      match path, leafText leaf with
      | some key, some text => [(key, text)]
      | _, _ => []

def flattenEntries (path : Option String) : List (Value × Value) → List (String × String)
  | [] => []
  | (key, value) :: rest =>
      (match leafText key with
        | none => []
        | some name => flatten (some (fieldPath path name)) value) ++ flattenEntries path rest

def flattenItems (path : String) (index : Nat) : List Value → List (String × String)
  | [] => []
  | item :: rest =>
      flatten (some (Source.itemKey path index)) item ++ flattenItems path (index + 1) rest

end

/-- The properties of a document. -/
def ofValue (value : Value) : Table :=
  KeyedList.ofList (flatten none value)

end Property
end LayeredConfig

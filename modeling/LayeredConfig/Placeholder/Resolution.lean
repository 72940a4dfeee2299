import LayeredConfig.Error
import LayeredConfig.KeyedList
import LayeredConfig.Names
import LayeredConfig.Placeholder.Segment

namespace LayeredConfig
namespace Placeholder

/-!
Resolving the placeholders of a text.

The value of a key is resolved in turn, and so is the fallback of a key without
a value.  A key that is met again while it is being resolved is an error.
Resolution ends because each step into a value uses up a key that has one, and
every other step goes to a shorter text.
-/

/-- Values by key, of which finitely many are present. -/
structure Lookup where
  get? : String → Option String
  keys : List String
  covers : ∀ key value, get? key = some value → key ∈ keys

namespace Lookup

/-- The values of a list of pairs. -/
def ofTable (table : KeyedList String String) : Lookup where
  get? := table.get?
  keys := table.keys
  covers := fun key value found =>
    List.mem_map.2 ⟨(key, value), (KeyedList.get?_eq_some_iff table key value).1 found, rfl⟩

/-- The number of keys with a value that are not being resolved. -/
def unvisited (lookup : Lookup) (visiting : List String) : Nat :=
  (Names.missing lookup.keys visiting).length

theorem unvisited_cons_le (lookup : Lookup) (visiting : List String) (key : String) :
    lookup.unvisited (key :: visiting) ≤ lookup.unvisited visiting :=
  Names.length_missing_le lookup.keys (List.subset_cons_self key visiting)

theorem unvisited_cons_lt (lookup : Lookup) {visiting : List String} {key value : String}
    (free : key ∉ visiting) (found : lookup.get? key = some value) :
    lookup.unvisited (key :: visiting) < lookup.unvisited visiting :=
  Names.length_missing_lt (lookup.covers key value found) free (by simp)
    (List.subset_cons_self key visiting)

end Lookup

/-- What becomes of a key that has neither value nor fallback. -/
inductive Mode where
  | strict
  | lenient
  deriving DecidableEq, Repr

mutual

/-- Resolve a text while the keys in `visiting` are being resolved. -/
def resolveText (lookup : Lookup) (mode : Mode) (visiting : List String) (text : List Char) :
    Except Error (List Char) :=
  ((segments text).attach.mapM fun part =>
    resolveSegment lookup mode visiting text part.val part.property).map List.flatten
termination_by (lookup.unvisited visiting, text.length, 1)

/-- Resolve one segment of `text`. -/
def resolveSegment (lookup : Lookup) (mode : Mode) (visiting : List String) (text : List Char)
    (segment : Segment) (member : segment ∈ segments text) : Except Error (List Char) :=
  match segment with
  | .literal plain => .ok plain
  | .reference key fallback =>
      have bound := weight_lt_of_mem_segments member
      have shorter : key.length < text.length := by
        cases fallback <;> simp only [Segment.weight] at bound <;> omega
      match if hasReferences key then resolveText lookup mode visiting key else .ok key with
      | .error error => .error error
      | .ok resolved =>
          let name := String.ofList resolved
          if visited : name ∈ visiting then
            .error (.unresolvablePlaceholder name (String.ofList text))
          else
            match found : lookup.get? name with
            | some value =>
                have fewer := lookup.unvisited_cons_lt visited found
                resolveText lookup mode (name :: visiting) value.toList
            | none =>
                match fallback with
                | some other =>
                    have noMore := lookup.unvisited_cons_le visiting name
                    have shorter : other.length < text.length := by
                      simp only [Segment.weight] at bound
                      omega
                    resolveText lookup mode (name :: visiting) other
                | none =>
                    match mode with
                    | .lenient => .ok ('$' :: '{' :: resolved ++ ['}'])
                    | .strict => .error (.unresolvablePlaceholder name (String.ofList text))
termination_by (lookup.unvisited visiting, text.length, 0)
decreasing_by
  · exact Prod.Lex.right _ (Prod.Lex.left _ _ shorter)
  · exact Prod.Lex.left _ _ fewer
  · exact Prod.Lex.right' _ noMore (Prod.Lex.left _ _ shorter)

end

/-- Resolve the placeholders of a text. -/
def resolve (lookup : Lookup) (mode : Mode) (text : String) : Except Error String :=
  (resolveText lookup mode [] text.toList).map String.ofList

end Placeholder
end LayeredConfig

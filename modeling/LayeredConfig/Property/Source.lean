import LayeredConfig.KeyedList
import LayeredConfig.Property.LineFormat
import LayeredConfig.Text.CommaList

namespace LayeredConfig
namespace Property

/-!
A property source: a named layer of properties.

A list is written either as one comma-separated value under its key or item by
item under the keys `key[0]`, `key[1]` and so on.
-/

structure Source where
  name : String
  properties : Table

namespace Source

/-- A source without properties. -/
def named (name : String) : Source where
  name := name
  properties := KeyedList.empty

def get? (source : Source) (key : String) : Option String :=
  source.properties.get? key

def contains (source : Source) (key : String) : Bool :=
  source.properties.contains key

def set (source : Source) (key value : String) : Source :=
  { source with properties := source.properties.insert key value }

def erase (source : Source) (key : String) : Source :=
  { source with properties := source.properties.erase key }

def rename (source : Source) (name : String) : Source :=
  { source with name := name }

/-- Two sources agree when their names do and they hold the same properties in any order. -/
def agrees (left right : Source) : Bool :=
  left.name = right.name && left.properties.sameEntries right.properties

/-- The key of one item of a list. -/
def itemKey (key : String) (index : Nat) : String :=
  key ++ "[" ++ toString index ++ "]"

/-- The values under `key[index]`, `key[index + 1]`, ... up to the first missing one and
at most `bound` of them. -/
def itemsFrom (source : Source) (key : String) (index : Nat) : (bound : Nat) → List String
  | 0 => []
  | bound + 1 =>
      match source.get? (itemKey key index) with
      | none => []
      | some value => value :: itemsFrom source key (index + 1) bound

/-- The list under `key`, trimmed and without blank items; `none` when neither spelling is
present.  A source cannot hold more items than it has keys, which bounds the search. -/
def list? (source : Source) (key : String) : Option (List String) :=
  match source.get? key with
  | some value => some (Text.commaList value)
  | none =>
      match source.itemsFrom key 0 source.properties.size with
      | [] => none
      | items => some ((items.map Text.trim).filter (· ≠ ""))

/-- The items of a list do not hang on the name of the source. -/
theorem itemsFrom_congr {left right : Source} (same : left.properties = right.properties)
    (key : String) (index bound : Nat) :
    left.itemsFrom key index bound = right.itemsFrom key index bound := by
  induction bound generalizing index with
  | zero => rfl
  | succ bound ih => simp only [itemsFrom, get?, same, ih]

theorem list?_congr {left right : Source} (same : left.properties = right.properties)
    (key : String) : left.list? key = right.list? key := by
  simp only [list?, get?, same, itemsFrom_congr same]

end Source
end Property
end LayeredConfig

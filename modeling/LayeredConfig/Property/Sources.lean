import LayeredConfig.Property.Source

namespace LayeredConfig
namespace Property

/-!
Property sources in order of precedence.  The first source that holds a key
decides its value.  Adding a source first removes the one of the same name.
-/

structure Sources where
  layers : List Source

namespace Sources

def empty : Sources where
  layers := []

def names (sources : Sources) : List String :=
  sources.layers.map Source.name

def size (sources : Sources) : Nat :=
  sources.layers.length

def find? (sources : Sources) (name : String) : Option Source :=
  sources.layers.find? (fun layer => layer.name = name)

def contains (sources : Sources) (name : String) : Bool :=
  sources.layers.any (fun layer => layer.name = name)

/-- The sources without the first one called `name`. -/
def erase (sources : Sources) (name : String) : Sources where
  layers := sources.layers.eraseP (fun layer => layer.name = name)

/-- Add a source with the highest precedence. -/
def addFirst (sources : Sources) (source : Source) : Sources where
  layers := source :: (sources.erase source.name).layers

/-- Add a source with the lowest precedence. -/
def addLast (sources : Sources) (source : Source) : Sources where
  layers := (sources.erase source.name).layers ++ [source]

/-- Put `inserted` just before the first layer called `relative`, or at the end. -/
def insertBefore (relative : String) (inserted : Source) : List Source → List Source
  | [] => [inserted]
  | layer :: rest =>
      if layer.name = relative then inserted :: layer :: rest
      else layer :: insertBefore relative inserted rest

/-- Put `inserted` just after the first layer called `relative`, or at the end. -/
def insertAfter (relative : String) (inserted : Source) : List Source → List Source
  | [] => [inserted]
  | layer :: rest =>
      if layer.name = relative then layer :: inserted :: rest
      else layer :: insertAfter relative inserted rest

/-- Add a source just before `relative`; it comes last when `relative` is missing. -/
def addBefore (sources : Sources) (relative : String) (source : Source) : Sources where
  layers := insertBefore relative source (sources.erase source.name).layers

/-- Add a source just after `relative`; it comes last when `relative` is missing. -/
def addAfter (sources : Sources) (relative : String) (source : Source) : Sources where
  layers := insertAfter relative source (sources.erase source.name).layers

/-- Put `source` in the place of the first layer called `name`. -/
def replaceLayer (name : String) (source : Source) : List Source → List Source
  | [] => []
  | layer :: rest =>
      if layer.name = name then source :: rest else layer :: replaceLayer name source rest

/-- Put `source` in the place of the source called `name`; nothing changes without one. -/
def replace (sources : Sources) (name : String) (source : Source) : Sources where
  layers := replaceLayer name source sources.layers

/-- The value of `key` in the first source that holds it. -/
def get? (sources : Sources) (key : String) : Option String :=
  sources.layers.findSome? (fun layer => layer.get? key)

/-- The name of the source that decides the value of `key`. -/
def origin? (sources : Sources) (key : String) : Option String :=
  (sources.layers.find? (fun layer => layer.contains key)).map Source.name

/-- The list under `key` in the first source that holds it in either spelling. -/
def list? (sources : Sources) (key : String) : Option (List String) :=
  sources.layers.findSome? (fun layer => layer.list? key)

/-- Every key that some source holds. -/
def keys (sources : Sources) : List String :=
  sources.layers.flatMap (fun layer => layer.properties.keys)

theorem mem_keys_of_get? {sources : Sources} {key value : String}
    (found : sources.get? key = some value) : key ∈ sources.keys := by
  obtain ⟨layer, member, held⟩ := List.exists_of_findSome?_eq_some found
  exact List.mem_flatMap.2 ⟨layer, member, List.mem_map.2
    ⟨(key, value), (KeyedList.get?_eq_some_iff _ _ _).1 held, rfl⟩⟩

end Sources
end Property
end LayeredConfig

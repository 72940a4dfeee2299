import LayeredConfig.Property.Flattening
import LayeredConfig.Property.LineFormat
import LayeredConfig.Resource.Store

namespace LayeredConfig
namespace Property

/-!
Loaders: the formats of property files by the extensions of their names.
-/

inductive Format where
  /-- One property a line. -/
  | lines
  /-- Nested values in one or more documents. -/
  | yaml
  deriving DecidableEq, Repr

namespace Format

/-- The properties of each document of a text; documents without properties do not count. -/
def parse : Format → String → Except Yaml.Fault (List Table)
  | lines, text => .ok ([LineFormat.parse text].filter (fun table => !table.isEmpty))
  | yaml, text =>
      (Yaml.parse text).map fun values =>
        (values.map ofValue).filter (fun table => !table.isEmpty)

/-- The name of a source that holds one of `count` documents. -/
def sourceName (format : Format) (name : String) (count index : Nat) : String :=
  if format = yaml ∧ count ≠ 1 then name ++ " (document #" ++ toString index ++ ")" else name

end Format

structure Loader where
  extensions : List String
  format : Format

namespace Loader

def lines : Loader where
  extensions := ["properties"]
  format := .lines

def yaml : Loader where
  extensions := ["yml", "yaml"]
  format := .yaml

/-- The loaders in use unless others are given. -/
def standard : List Loader :=
  [lines, yaml]

/-- Whether the loader takes files of an extension in letters of any case. -/
def claims (loader : Loader) (extension : String) : Bool :=
  loader.extensions.any fun known => Text.asciiLower known = Text.asciiLower extension

/-- The position of the first loader that claims an extension. -/
def position? (loaders : List Loader) (extension : String) : Option Nat :=
  loaders.findIdx? (fun loader => loader.claims extension)

/-- The first loader that claims an extension. -/
def find? (loaders : List Loader) (extension : String) : Option Loader :=
  loaders.find? (fun loader => loader.claims extension)

/-- The documents of a text as sources named after `name`. -/
def load (loader : Loader) (name : String) (resource : Resource) : Except Error (List Source) :=
  match loader.format.parse resource.content with
  | .error _ => .error (.configLoad resource.location)
  | .ok tables =>
      .ok (tables.mapIdx fun index table =>
        ⟨loader.format.sourceName name tables.length index, table⟩)

/-- What a loader yields holds the properties of one of the documents of the text. -/
theorem exists_of_mem_load {loader : Loader} {name : String} {resource : Resource}
    {sources : List Source} (loaded : loader.load name resource = .ok sources) {source : Source}
    (member : source ∈ sources) :
    ∃ tables, loader.format.parse resource.content = .ok tables ∧ source.properties ∈ tables := by
  unfold load at loaded
  cases parsed : loader.format.parse resource.content with
  | error fault => simp [parsed] at loaded
  | ok tables =>
      simp only [parsed, Except.ok.injEq] at loaded
      subst loaded
      obtain ⟨index, inside, rfl⟩ := List.mem_mapIdx.1 member
      exact ⟨tables, rfl, List.getElem_mem inside⟩

end Loader
end Property
end LayeredConfig

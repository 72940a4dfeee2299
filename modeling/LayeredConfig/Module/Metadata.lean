import LayeredConfig.Error
import LayeredConfig.Names
import LayeredConfig.Property.LineFormat
import LayeredConfig.Resource.Store
import LayeredConfig.Text.CommaList

namespace LayeredConfig
namespace Module

/-!
What is known about modules.

The facts of a module stand in a flat table: a line `module=` marks the module
as known and lines `module.Fact=value` hold its facts.  A manifest, when there
is one, answers for the modules that the table does not know.
-/

namespace Fact

/-- The capabilities that a module needs, separated by commas. -/
def capabilities : String := "ConditionalOnCapability"

/-- The kind of application that a module needs. -/
def applicationKind : String := "ConditionalOnApplicationKind"

/-- The priority of a module; lower ones come first. -/
def priority : String := "AutoConfigureOrder"

/-- The modules that come after this one. -/
def before : String := "AutoConfigureBefore"

/-- The modules that come before this one. -/
def after : String := "AutoConfigureAfter"

end Fact

/-- The facts of one module as a manifest states them. -/
structure Entry where
  id : String
  requires : List String
  before : List String
  after : List String
  order : Option Int
  applicationKind : Option String

namespace Entry

/-- A list as one text; an empty list states nothing. -/
def joined (names : List String) : Option String :=
  if names.isEmpty then none else some (",".intercalate names)

/-- The text of a fact. -/
def read (entry : Entry) (fact : String) : Option String :=
  if fact = Fact.capabilities then joined entry.requires
  else if fact = Fact.before then joined entry.before
  else if fact = Fact.after then joined entry.after
  else if fact = Fact.priority then entry.order.map toString
  else if fact = Fact.applicationKind then entry.applicationKind
  else none

end Entry

/-- Entries by module; a later entry of the same module takes the place of the earlier. -/
abbrev Manifest := KeyedList String Entry

namespace Manifest

def ofEntries (entries : List Entry) : Manifest :=
  KeyedList.ofList (entries.map fun entry => (entry.id, entry))

end Manifest

structure Metadata where
  table : Property.Table
  manifest : Option Manifest

namespace Metadata

/-- Where the table is looked up. -/
def location : String := "classpath:/META-INF/autowire-metadata.properties"

def empty : Metadata where
  table := KeyedList.empty
  manifest := none

/-- Merge a table into the metadata; its values win. -/
def addTable (metadata : Metadata) (text : String) : Metadata :=
  { metadata with
    table := metadata.table.insertAll (Property.LineFormat.parse text).entries }

def ofTable (text : String) : Metadata :=
  empty.addTable text

/-- Metadata that a manifest alone provides. -/
def ofManifest (manifest : Manifest) : Metadata where
  table := KeyedList.empty
  manifest := some manifest

/-- Merge the tables found at the locations. -/
def load (store : Resource.Store) (locations : List String) : Except Error Metadata :=
  (store.findAll locations).map fun resources =>
    resources.foldl (fun metadata resource => metadata.addTable resource.content) empty

def isEmpty (metadata : Metadata) : Bool :=
  metadata.table.isEmpty && metadata.manifest.isNone

/-- Every module that the metadata knows, and perhaps other names. -/
def known (metadata : Metadata) : List String :=
  metadata.table.keys ++ (metadata.manifest.map KeyedList.keys).getD []

/-- Whether anything is known about the module. -/
def knows (metadata : Metadata) (module : String) : Bool :=
  metadata.table.contains module || metadata.manifest.any (fun manifest => manifest.contains module)

theorem mem_known_of_knows {metadata : Metadata} {module : String}
    (knows : metadata.knows module = true) : module ∈ metadata.known := by
  unfold Metadata.knows at knows
  unfold known
  cases fallback : metadata.manifest with
  | none => simp_all [KeyedList.contains_iff_mem_keys]
  | some manifest =>
      simp only [fallback, Option.any_some, Bool.or_eq_true, KeyedList.contains_iff_mem_keys] at knows
      simpa using knows

/-- The text of a fact of a module. -/
def read (metadata : Metadata) (module fact : String) : Option String :=
  if metadata.table.contains module then metadata.table.get? (module ++ "." ++ fact)
  else metadata.manifest.bind fun manifest =>
    (manifest.get? module).bind fun entry => entry.read fact

/-- A fact that lists names, each once. -/
def readSet (metadata : Metadata) (module fact : String) : Option (List String) :=
  (metadata.read module fact).map fun value => Names.addAll [] (Text.commaList value)

/-- A fact that is a whole number. -/
def readInteger (metadata : Metadata) (module fact : String) : Except Error (Option Int) :=
  match metadata.read module fact with
  | none => .ok none
  | some value =>
      match Text.readInt32 (Text.trim value) with
      | .ok number => .ok (some number)
      | .error fault => .error (.invalidMetadata module fact value fault)

end Metadata
end Module
end LayeredConfig

import LayeredConfig.Assembly.Request
import LayeredConfig.Module.ApplicationKind
import LayeredConfig.Yaml.Record

namespace LayeredConfig
namespace Startup

/-!
What an application is started with.

Paths are taken below the project directory unless they are absolute.
-/

structure Settings where
  /-- Where relative paths and `file:` locations start. -/
  projectDirectory : String
  /-- The directories behind `classpath:` locations, in the order in which they are searched. -/
  classpathRoots : List String
  searchLocations : Option String
  searchNames : Option String
  activeProfiles : List String
  includedProfiles : List String
  /-- Properties above those of all files. -/
  properties : Property.Table
  /-- Modules to leave out. -/
  exclusions : List String
  /-- Capabilities that are present. -/
  capabilities : List String
  /-- A file that lists more capabilities. -/
  capabilityFile : Option String
  /-- Catalogs besides that of the class path. -/
  catalogFiles : List String
  /-- Tables of metadata besides that of the class path. -/
  metadataFiles : List String
  /-- A manifest of modules. -/
  manifest : Option String
  applicationKind : Module.ApplicationKind

namespace Settings

/-- The settings of a project that states none. -/
def ofProject (directory : String) : Settings where
  projectDirectory := directory
  classpathRoots := []
  searchLocations := none
  searchNames := none
  activeProfiles := []
  includedProfiles := []
  properties := KeyedList.empty
  exclusions := []
  capabilities := []
  capabilityFile := none
  catalogFiles := []
  metadataFiles := []
  manifest := none
  applicationKind := .none

/-- The fields of a settings file. -/
def fields : List String :=
  ["project_dir", "classpath_roots", "search_locations", "search_names", "active_profiles",
    "include_profiles", "properties", "exclusions", "capabilities", "capability_file",
    "catalog_files", "metadata_files", "manifest", "application_kind"]

/-- The settings of a document in which every field may be missing. -/
def ofDocument (document : Yaml.Document) : Yaml.Record.Reader Settings := do
  let found ← Yaml.Record.fields fields document document.root
  let texts (name : String) : Yaml.Record.Reader (List String) :=
    Yaml.Record.optional found name [] (Yaml.Record.list Yaml.Record.text document)
  let option (name : String) : Yaml.Record.Reader (Option String) :=
    Yaml.Record.optional found name none (Yaml.Record.option Yaml.Record.text document)
  return {
    projectDirectory :=
      ← Yaml.Record.optional found "project_dir" "" (Yaml.Record.text document)
    classpathRoots := ← texts "classpath_roots"
    searchLocations := ← option "search_locations"
    searchNames := ← option "search_names"
    activeProfiles := ← texts "active_profiles"
    includedProfiles := ← texts "include_profiles"
    properties :=
      ← Yaml.Record.optional found "properties" KeyedList.empty (Yaml.Record.table document)
    exclusions := ← texts "exclusions"
    capabilities := ← texts "capabilities"
    capabilityFile := ← option "capability_file"
    catalogFiles := ← texts "catalog_files"
    metadataFiles := ← texts "metadata_files"
    manifest := ← option "manifest"
    applicationKind :=
      ← Yaml.Record.optional found "application_kind" .none
        (Yaml.Record.choice Module.ApplicationKind.ofName? document) }

/-- Read settings from a text. -/
def read (text : String) : Except Yaml.Fault Settings := do
  Yaml.Record.run (ofDocument (← Yaml.Document.parseOne text))

/-- Read the settings file at a path. -/
def load (system : Resource.FileSystem) (path : String) : Except Error Settings := do
  let text ← system.readText path
  match read text with
  | .ok settings => return settings
  | .error _ => throw (.configLoad path)

/-- A path below the project directory; an absolute path stands by itself. -/
def resolvePath (settings : Settings) (path : String) : String :=
  Resource.Path.join settings.projectDirectory path

/-- The directories behind `classpath:` locations; `resources` unless others are given. -/
def roots (settings : Settings) : List String :=
  if settings.classpathRoots.isEmpty then [settings.resolvePath "resources"]
  else settings.classpathRoots.map settings.resolvePath

/-- The locations of files given by their paths. -/
def fileLocations (settings : Settings) (paths : List String) : List String :=
  paths.map fun path => Resource.fileScheme ++ settings.resolvePath path

/-- What the settings ask for, as a source above all others. -/
def request (settings : Settings) : Property.Source :=
  Assembly.request settings.properties settings.activeProfiles settings.includedProfiles

end Settings
end Startup
end LayeredConfig

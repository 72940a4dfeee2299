import LayeredConfig.Module.Capabilities
import LayeredConfig.Module.Manifest
import LayeredConfig.Module.Selection
import LayeredConfig.Startup.Settings

namespace LayeredConfig

/-!
Starting an application: assemble its environment, then choose its modules.
-/

structure Startup where
  settings : Startup.Settings
  /-- Where configuration files, catalogs and tables of metadata are found. -/
  store : Resource.Store
  /-- Where the manifest and the list of capabilities are read. -/
  system : Resource.FileSystem
  /-- Says which capabilities are present, in place of the settings. -/
  present : Option (String → Bool)

namespace Startup

/-- What came of a start. -/
structure Result where
  environment : Environment
  selection : Module.Selection
  report : Module.Report
  announced : Option Module.Selection

/-- Start from the files below the project directory and the class path roots. -/
def ofFiles (settings : Settings) (system : Resource.FileSystem) : Startup where
  settings := settings
  store := .files system settings.projectDirectory settings.roots
  system := system
  present := none

def assembler (startup : Startup) : Assembler :=
  { Assembler.standard startup.store with
    search := ⟨startup.settings.searchLocations, startup.settings.searchNames⟩ }

/-- Assemble the environment. -/
def environment (startup : Startup) : Except Error Environment :=
  (startup.assembler.assemble (Assembly.ofRequest startup.settings.request)).mapError
    Assembly.Failure.error

/-- The manifest that the settings name. -/
def manifest (startup : Startup) : Except Error (Option Module.Manifest) :=
  match startup.settings.manifest with
  | none => .ok none
  | some path => do
      let path := startup.settings.resolvePath path
      let text ← startup.system.readText path
      return some (← Module.Manifest.parse path text)

/-- The catalog files, and after them the modules of the manifest. -/
def catalog (startup : Startup) (manifest : Option Module.Manifest) :
    Except Error Module.Catalog := do
  let files := startup.settings.fileLocations startup.settings.catalogFiles
  let listed ← Module.Catalog.load startup.store (Module.Catalog.location :: files)
  return listed.extend ((manifest.map KeyedList.keys).getD [])

/-- The tables of metadata, and behind them the manifest. -/
def metadata (startup : Startup) (manifest : Option Module.Manifest) :
    Except Error Module.Metadata := do
  let files := startup.settings.fileLocations startup.settings.metadataFiles
  let tables ← Module.Metadata.load startup.store (Module.Metadata.location :: files)
  return { tables with manifest }

/-- The capabilities that the settings list. -/
def capabilities (startup : Startup) : Except Error Module.Capabilities :=
  let listed := Module.Capabilities.ofNames startup.settings.capabilities
  match startup.settings.capabilityFile with
  | none => .ok listed
  | some path =>
      (startup.system.readText (startup.settings.resolvePath path)).map fun text =>
        listed.union (Module.Capabilities.parse text)

/-- Says which capabilities are present. -/
def registry (startup : Startup) : Except Error (String → Bool) :=
  match startup.present with
  | some present => .ok present
  | none => startup.capabilities.map Module.Capabilities.contains

/-- Assemble the environment and choose the modules. -/
def run (startup : Startup) : Except Error Result := do
  let environment ← startup.environment
  let manifest ← startup.manifest
  let catalog ← startup.catalog manifest
  let metadata ← startup.metadata manifest
  let present ← startup.registry
  let filters := [Module.Filter.onCapability present 1,
    Module.Filter.onApplicationKind startup.settings.applicationKind]
  let outcome := Module.Selection.select catalog filters environment metadata
    startup.settings.exclusions Module.Report.empty
  return {
    environment
    selection := ← outcome.result
    report := outcome.report
    announced := outcome.announced }

end Startup
end LayeredConfig

import LayeredConfig.Assembly.Merge

namespace LayeredConfig

/-!
Assembling an environment from configuration files.

While the files are read, what the default properties say about profiles is
hidden.  It is consulted at the end, and the default properties are restored
and moved to the last place.
-/

/-- Where configuration files are looked up and how they are read. -/
structure Assembler where
  store : Resource.Store
  loaders : List Property.Loader
  search : Assembly.Search

namespace Assembly

/-- A source without what it says about profiles. -/
def withoutProfiles (source : Property.Source) : Property.Source :=
  { source with
    properties := source.properties.filterKeys fun key => !Property.Keys.namesProfiles key }

/-- Put a source in the place of the default properties, if there are any. -/
def replaceDefaults (environment : Environment) (source : Property.Source) : Environment :=
  { environment with
    sources := environment.sources.replace Property.Keys.defaultProperties source }

/-- Move the default properties to the last place. -/
def moveDefaultsLast (environment : Environment) : Environment :=
  match environment.sources.find? Property.Keys.defaultProperties with
  | none => environment
  | some defaults =>
      { environment with
        sources := (environment.sources.erase Property.Keys.defaultProperties).addLast defaults }

/-- The profiles that the default properties ask for; those to activate count only when no
others were activated. -/
def defaultProfiles (environment : Environment) (settled : Bool) (defaults : Property.Source) :
    Except Error (List String) := do
  let included ← environment.resolveItems (defaults.list? Property.Keys.includedProfiles)
  if settled then return included
  let activated ← environment.resolveItems (defaults.list? Property.Keys.activeProfiles)
  return included ++ activated

/-- The profiles that had their turn and are no mere defaults. -/
def requested (queue : Queue) : List String :=
  (queue.begun.filter (fun profile => !profile.isDefault)).map Profile.name

/-- Merge what a run took and settle the active profiles. -/
def finish (progress : Progress) (defaults : Option Property.Source) :
    Except Failure Environment :=
  let merged := progress.merge
  let asked : Except Error (List String) :=
    match defaults with
    | none => .ok []
    | some source => defaultProfiles merged progress.queue.settled source
  match asked with
  | .error error => .error ⟨error, merged⟩
  | .ok profiles => .ok (merged.setActive (profiles ++ requested progress.queue))

end Assembly

namespace Assembler

/-- Reads the files of a store in the standard way. -/
def standard (store : Resource.Store) : Assembler where
  store := store
  loaders := Property.Loader.standard
  search := Assembly.Search.standard

/-- What a run in an environment starts from. -/
def setup (assembler : Assembler) (environment : Environment) : Assembly.Setup where
  search := assembler.search
  loaders := assembler.loaders
  environment := environment
  library := Assembly.Library.ofStore assembler.store environment

/-- Run in an environment and finish. -/
def load (assembler : Assembler) (environment : Environment) (defaults : Option Property.Source) :
    Except Assembly.Failure Environment :=
  ((assembler.setup environment).run).bind fun progress => Assembly.finish progress defaults

/-- Read the configuration files into an environment.  An error comes with the environment as
it was left. -/
def assemble (assembler : Assembler) (environment : Environment) :
    Except Assembly.Failure Environment :=
  match environment.sources.find? Property.Keys.defaultProperties with
  | none => assembler.load environment none
  | some defaults =>
      let hidden := Assembly.replaceDefaults environment (Assembly.withoutProfiles defaults)
      match assembler.load hidden (some defaults) with
      | .error failure =>
          .error { failure with
            environment := Assembly.replaceDefaults failure.environment defaults }
      | .ok assembled =>
          .ok (Assembly.moveDefaultsLast (Assembly.replaceDefaults assembled defaults))

end Assembler
end LayeredConfig

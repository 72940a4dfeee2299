import LayeredConfig.Environment
import LayeredConfig.Module.Catalog
import LayeredConfig.Module.Filter
import LayeredConfig.Module.Order

namespace LayeredConfig
namespace Module

/-!
Choosing modules: the catalog without the exclusions, what the filters keep of
it, and the order of that.
-/

/-- Modules with the exclusions that were in force when they were chosen. -/
structure Selection where
  modules : List String
  exclusions : List String
  deriving DecidableEq, Repr

namespace Selection

def empty : Selection where
  modules := []
  exclusions := []

/-- What came of a choice. -/
structure Outcome where
  result : Except Error Selection
  report : Report
  /-- What listeners hear before the modules are put in order; nothing when it does not get
  so far. -/
  announced : Option Selection

/-- The calls of listeners in the order in which they are made, each with what it is told. -/
def calls {Listener : Type} (announced : Option Selection) (listeners : List Listener) :
    List (Listener × Selection) :=
  match announced with
  | none => []
  | some selection => listeners.map fun listener => (listener, selection)

/-- Texts trimmed, without the blank ones. -/
def named (texts : List String) : List String :=
  (texts.map Text.trim).filter (· ≠ "")

/-- The modules to leave out: those given and then those of the property. -/
def mergeExclusions (environment : Environment) (explicit : List String) :
    Except Error (List String) :=
  (((environment.list? Property.Keys.excludedModules).getD []).mapM environment.resolve).map
    fun resolved => Names.addAll [] (named explicit ++ named resolved)

/-- The exclusions that name known modules outside the catalog. -/
def invalid (catalog : Catalog) (metadata : Metadata) (exclusions : List String) : List String :=
  exclusions.filter fun module => metadata.knows module && !catalog.modules.contains module

/-- Choose modules, adding to a report. -/
def select (catalog : Catalog) (filters : List Filter) (environment : Environment)
    (metadata : Metadata) (explicit : List String) (report : Report) : Outcome :=
  if !environment.getBool Property.Keys.modulesEnabled true then
    { result := .ok empty, report, announced := none }
  else
    match mergeExclusions environment explicit with
    | .error error => { result := .error error, report, announced := none }
    | .ok excluded =>
        if invalid catalog metadata excluded ≠ [] then
          { result := .error (.invalidExclusions (invalid catalog metadata excluded)), report,
            announced := none }
        else
          let remaining := catalog.modules.filter (fun module => !excluded.contains module)
          let (kept, judged) := Filter.run filters metadata remaining report
          { result := (order metadata kept).map fun modules => ⟨modules, excluded⟩
            report := (judged.addCandidates kept).addExclusions excluded
            announced := some ⟨kept, excluded⟩ }

end Selection
end Module
end LayeredConfig

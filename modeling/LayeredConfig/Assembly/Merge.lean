import LayeredConfig.Assembly.Run
import LayeredConfig.Property.Sources

namespace LayeredConfig
namespace Assembly

/-!
Merging what a run took into the sources of an environment.

Each profile has a list of sources, and so have the documents taken for none.
The list that was begun last has the highest precedence.  The merged sources
stand together just above the default properties, or last without those.
-/

/-- The sources by the profile for which they were taken, in the order in which the lists were
begun. -/
abbrev Lists := KeyedList (Option String) Property.Sources

namespace Lists

/-- Enter a document that a run took.  What is left over goes first in its list and does not
repeat a source. -/
def enter (lists : Lists) (taken : Taken) : Lists :=
  let source := taken.document.source
  match taken.pass with
  | .regular =>
      lists.update taken.profile Property.Sources.empty (fun sources => sources.addLast source)
  | .leftover =>
      if lists.entries.any (fun entry => entry.2.contains source.name) then lists
      else lists.update taken.profile Property.Sources.empty fun sources => sources.addFirst source

/-- The lists of what a run took. -/
def ofLog (log : List Taken) : Lists :=
  log.foldl enter KeyedList.empty

/-- Keep the first of the sources of each name. -/
def firstByName (seen : List String) : List Property.Source → List Property.Source
  | [] => []
  | source :: rest =>
      if source.name ∈ seen then firstByName seen rest
      else source :: firstByName (source.name :: seen) rest

/-- The sources of all lists, those of the last list first and each name once. -/
def merged (lists : Lists) : List Property.Source :=
  firstByName [] (lists.entries.reverse.flatMap fun entry => entry.2.layers)

end Lists

/-- Put sources one after the other, the first of them after `previous`, or just above the
default properties. -/
def splice (sources : Property.Sources) (previous : Option String) :
    List Property.Source → Property.Sources
  | [] => sources
  | source :: rest =>
      let placed :=
        match previous with
        | some name => sources.addAfter name source
        | none =>
            if sources.contains Property.Keys.defaultProperties then
              sources.addBefore Property.Keys.defaultProperties source
            else sources.addLast source
      splice placed (some source.name) rest

/-- The environment with the sources that a run took. -/
def Progress.merge (progress : Progress) : Environment :=
  { progress.environment with
    sources := splice progress.environment.sources none (Lists.ofLog progress.log).merged }

end Assembly
end LayeredConfig

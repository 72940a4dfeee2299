import LayeredConfig.Assembly.Run
import LayeredConfig.Proofs.Placeholder.Lookups

namespace LayeredConfig

open Property

/-!
# Environments that look alike

Everything that a run asks an environment is answered by its active profiles, its
defaults, and the values and lists under its keys.  Where these are the same, the
same documents are read from a resource and the same probes are made, however the
values are spread over the sources.
-/

namespace Environment

/-- The environments have the same profiles and the same values and lists under all keys. -/
structure Alike (left right : Environment) : Prop where
  active : left.active = right.active
  defaults : left.defaults = right.defaults
  values : left.get? = right.get?
  lists : left.list? = right.list?

namespace Alike

variable {left right : Environment} (alike : left.Alike right)

include alike

theorem contains : left.contains = right.contains := by
  funext key
  unfold Environment.contains
  rw [alike.values]

theorem resolve : left.resolve = right.resolve := by
  funext text
  exact Placeholder.resolve_congr alike.values .strict text

theorem resolveItems : left.resolveItems = right.resolveItems := by
  funext items
  have each : left.resolveLenient = right.resolveLenient := by
    funext text
    exact Placeholder.resolve_congr alike.values .lenient text
  unfold Environment.resolveItems
  rw [each]

theorem resolveList : left.resolveList = right.resolveList := by
  funext key
  unfold Environment.resolveList
  rw [alike.lists, alike.resolveItems]

theorem isActive : left.isActive = right.isActive := by
  funext name
  unfold Environment.isActive
  rw [alike.active, alike.defaults]

theorem ofSource : Document.ofSource left = Document.ofSource right := by
  funext source
  unfold Document.ofSource
  rw [alike.resolveItems]

theorem isTaken (document : Document) (pass : Document.Pass) (profile : Option String) :
    document.isTaken pass profile left = document.isTaken pass profile right := by
  unfold Document.isTaken Document.isAccepted Environment.accepts
  rw [alike.isActive]

theorem activate (profile : String) : (left.activate profile).Alike (right.activate profile) where
  active := by simp only [Environment.activate, alike.active]
  defaults := alike.defaults
  values := alike.values
  lists := alike.lists

end Alike
end Environment

namespace Assembly

variable {left right : Environment}

namespace Search

theorem entries_of_alike (alike : left.Alike right) (text : String) :
    entries left text = entries right text := by
  unfold entries
  rw [alike.resolve]

theorem ofProperty_of_alike (alike : left.Alike right) (key : String) :
    ofProperty left key = ofProperty right key := by
  unfold ofProperty
  simp only [alike.values, entries_of_alike alike]

theorem allLocations_of_alike (alike : left.Alike right) (search : Search) :
    search.allLocations left = search.allLocations right := by
  unfold allLocations
  simp only [alike.contains, ofProperty_of_alike alike, entries_of_alike alike]

theorem allNames_of_alike (alike : left.Alike right) (search : Search) :
    search.allNames left = search.allNames right := by
  unfold allNames
  rw [alike.values, entries_of_alike alike]

/-- The same probes are made in environments that look alike. -/
theorem probes_of_alike (alike : left.Alike right) (search : Search) (loaders : List Loader)
    (profile : Option String) (earlier : List String) :
    search.probes loaders left profile earlier = search.probes loaders right profile earlier := by
  unfold probes directoryProbes
  rw [allLocations_of_alike alike, allNames_of_alike alike]

end Search

/-- The same documents are read in environments that look alike. -/
theorem Library.read_of_alike (alike : left.Alike right) (store : Resource.Store) :
    read store left = read store right := by
  funext probe
  unfold read
  rw [alike.ofSource]

theorem Queue.start_of_alike (alike : left.Alike right) (activated included : List String) :
    start left activated included = start right activated included := by
  unfold start
  rw [alike.active, alike.defaults]

end Assembly
end LayeredConfig

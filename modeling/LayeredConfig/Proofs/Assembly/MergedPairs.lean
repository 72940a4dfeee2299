import LayeredConfig.Assembly.Merge
import LayeredConfig.Proofs.Property.Pairs

namespace LayeredConfig
namespace Assembly

open Property

/-!
# Merging in pairs

Two logs that are related entry by entry lead to lists of related sources, and
these are merged into related sources, if related sources have one name: nothing
else of a source decides where it goes.
-/

variable {related : Source → Source → Prop}

/-- Two documents taken in the same pass for the same profile, with related sources. -/
structure Taken.Paired (related : Source → Source → Prop) (taken other : Taken) : Prop where
  pass : taken.pass = other.pass
  profile : taken.profile = other.profile
  source : related taken.document.source other.document.source

namespace Lists

/-- Lists for the same profiles, in the same order and of related sources. -/
def Paired (related : Source → Source → Prop) (left right : Lists) : Prop :=
  List.Forall₂ (fun entry other => entry.1 = other.1 ∧ Sources.Paired related entry.2 other.2)
    left.entries right.entries

variable {left right : Lists}

theorem forall₂_put {profile : Option String} {sources others : Sources}
    {entries otherEntries : List (Option String × Sources)}
    (both : Sources.Paired related sources others)
    (paired : List.Forall₂
      (fun entry other => entry.1 = other.1 ∧ Sources.Paired related entry.2 other.2)
      entries otherEntries) :
    List.Forall₂ (fun entry other => entry.1 = other.1 ∧ Sources.Paired related entry.2 other.2)
      (KeyedList.put profile sources entries) (KeyedList.put profile others otherEntries) := by
  induction paired with
  | nil => exact .cons ⟨rfl, both⟩ .nil
  | cons first rest ih =>
      rcases first with ⟨same, held⟩
      unfold KeyedList.put
      rw [same]
      split
      · exact .cons ⟨rfl, both⟩ rest
      · exact .cons ⟨rfl, held⟩ ih

/-- The list of a profile is looked up in both, or begun in both. -/
theorem Paired.sourcesOf (paired : Paired related left right) (profile : Option String) :
    Sources.Paired related ((left.get? profile).getD Sources.empty)
      ((right.get? profile).getD Sources.empty) := by
  unfold KeyedList.get?
  unfold Paired at paired
  generalize left.entries = entries at paired ⊢
  generalize right.entries = others at paired ⊢
  induction paired with
  | nil => exact .nil
  | cons first _ ih =>
      rcases first with ⟨same, held⟩
      rw [List.find?_cons, List.find?_cons, same]
      split
      · exact held
      · exact ih

theorem Paired.update (paired : Paired related left right) (profile : Option String)
    {change otherChange : Sources → Sources}
    (changes : ∀ sources others, Sources.Paired related sources others →
      Sources.Paired related (change sources) (otherChange others)) :
    Paired related (left.update profile Sources.empty change)
      (right.update profile Sources.empty otherChange) :=
  forall₂_put (changes _ _ (paired.sourcesOf profile)) paired

variable (named : ∀ source other : Source, related source other → source.name = other.name)

include named

theorem Paired.any_contains (paired : Paired related left right) (name : String) :
    left.entries.any (fun entry => entry.2.contains name) =
      right.entries.any fun entry => entry.2.contains name := by
  unfold Paired at paired
  generalize left.entries = entries at paired ⊢
  generalize right.entries = others at paired ⊢
  induction paired with
  | nil => rfl
  | cons first _ ih => rw [List.any_cons, List.any_cons, ih, first.2.contains named]

theorem Paired.enter (paired : Paired related left right) {taken other : Taken}
    (both : Taken.Paired related taken other) :
    Paired related (left.enter taken) (right.enter other) := by
  unfold Lists.enter
  rw [both.pass, both.profile]
  cases other.pass with
  | regular => exact paired.update _ fun _ _ kept => kept.addLast named both.source
  | leftover =>
      simp only [named _ _ both.source, paired.any_contains named]
      split
      · exact paired
      · exact paired.update _ fun _ _ kept => kept.addFirst named both.source

/-- Related logs lead to paired lists. -/
theorem paired_ofLog {log otherLog : List Taken}
    (logs : List.Forall₂ (Taken.Paired related) log otherLog) :
    Paired related (ofLog log) (ofLog otherLog) := by
  have start : Paired related KeyedList.empty KeyedList.empty := List.Forall₂.nil
  unfold ofLog
  apply List.rel_foldl _ start logs
  intro sooner others paired taken other both
  exact paired.enter named both

theorem forall₂_firstByName {seen : List String} {sources others : List Source}
    (paired : List.Forall₂ related sources others) :
    List.Forall₂ related (firstByName seen sources) (firstByName seen others) := by
  induction paired generalizing seen with
  | nil => exact .nil
  | cons first _ ih =>
      unfold firstByName
      rw [named _ _ first]
      split
      · exact ih
      · exact .cons first ih

theorem Paired.merged (paired : Paired related left right) :
    List.Forall₂ related left.merged right.merged := by
  apply forall₂_firstByName named
  apply List.rel_flatMap (List.forall₂_reverse_iff.mpr paired)
  intro entry other both
  exact both.2

end Lists

variable (named : ∀ source other : Source, related source other → source.name = other.name)

include named

/-- Related sources are spliced into related ones. -/
theorem paired_splice {sources others : Sources} (paired : Sources.Paired related sources others)
    {more otherMore : List Source} (added : List.Forall₂ related more otherMore)
    (previous : Option String) :
    Sources.Paired related (splice sources previous more) (splice others previous otherMore) := by
  induction added generalizing sources others previous with
  | nil => exact paired
  | cons first _ ih =>
      unfold splice
      rw [named _ _ first]
      apply ih
      cases previous with
      | some name => exact paired.addAfter named first name
      | none =>
          simp only
          rw [paired.contains named]
          split
          · exact paired.addBefore named first _
          · exact paired.addLast named first

/-- What two runs took is merged into related sources, if the logs and the sources at the start
are related. -/
theorem paired_merge {progress other : Progress}
    (sources : Sources.Paired related progress.environment.sources other.environment.sources)
    (logs : List.Forall₂ (Taken.Paired related) progress.log other.log) :
    Sources.Paired related progress.merge.sources other.merge.sources :=
  paired_splice named sources ((Lists.paired_ofLog named logs).merged named) none

end Assembly
end LayeredConfig

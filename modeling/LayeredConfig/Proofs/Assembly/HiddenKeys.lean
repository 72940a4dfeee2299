import LayeredConfig.Proofs.Assembly.Frame
import LayeredConfig.Proofs.Assembly.Lockstep
import LayeredConfig.Proofs.Assembly.MergedPairs
import LayeredConfig.Proofs.Environment.Alike
import LayeredConfig.Proofs.Property.Contents

namespace LayeredConfig

open Property Traversal

/-!
# What the default properties say about profiles

Files are read in an environment whose default properties hold no keys about
profiles.  So two environments that differ in such keys alone look alike to a
run, and what is read and where it is put is the same in both.
-/

/-- The same source, or default properties on both sides that hold the same values. -/
def Property.Source.SameValues (source other : Source) : Prop :=
  source = other ∨ source.name = Keys.defaultProperties ∧ other.name = Keys.defaultProperties ∧
    ∀ key, source.get? key = other.get? key

/-- The same source, or default properties on both sides. -/
def Property.Source.SameButDefaults (source other : Source) : Prop :=
  source = other ∨ source.name = Keys.defaultProperties ∧ other.name = Keys.defaultProperties

namespace Property.Source

variable {source other : Source}

theorem SameValues.sameButDefaults (same : source.SameValues other) :
    source.SameButDefaults other :=
  same.imp id fun both => ⟨both.1, both.2.1⟩

theorem SameButDefaults.name (same : source.SameButDefaults other) : source.name = other.name := by
  rcases same with rfl | ⟨first, second⟩
  · rfl
  · rw [first, second]

theorem SameValues.get? (same : source.SameValues other) (key : String) :
    source.get? key = other.get? key := by
  rcases same with rfl | ⟨_, _, values⟩
  · rfl
  · exact values key

end Property.Source

namespace Environment

/-- The environments have the same profiles and the same sources, but for default properties that
hold the same values in another order. -/
structure Twins (left right : Environment) : Prop where
  active : left.active = right.active
  defaults : left.defaults = right.defaults
  sources : Sources.Paired Source.SameValues left.sources right.sources

theorem Twins.alike {left right : Environment} (twins : left.Twins right) : left.Alike right where
  active := twins.active
  defaults := twins.defaults
  values := by
    funext key
    exact twins.sources.findSome? fun _ _ same => same.get? key
  lists := by
    funext key
    exact twins.sources.findSome? fun _ _ same => Source.list?_of_get? same.get? key

theorem Twins.activate {left right : Environment} (twins : left.Twins right) (profile : String) :
    (left.activate profile).Twins (right.activate profile) where
  active := (twins.alike.activate profile).active
  defaults := twins.defaults
  sources := twins.sources

end Environment

namespace Assembly

/-- Two runs have come the same way, in environments that are twins. -/
structure Progress.Twins (progress other : Progress) : Prop where
  environment : progress.environment.Twins other.environment
  queue : other.queue = progress.queue
  log : other.log = progress.log

theorem Progress.Twins.advance {progress other : Progress} (twins : progress.Twins other)
    (profile : Profile) (others : List Profile) :
    (progress.advance profile others).Twins (other.advance profile others) where
  environment := by
    unfold Progress.advance
    simp only
    split
    · exact twins.environment
    · exact twins.environment.activate profile.name
  queue := by simp only [Progress.advance, twins.queue]
  log := twins.log

theorem Progress.Twins.collect {progress other : Progress} (twins : progress.Twins other)
    (pass : Document.Pass) (profile : Option String) (groups : List (List Document)) :
    (progress.collect pass profile groups).Twins (other.collect pass profile groups) where
  environment := twins.environment
  queue := by simp only [Progress.collect, twins.queue]
  log := by simp only [Progress.collect, twins.log]

end Assembly

namespace Assembler

open Assembly

variable {assembler : Assembler} {environment other : Environment}

theorem queue_of_alike (alike : environment.Alike other) :
    (assembler.setup environment).queue = (assembler.setup other).queue := by
  unfold Setup.queue setup
  simp only [alike.resolveList, Queue.start_of_alike alike]

/-- A pass takes the same documents in environments that look alike. -/
theorem survey_of_alike (start : environment.Alike other) {left right : Environment}
    (now : left.Alike right) (pass : Document.Pass) (profile : Option String)
    (earlier : List String) :
    (assembler.setup environment).survey pass left profile earlier =
      (assembler.setup other).survey pass right profile earlier := by
  have probes : (assembler.setup environment).search.probes assembler.loaders environment profile
      earlier = (assembler.setup other).search.probes assembler.loaders other profile earlier :=
    Search.probes_of_alike start assembler.search assembler.loaders profile earlier
  have examined : (assembler.setup environment).examine pass left =
      (assembler.setup other).examine pass right := by
    funext step
    unfold Setup.examine
    simp only [setup, Library.ofStore, Library.read_of_alike start, now.isTaken]
  unfold Setup.survey
  rw [examined]
  exact congrArg (List.mapM _) probes

theorem agree_perform_of_twins (start : environment.Alike other) {progress twin : Progress}
    (twins : progress.Twins twin) (pass : Document.Pass) (profile : Option String)
    (earlier : List String) :
    Agree (fun failure fault => failure.error = fault.error) Progress.Twins
      ((assembler.setup environment).perform progress pass profile earlier)
      ((assembler.setup other).perform twin pass profile earlier) := by
  apply Setup.agree_perform
  apply Agree.of_eq (survey_of_alike start twins.environment.alike pass profile earlier)
  · exact fun _ _ => rfl
  · exact fun groups _ => twins.collect pass profile groups

/-- Runs in environments that are twins take the same documents in the same order. -/
theorem agree_run_of_twins (twins : environment.Twins other) :
    Agree (fun failure fault => failure.error = fault.error) Progress.Twins
      (assembler.setup environment).run (assembler.setup other).run := by
  have start := twins.alike
  have inStep : Setup.InStep (assembler.setup environment) (assembler.setup other)
      (fun failure fault => failure.error = fault.error) Progress.Twins Progress.Twins := by
    constructor
    · refine Agree.of_eq (queue_of_alike start) (fun _ _ => rfl) ?_
      intro queue _
      have first : Progress.Twins ⟨environment, queue, []⟩ ⟨other, queue, []⟩ :=
        ⟨twins, rfl, rfl⟩
      exact agree_perform_of_twins start first _ _ _
    · intro progress twin both
      exact both.queue
    · intro progress twin profile others both _
      exact agree_perform_of_twins start (both.advance profile others) _ _ _
    · intro progress twin both _
      exact agree_perform_of_twins start both _ _ _
  exact inStep.run

/-! ## Hiding and putting back in two environments -/

/-- What is hidden in default properties makes no difference to those that files are read with. -/
theorem sameValues_withoutProfiles {left right : Source}
    (leftNamed : left.name = Keys.defaultProperties)
    (rightNamed : right.name = Keys.defaultProperties)
    (same : ∀ key, Keys.namesProfiles key = false → left.get? key = right.get? key) :
    (withoutProfiles left).SameValues (withoutProfiles right) := by
  refine Or.inr ⟨leftNamed, rightNamed, ?_⟩
  intro key
  unfold Source.get? withoutProfiles
  rw [KeyedList.get?_filterKeys, KeyedList.get?_filterKeys]
  split
  · next visible => exact same key ((Bool.not_eq_true' _).mp visible)
  · rfl

theorem layers_replaceDefaults {before after : List Source} {left : Source}
    (split : environment.sources.layers = before ++ left :: after)
    (named : left.name = Keys.defaultProperties)
    (absent : Keys.defaultProperties ∉ before.map Source.name) (right : Source) :
    (replaceDefaults environment right).sources.layers = before ++ right :: after := by
  change Sources.replaceLayer _ _ environment.sources.layers = _
  rw [split, Sources.replaceLayer_append right named absent]

theorem find?_replaceDefaults {left right : Source}
    (found : environment.sources.find? Keys.defaultProperties = some left)
    (named : right.name = Keys.defaultProperties) :
    (replaceDefaults environment right).sources.find? Keys.defaultProperties = some right := by
  rcases Sources.exists_split_of_find found with ⟨leftNamed, before, after, split, absent⟩
  exact Sources.find?_append (layers_replaceDefaults split leftNamed absent right) named absent

/-- Files are read in twins, if the default properties differ only in what they say about
profiles. -/
theorem twins_reading {left right : Source}
    (found : environment.sources.find? Keys.defaultProperties = some left)
    (named : right.name = Keys.defaultProperties)
    (same : ∀ key, Keys.namesProfiles key = false → left.get? key = right.get? key) :
    (reading environment).Twins (reading (replaceDefaults environment right)) := by
  rcases Sources.exists_split_of_find found with ⟨leftNamed, before, after, split, absent⟩
  have splitToo := layers_replaceDefaults split leftNamed absent right
  refine ⟨?_, ?_, ?_⟩
  · rw [active_reading, active_reading]
    rfl
  · rw [defaults_reading, defaults_reading]
    rfl
  · unfold Sources.Paired
    rw [layers_reading split leftNamed absent, layers_reading splitToo named absent]
    have others : ∀ layers, List.Forall₂ Source.SameValues layers layers :=
      fun _ => List.forall₂_same.mpr fun _ _ => Or.inl rfl
    exact List.rel_append (others before)
      (.cons (sameValues_withoutProfiles leftNamed named same) (others after))

theorem paired_moveDefaultsLast {first second : Environment}
    (paired : Sources.Paired Source.SameButDefaults first.sources second.sources) :
    Sources.Paired Source.SameButDefaults (moveDefaultsLast first).sources
      (moveDefaultsLast second).sources := by
  have named : ∀ source other : Source, source.SameButDefaults other → source.name = other.name :=
    fun _ _ same => same.name
  have looked := paired.find? named Keys.defaultProperties
  unfold moveDefaultsLast
  generalize first.sources.find? Keys.defaultProperties = one at looked
  generalize second.sources.find? Keys.defaultProperties = two at looked
  cases looked with
  | none => exact paired
  | some both => exact (paired.erase named _).addLast named both

/-- What the default properties say about profiles decides on active profiles only.  With other
such keys in their place, an assembly takes the same documents in the same order, gives the same
profiles their turns and yields the same sources in the same order but for the default properties
themselves. -/
theorem hidden_keys_inert {left right : Source}
    (found : environment.sources.find? Keys.defaultProperties = some left)
    (named : right.name = Keys.defaultProperties)
    (same : ∀ key, Keys.namesProfiles key = false → left.get? key = right.get? key)
    {first second : Environment} (done : assembler.assemble environment = .ok first)
    (doneToo : assembler.assemble (replaceDefaults environment right) = .ok second) :
    Sources.Paired Source.SameButDefaults first.sources second.sources ∧
      first.defaults = second.defaults ∧
      ∃ progress twin, assembler.Completes environment first progress ∧
        assembler.Completes (replaceDefaults environment right) second twin ∧
        twin.log = progress.log ∧ twin.queue = progress.queue := by
  have sameName : ∀ source other : Source, source.SameButDefaults other →
      source.name = other.name := fun _ _ both => both.name
  rcases exists_of_assemble done with ⟨progress, completes⟩
  rcases exists_of_assemble doneToo with ⟨twin, completesToo⟩
  rcases (agree_run_of_twins (twins_reading found named same)).exists_of_ok completes.ran with
    ⟨_, ran, twins⟩
  cases completesToo.ran.symm.trans ran
  have merged : Sources.Paired Source.SameButDefaults progress.merge.sources
      twin.merge.sources := by
    apply paired_merge sameName
    · exact twins.environment.sources.imp fun _ _ both => both.sameButDefaults
    · rw [twins.log]
      exact List.forall₂_same.mpr fun _ _ => ⟨rfl, rfl, Or.inl rfl⟩
  refine ⟨?_, ?_, progress, twin, completes, completesToo, twins.log, twins.queue⟩
  · rw [sources_of_run done completes.ran, sources_of_run doneToo completesToo.ran, restored,
      restored, found, find?_replaceDefaults found named]
    have defaults : left.SameButDefaults right := Or.inr ⟨name_of_find found, named⟩
    exact paired_moveDefaultsLast (merged.replace sameName defaults Keys.defaultProperties)
  · rw [completes.defaults, completesToo.defaults]
    rfl

/-- Default properties that include another profile than `includingB`, as the first of a list. -/
def includingC : Source :=
  ⟨Keys.defaultProperties, KeyedList.empty.insert (Source.itemKey Keys.includedProfiles 0) "c"⟩

theorem get?_includingC {key : String} (visible : Keys.namesProfiles key = false) :
    includingB.get? key = includingC.get? key := by
  have whole : key ≠ Keys.includedProfiles := by
    rintro rfl
    exact absurd visible (by decide)
  have item : key ≠ Source.itemKey Keys.includedProfiles 0 := by
    rintro rfl
    exact absurd visible (by decide)
  simp only [includingB, includingC, Source.get?, KeyedList.get?_insert, if_neg whole,
    if_neg item]

/-- Another profile is active in the end, and the sources are the same. -/
theorem hidden_keys_inert_including :
    surrounded.sources.find? Keys.defaultProperties = some includingB ∧
      includingC.name = Keys.defaultProperties ∧
      (∀ key, Keys.namesProfiles key = false → includingB.get? key = includingC.get? key) ∧
      ∃ first second, withFile.assemble surrounded = .ok first ∧
        withFile.assemble (replaceDefaults surrounded includingC) = .ok second ∧
        first.active = ["b"] ∧ second.active = ["c"] ∧
        Sources.Paired Source.SameButDefaults first.sources second.sources := by
  have found : surrounded.sources.find? Keys.defaultProperties = some includingB := rfl
  rcases exists_of_runWithin withFile surrounded 1
    (fun assembled => decide (assembled.active = ["b"])) (by cbv) with ⟨first, done, active⟩
  rcases exists_of_runWithin withFile (replaceDefaults surrounded includingC) 1
    (fun assembled => decide (assembled.active = ["c"])) (by cbv) with
    ⟨second, doneToo, activeToo⟩
  exact ⟨found, rfl, fun _ => get?_includingC, first, second, done, doneToo,
    of_decide_eq_true active, of_decide_eq_true activeToo,
    (hidden_keys_inert found rfl (fun _ => get?_includingC) done doneToo).1⟩

end Assembler
end LayeredConfig

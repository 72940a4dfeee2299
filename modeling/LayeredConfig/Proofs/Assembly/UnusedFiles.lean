import LayeredConfig.Proofs.Assembly.Documents
import LayeredConfig.Proofs.Assembly.Files
import LayeredConfig.Proofs.Assembly.Lockstep
import LayeredConfig.Proofs.Assembly.Passes
import Mathlib

namespace LayeredConfig
namespace Assembly

open Traversal

/-!
# Files that no run looks at

A pass opens base files, the files of its own profile and those of the profiles
that had their turn before.  Two libraries that hold the same documents in those
files lead to the same run, however much they differ in other files.
-/

namespace Setup

/-- The run gives the profile its turn, whether or not it gets through it. -/
def Takes (setup : Setup) (name : String) : Prop :=
  ∃ progress profile others, Reached setup progress ∧
    progress.queue.waiting = profile :: others ∧ profile.name = name

theorem takes_of_mem_earlier {setup : Setup} {progress : Progress}
    (reached : Reached setup progress) {name : String}
    (member : name ∈ progress.queue.earlier) : setup.Takes name := by
  induction reached with
  | start queued performed =>
      rcases perform_eq_ok_iff.mp performed with ⟨groups, _, rfl⟩
      rcases queue_eq_ok_iff.mp queued with ⟨activated, included, _, _, rfl⟩
      rw [Queue.earlier, begun_collect, Queue.begun_start] at member
      cases member
  | turn reached waiting performed ih =>
      rcases perform_eq_ok_iff.mp performed with ⟨groups, _, rfl⟩
      rw [Queue.earlier, begun_collect] at member
      simp only [Progress.advance, Queue.advance, List.map_append, List.map_cons, List.map_nil,
        List.mem_append, List.mem_singleton] at member
      rcases member with before | own
      · exact ih before
      · exact ⟨_, _, _, reached, waiting, own.symm⟩

theorem begun_of_drain {setup : Setup} {progress last : Progress}
    (drained : setup.drain progress = .ok last) :
    progress.queue.begun ⊆ last.queue.begun := by
  fun_induction drain setup progress with
  | case1 progress idle =>
      cases drained
      exact List.Subset.refl _
  | case2 progress profile others waiting failure failed => cases drained
  | case3 progress profile others waiting later performed _ ih =>
      rcases perform_eq_ok_iff.mp performed with ⟨groups, _, rfl⟩
      have kept := ih drained
      rw [begun_collect] at kept
      exact List.Subset.trans (Queue.evolves_advance waiting).begun kept

/-- A run goes on from whatever it reaches. -/
theorem run_of_reached {setup : Setup} {progress : Progress} (reached : Reached setup progress) :
    setup.run = (setup.drain progress).bind fun last => setup.perform last .leftover none [] := by
  induction reached with
  | start queued performed =>
      unfold run
      simp only [queued, performed, bind, Except.bind]
  | turn _ waiting performed ih =>
      rw [ih, drain_of_turn waiting, performed]
      rfl

/-- When the run succeeds, the profiles that it takes are those that have begun in the end. -/
theorem takes_iff_of_run {setup : Setup} {progress : Progress}
    (ran : setup.run = .ok progress) (name : String) :
    setup.Takes name ↔ name ∈ progress.queue.earlier := by
  constructor
  · rintro ⟨before, profile, others, reached, waiting, rfl⟩
    rw [run_of_reached reached, drain_of_turn waiting] at ran
    cases performed : setup.perform (before.advance profile others) .regular (some profile.name)
        before.queue.earlier with
    | error failure => simp [performed, Except.bind] at ran
    | ok later =>
        cases drained : setup.drain later with
        | error failure => simp [performed, drained, Except.bind] at ran
        | ok last =>
            simp only [performed, drained, Except.bind] at ran
            rcases perform_eq_ok_iff.mp performed with ⟨groups, _, rfl⟩
            rcases perform_eq_ok_iff.mp ran with ⟨left, _, rfl⟩
            have kept := begun_of_drain drained
            rw [begun_collect] at kept
            rw [Queue.earlier, begun_collect]
            exact List.mem_map_of_mem (kept (by simp [Progress.advance, Queue.advance]))
  · intro member
    rcases exists_of_run ran with ⟨last, reached, _, performed⟩
    rcases perform_eq_ok_iff.mp performed with ⟨groups, _, rfl⟩
    rw [Queue.earlier, begun_collect] at member
    exact takes_of_mem_earlier reached member

/-- A survey hangs on the documents behind its own probes only. -/
theorem survey_congr {setup : Setup} {library : Library} {pass : Document.Pass}
    {environment : Environment} {profile : Option String} {earlier : List String}
    (same : ∀ probe,
      .ok probe ∈ setup.search.probes setup.loaders setup.environment profile earlier →
        library.documents probe = setup.library.documents probe) :
    { setup with library := library }.survey pass environment profile earlier =
      setup.survey pass environment profile earlier := by
  have agree : Agree Eq (List.Forall₂ Eq)
      ({ setup with library := library }.survey pass environment profile earlier)
      (setup.survey pass environment profile earlier) := by
    apply Agree.mapM
    apply List.forall₂_same.mpr
    intro step listed
    cases step with
    | error error => exact .error rfl
    | ok probe =>
        refine Agree.of_eq ?_ (fun _ _ => rfl) fun _ _ => rfl
        simp only [examine, Except.bind, same probe listed]
  apply (agree.mono (fun _ _ => id) ?_).eq
  intro groups others related
  exact List.forall₂_eq_eq_eq ▸ related

theorem perform_congr {setup : Setup} {library : Library} {progress : Progress}
    {pass : Document.Pass} {profile : Option String} {earlier : List String}
    (same : ∀ probe,
      .ok probe ∈ setup.search.probes setup.loaders setup.environment profile earlier →
        library.documents probe = setup.library.documents probe) :
    { setup with library := library }.perform progress pass profile earlier =
      setup.perform progress pass profile earlier := by
  unfold perform
  rw [survey_congr same]

/-- The library holds the same documents in every file that the run looks at. -/
structure SeesSame (setup : Setup) (library : Library) : Prop where
  base : ∀ {probe : Probe},
    Search.BaseFile setup.search setup.loaders setup.environment probe.loader probe.location →
      library.documents probe = setup.library.documents probe
  ofProfile : ∀ {name : String} {probe : Probe}, setup.Takes name →
    Search.ProfileFile setup.search setup.loaders setup.environment name probe.loader
      probe.location →
      library.documents probe = setup.library.documents probe

variable {setup : Setup} {library : Library}

theorem SeesSame.perform (sees : SeesSame setup library) {profile : Option String}
    {earlier : List String} (own : ∀ name ∈ profile, setup.Takes name)
    (before : ∀ name ∈ earlier, setup.Takes name) (progress : Progress)
    (pass : Document.Pass) :
    { setup with library := library }.perform progress pass profile earlier =
      setup.perform progress pass profile earlier := by
  apply perform_congr
  intro probe probed
  rcases Search.file_of_mem_probes probed with
    ⟨base, _⟩ | ⟨other, name, rfl, inUse, _, specific⟩
  · exact sees.base base
  · refine sees.ofProfile ?_ specific
    rcases inUse with rfl | member
    · exact own _ rfl
    · exact before _ member

/-- The runs over the two libraries are the same, step by step. -/
theorem SeesSame.inStep (sees : SeesSame setup library) :
    InStep setup { setup with library := library } Eq
      (fun progress other => progress = other ∧ Reached setup progress) Eq where
  first := by
    refine Agree.of_eq rfl (fun _ _ => rfl) ?_
    intro queue queued
    refine Agree.of_eq ?_ (fun _ _ => rfl) ?_
    · exact (sees.perform (by simp) (by simp) _ _).symm
    · intro progress performed
      exact ⟨rfl, .start queued performed⟩
  queue := fun ⟨same, _⟩ => by rw [same]
  turn := by
    rintro progress _ profile others ⟨rfl, reached⟩ waiting
    refine Agree.of_eq ?_ (fun _ _ => rfl) ?_
    · refine (sees.perform ?_ (fun name => takes_of_mem_earlier reached) _ _).symm
      rintro name ⟨⟩
      exact ⟨progress, profile, others, reached, waiting, rfl⟩
    · intro later performed
      exact ⟨rfl, .turn reached waiting performed⟩
  last := by
    rintro progress _ ⟨rfl, reached⟩ idle
    have same : { setup with library := library }.perform progress .leftover none [] =
        setup.perform progress .leftover none [] := sees.perform (by simp) (by simp) _ _
    exact Agree.of_eq same.symm (fun _ _ => rfl) fun _ _ => rfl

theorem SeesSame.run (sees : SeesSame setup library) :
    { setup with library := library }.run = setup.run :=
  sees.inStep.run.eq.symm

end Setup
end Assembly

namespace Assembler

/-- An assembly hangs on its run. -/
theorem assemble_congr {assembler other : Assembler} {environment : Environment}
    (same : (other.setup (reading environment)).run =
      (assembler.setup (reading environment)).run) :
    other.assemble environment = assembler.assemble environment := by
  unfold reading at same
  unfold assemble load
  cases found : environment.sources.find? Property.Keys.defaultProperties with
  | none =>
      rw [found] at same
      simp only [same]
  | some defaults =>
      rw [found] at same
      simp only [same]

/-- A file that is no base file, nor one of a profile that has its turn, has no influence,
whether it is there or not and whatever stands in it: the result is the same, and so is an error
and what it leaves. -/
theorem unused_files_irrelevant {assembler : Assembler} {other : Resource.Store}
    {environment : Environment}
    (unused : ∀ location, other.find location ≠ assembler.store.find location →
      ∀ loader,
        ¬ Assembly.Search.BaseFile assembler.search assembler.loaders (reading environment)
          loader location ∧
        ∀ name, (assembler.setup (reading environment)).Takes name →
          ¬ Assembly.Search.ProfileFile assembler.search assembler.loaders (reading environment)
            name loader location) :
    { assembler with store := other }.assemble environment = assembler.assemble environment := by
  apply assemble_congr
  have sees : (assembler.setup (reading environment)).SeesSame
      (Assembly.Library.ofStore other (reading environment)) := by
    constructor
    · intro probe base
      apply Assembly.Library.read_congr
      by_contra differs
      exact (unused probe.location differs probe.loader).1 base
    · intro name probe takes specific
      apply Assembly.Library.read_congr
      by_contra differs
      exact (unused probe.location differs probe.loader).2 name takes specific
  exact sees.run

/-- A base file alone. -/
def withBaseFile : Assembler :=
  ofFiles [("conf/app.properties", "port=80")]

/-- The base file and the file of a profile with a malformed scope. -/
def withMalformedFile : Assembler :=
  ofFiles [("conf/app.properties", "port=80"),
    ("conf/app-dev.properties", "autowire.config.activate.on-profile=!")]

/-- The two differ at the file of the profile alone. -/
theorem location_of_find_ne {location : String}
    (differs : withMalformedFile.store.find location ≠ withBaseFile.store.find location) :
    location = "conf/app-dev.properties" := by
  by_contra other
  apply differs
  by_cases base : location = "conf/app.properties" <;>
    simp [withMalformedFile, withBaseFile, ofFiles, Resource.Store.find, KeyedList.ofList,
      KeyedList.insertAll, KeyedList.get?_insert, other, base]

/-- One directory is searched, for one base name. -/
theorem searched_withBaseFile {locations names : List String} {directory name extension : String}
    {loader : Property.Loader}
    (located : withBaseFile.search.allLocations (reading (Environment.initial.activate "prod")) =
      .ok locations)
    (listed : directory ∈ locations)
    (named : withBaseFile.search.allNames (reading (Environment.initial.activate "prod")) =
      .ok names)
    (tried : name ∈ names)
    (claimed : (extension, loader) ∈ Assembly.Search.claims withBaseFile.loaders) :
    directory = "conf/" ∧ name = "app" ∧ extension ∈ ["properties", "yml", "yaml"] := by
  have places : withBaseFile.search.allLocations
      (reading (Environment.initial.activate "prod")) = .ok ["conf/"] := by cbv
  have bases : withBaseFile.search.allNames
      (reading (Environment.initial.activate "prod")) = .ok ["app"] := by cbv
  have extensions : (Assembly.Search.claims withBaseFile.loaders).map Prod.fst =
      ["properties", "yml", "yaml"] := by cbv
  cases places.symm.trans located
  cases bases.symm.trans named
  exact ⟨List.mem_singleton.mp listed, List.mem_singleton.mp tried,
    extensions ▸ List.mem_map_of_mem claimed⟩

/-- Neither a base file nor the file of the only profile that has its turn. -/
theorem unused_withBaseFile {location : String}
    (differs : withMalformedFile.store.find location ≠ withBaseFile.store.find location)
    (loader : Property.Loader) :
    ¬ Assembly.Search.BaseFile withBaseFile.search withBaseFile.loaders
        (reading (Environment.initial.activate "prod")) loader location ∧
      ∀ name, (withBaseFile.setup (reading (Environment.initial.activate "prod"))).Takes name →
        ¬ Assembly.Search.ProfileFile withBaseFile.search withBaseFile.loaders
          (reading (Environment.initial.activate "prod")) name loader location := by
  have same := location_of_find_ne differs
  constructor
  · rintro (⟨located, listed, _, named, tried, claimed⟩ | ⟨located, listed, file, _⟩)
    · rcases searched_withBaseFile located listed named tried claimed with ⟨rfl, rfl, among⟩
      have others : ∀ extension ∈ ["properties", "yml", "yaml"],
          "conf/" ++ "app" ++ "." ++ extension ≠ "conf/app-dev.properties" := by decide
      exact others _ among same
    · have places : withBaseFile.search.allLocations
          (reading (Environment.initial.activate "prod")) = .ok ["conf/"] := by cbv
      cases places.symm.trans located
      rw [List.mem_singleton.mp listed] at file
      exact file (by decide)
  · rintro name takes ⟨located, listed, _, named, tried, claimed⟩
    rcases exists_of_ranWithin withBaseFile (Environment.initial.activate "prod") 1
      (fun progress => decide (progress.queue.earlier = ["prod"])) (by cbv) with
      ⟨progress, ran, held⟩
    rw [Assembly.Setup.takes_iff_of_run ran, of_decide_eq_true held] at takes
    cases List.mem_singleton.mp takes
    rcases searched_withBaseFile located listed named tried claimed with ⟨rfl, rfl, among⟩
    have others : ∀ extension ∈ ["properties", "yml", "yaml"],
        "conf/" ++ "app" ++ "-" ++ "prod" ++ "." ++ extension ≠ "conf/app-dev.properties" := by
      decide
    exact others _ among same

theorem unused_files_irrelevant_malformed :
    (∀ location, withMalformedFile.store.find location ≠ withBaseFile.store.find location →
      ∀ loader,
        ¬ Assembly.Search.BaseFile withBaseFile.search withBaseFile.loaders
          (reading (Environment.initial.activate "prod")) loader location ∧
        ∀ name, (withBaseFile.setup (reading (Environment.initial.activate "prod"))).Takes name →
          ¬ Assembly.Search.ProfileFile withBaseFile.search withBaseFile.loaders
            (reading (Environment.initial.activate "prod")) name loader location) ∧
      withMalformedFile.assemble (Environment.initial.activate "prod") =
        withBaseFile.assemble (Environment.initial.activate "prod") :=
  ⟨fun _ differs loader => unused_withBaseFile differs loader,
    unused_files_irrelevant fun _ differs loader => unused_withBaseFile differs loader⟩

end Assembler
end LayeredConfig

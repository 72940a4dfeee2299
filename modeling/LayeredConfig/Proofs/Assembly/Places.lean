import LayeredConfig.Proofs.Assembly.Evaluation
import LayeredConfig.Proofs.Assembly.Files
import LayeredConfig.Proofs.Placeholder.Dollars

namespace LayeredConfig

open Property

/-!
# Setups that look in the same places

What a pass surveys depends on where files are looked up and on what they say,
and on the environment of the setup only as far as that.  A setup may therefore
be exchanged for one whose environment is empty, once the queue is known; closed
runs are evaluated that way.
-/

namespace Assembly
namespace Setup

/-- The two setups look for files in the same places. -/
structure SamePlaces (setup other : Setup) : Prop where
  locations : setup.search.allLocations setup.environment =
    other.search.allLocations other.environment
  names : setup.search.allNames setup.environment = other.search.allNames other.environment
  loaders : setup.loaders = other.loaders

variable {setup other : Setup}

theorem SamePlaces.symm (places : SamePlaces setup other) : SamePlaces other setup where
  locations := places.locations.symm
  names := places.names.symm
  loaders := places.loaders.symm

theorem SamePlaces.baseFile (places : SamePlaces setup other) {loader : Loader} {location : String}
    (base : setup.search.BaseFile setup.loaders setup.environment loader location) :
    other.search.BaseFile other.loaders other.environment loader location := by
  rw [places.loaders] at base
  cases base with
  | inDirectory located listed slash named tried claimed =>
      exact .inDirectory (places.locations ▸ located) listed slash (places.names ▸ named) tried
        claimed
  | explicit located listed file found =>
      exact .explicit (places.locations ▸ located) listed file found

theorem SamePlaces.profileFile (places : SamePlaces setup other) {name : String} {loader : Loader}
    {location : String}
    (specific : setup.search.ProfileFile setup.loaders setup.environment name loader location) :
    other.search.ProfileFile other.loaders other.environment name loader location := by
  rw [places.loaders] at specific
  cases specific with
  | inDirectory located listed slash named tried claimed =>
      exact .inDirectory (places.locations ▸ located) listed slash (places.names ▸ named) tried
        claimed

theorem SamePlaces.probes (places : SamePlaces setup other) (profile : Option String)
    (earlier : List String) :
    setup.search.probes setup.loaders setup.environment profile earlier =
      other.search.probes other.loaders other.environment profile earlier := by
  simp only [Search.probes, Search.directoryProbes, places.locations, places.names, places.loaders]

theorem SamePlaces.perform (places : SamePlaces setup other)
    (library : setup.library = other.library) : setup.perform = other.perform := by
  funext progress pass profile earlier
  have examined : setup.examine = other.examine := by
    funext pass environment step
    rw [examine, examine, library]
  rw [Setup.perform, Setup.perform, survey, survey, places.probes, examined]

theorem SamePlaces.drainWithin (places : SamePlaces setup other)
    (library : setup.library = other.library) (turns : Nat) (progress : Progress) :
    setup.drainWithin turns progress = other.drainWithin turns progress := by
  induction turns generalizing progress with
  | zero => rfl
  | succ turns ih =>
      rw [Setup.drainWithin, Setup.drainWithin, places.perform library]
      simp only [ih]

/-- Whether a run from a given start passes a test when it is evaluated with numbered turns. -/
def endsWithin (setup : Setup) (start : Progress) (turns : Nat) (test : Progress → Bool) : Bool :=
  match setup.perform start .regular none [] with
  | .error _ => false
  | .ok first =>
      match setup.drainWithin turns first with
      | some (.ok last) =>
          match setup.perform last .leftover none [] with
          | .error _ => false
          | .ok progress => test progress
      | _ => false

theorem exists_of_endsWithin (places : SamePlaces setup other)
    (library : setup.library = other.library) {queue : Queue} (queued : setup.queue = .ok queue)
    (turns : Nat) (test : Progress → Bool)
    (passed : other.endsWithin ⟨setup.environment, queue, []⟩ turns test = true) :
    ∃ progress, setup.run = .ok progress ∧ test progress = true := by
  unfold endsWithin at passed
  rw [← places.perform library] at passed
  split at passed
  · cases passed
  · next first performed =>
      rw [← places.drainWithin library] at passed
      split at passed
      · next last drained =>
          split at passed
          · cases passed
          · next progress ended =>
              refine ⟨progress, ?_, passed⟩
              simp only [run, queued, performed, drain_eq_of_within drained, bind, Except.bind]
              exact ended
      · cases passed

end Setup
end Assembly

namespace Assembler

/-- The environment does not say where files are looked up. -/
structure PlacesUnset (environment : Environment) : Prop where
  additional : environment.get? Keys.additionalLocations = none
  locations : environment.get? Keys.searchLocations = none
  names : environment.get? Keys.searchNames = none

theorem placesUnset_initial : PlacesUnset Environment.initial :=
  ⟨rfl, rfl, rfl⟩

theorem entries_of_no_dollar {environment : Environment} {text : String}
    (plain : '$' ∉ text.toList) :
    Assembly.Search.entries environment text =
      .ok (Names.addAll [] (Text.commaList text).reverse) := by
  have same : environment.resolve text = .ok text :=
    (Placeholder.fixed_of_no_dollar plain).resolves environment.lookup .strict
  rw [Assembly.Search.entries, same]
  rfl

theorem PlacesUnset.allLocations {environment : Environment} (unset : PlacesUnset environment)
    {search : Assembly.Search} {text : String} (given : search.locations = some text)
    (plain : '$' ∉ text.toList) :
    search.allLocations environment =
      .ok (Names.addAll [] (Names.addAll [] (Text.commaList text).reverse)) := by
  have additional : Assembly.Search.ofProperty environment Keys.additionalLocations = .ok [] := by
    rw [Assembly.Search.ofProperty, unset.additional]
  have others : environment.contains Keys.searchLocations = false := by
    rw [Environment.contains, unset.locations]
    rfl
  rw [Assembly.Search.allLocations, additional, others, given, Option.getD_some,
    entries_of_no_dollar plain]
  rfl

theorem PlacesUnset.allNames {environment : Environment} (unset : PlacesUnset environment)
    {search : Assembly.Search} {text : String} (given : search.names = some text)
    (plain : '$' ∉ text.toList) :
    search.allNames environment = .ok (Names.addAll [] (Text.commaList text).reverse) := by
  rw [Assembly.Search.allNames, unset.names, given]
  exact entries_of_no_dollar plain

theorem samePlaces_ofFiles (files : List (String × String)) {environment other : Environment}
    (unset : PlacesUnset environment) (unsetToo : PlacesUnset other) :
    Assembly.Setup.SamePlaces ((ofFiles files).setup environment)
      ((ofFiles files).setup other) where
  locations := (unset.allLocations rfl (by decide)).trans
    (unsetToo.allLocations rfl (by decide)).symm
  names := (unset.allNames rfl (by decide)).trans (unsetToo.allNames rfl (by decide)).symm
  loaders := rfl

/-- A setup over files in memory that reads documents with the values of an environment, and has
an empty environment itself. -/
def bareSetup (files : List (String × String)) (environment : Environment) : Assembly.Setup :=
  { (ofFiles files).setup Environment.initial with
    library := Assembly.Library.ofStore (ofFiles files).store environment }

theorem samePlaces_bareSetup (files : List (String × String)) {environment : Environment}
    (unset : PlacesUnset environment) :
    Assembly.Setup.SamePlaces ((ofFiles files).setup environment) (bareSetup files environment) :=
  have same := samePlaces_ofFiles files unset placesUnset_initial
  ⟨same.locations, same.names, same.loaders⟩

/-- A run over files in memory, evaluated with numbered turns from the queue that is known. -/
theorem exists_of_bareSetup (files : List (String × String)) {environment : Environment}
    (unset : PlacesUnset environment) {activated included : List String}
    (first : environment.resolveList Keys.activeProfiles = .ok activated)
    (second : environment.resolveList Keys.includedProfiles = .ok included)
    {queue : Assembly.Queue}
    (starts : Assembly.Queue.start environment activated included = queue)
    (turns : Nat) (test : Assembly.Progress → Bool)
    (passed : (bareSetup files environment).endsWithin ⟨environment, queue, []⟩ turns test = true) :
    ∃ progress, ((ofFiles files).setup environment).run = .ok progress ∧ test progress = true :=
  Assembly.Setup.exists_of_endsWithin (samePlaces_bareSetup files unset) rfl
    (Assembly.Setup.queue_eq_ok_iff.mpr ⟨activated, included, first, second, starts.symm⟩) turns
    test passed

/-- Without default properties an assembly is a run whose sources are merged and whose requested
profiles become active. -/
theorem assemble_eq_ok_iff_of_plain {assembler : Assembler} {environment assembled : Environment}
    (plain : environment.sources.contains Keys.defaultProperties = false) :
    assembler.assemble environment = .ok assembled ↔
      ∃ progress, (assembler.setup environment).run = .ok progress ∧
        assembled = progress.merge.setActive (Assembly.requested progress.queue) := by
  rw [assemble_eq_load plain, load]
  cases (assembler.setup environment).run with
  | error failure => simp [Except.bind]
  | ok progress => simp [Except.bind, Assembly.finish, eq_comm]

end Assembler
end LayeredConfig

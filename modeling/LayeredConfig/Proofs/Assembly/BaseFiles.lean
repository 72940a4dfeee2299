import LayeredConfig.Proofs.Assembly.Documents
import LayeredConfig.Proofs.Assembly.Evaluation
import LayeredConfig.Proofs.Assembly.Outcome
import LayeredConfig.Proofs.Assembly.StandardLoaders
import LayeredConfig.Proofs.Environment

namespace LayeredConfig

open Property

/-!
# No accepted section of a base file is lost

The passes for no profile read every base file.  The first one takes the
documents without scope, and the last one takes those whose scope holds for the
active profiles, which without default properties are the final ones.  Whatever
is taken survives the merge, since with the standard loaders two sources of one
name are one source.
-/

namespace Assembler

/-- The documents of a file as an assembly in the environment reads them. -/
def documentsAt (assembler : Assembler) (environment : Environment) (loader : Loader)
    (location : String) : Except Error (List Document) :=
  Assembly.Library.read assembler.store environment ⟨loader, location, none⟩

end Assembler

namespace Assembly
namespace Setup

theorem mem_merge_of_mem_log {assembler : Assembler} {environment : Environment}
    (standard : assembler.loaders = Loader.standard) {progress : Progress}
    (ran : (assembler.setup environment).run = .ok progress) {taken : Taken}
    (member : taken ∈ progress.log) :
    taken.document.source ∈ progress.merge.sources.layers := by
  rcases Lists.exists_mem_merged member with ⟨source, kept, named⟩
  rcases Lists.exists_taken_of_mem_merged kept with ⟨other, listed, rfl⟩
  rcases exists_finds_of_run ran member with ⟨_, _, _, _, first, firstFound⟩
  rcases exists_finds_of_run ran listed with ⟨_, _, _, _, second, secondFound⟩
  rcases firstFound.read with ⟨left, firstRead, firstInside⟩
  rcases secondFound.read with ⟨right, secondRead, secondInside⟩
  have one : ∀ {probe : Probe} {profile : Option String} {earlier : List String},
      .ok probe ∈ (assembler.setup environment).search.probes
        (assembler.setup environment).loaders environment profile earlier →
      loaderFor Loader.standard probe.location = some probe.loader := by
    intro probe profile earlier probed
    rw [Assembler.setup, standard] at probed
    exact loaderFor_of_mem_probes probed
  have agree : second.location = first.location → second.loader = first.loader := by
    intro location
    have same := one secondFound.probed
    rw [location, one firstFound.probed] at same
    exact (Option.some.inj same).symm
  have same := Library.source_eq_of_name_eq secondRead secondInside firstRead firstInside agree
    named
  rw [← same]
  exact mem_splice (Lists.nodup_names_merged _) kept

/-- When no further profiles are added, the last pass decides as the result does. -/
theorem isActive_setActive_of_run {setup : Setup} {progress : Progress}
    (ran : setup.run = .ok progress) :
    (progress.merge.setActive (requested progress.queue)).isActive =
      progress.environment.isActive := by
  apply Environment.isActive_congr
  · rfl
  · intro name
    rw [active_of_run ran name, Environment.setActive, Names.mem_addAll]
    simp

end Setup
end Assembly

namespace Assembler

/-- Every document of a base file that has no scope, or a scope that the result accepts, is one
of the sources of the result. -/
theorem base_documents_kept {assembler : Assembler} {environment assembled : Environment}
    (standard : assembler.loaders = Loader.standard)
    (plain : environment.sources.contains Keys.defaultProperties = false)
    (done : assembler.assemble environment = .ok assembled) {loader : Loader} {location : String}
    (base : assembler.search.BaseFile assembler.loaders environment loader location) :
    ∃ documents, assembler.documentsAt environment loader location = .ok documents ∧
      ∀ document ∈ documents, document.scope = [] ∨ document.isAccepted assembled = true →
        document.source ∈ assembled.sources.layers := by
  rw [assemble_eq_load plain] at done
  rcases exists_of_load done with ⟨progress, profiles, ran, rfl, rfl | ⟨_, missing, _⟩⟩
  case inr => cases missing
  rw [List.nil_append]
  have probed := Assembly.Search.mem_probes_of_baseFile base
  rcases Assembly.Setup.read_of_run ran probed with ⟨probe, documents, same, read⟩
  cases same
  refine ⟨documents, read, ?_⟩
  intro document inside accepted
  suffices found : ∃ pass, ⟨pass, none, document⟩ ∈ progress.log by
    rcases found with ⟨pass, member⟩
    exact Assembly.Setup.mem_merge_of_mem_log standard ran member
  by_cases free : document.scope = []
  · have found : (assembler.setup environment).Finds .regular environment none []
        ⟨loader, location, none⟩ document := by
      refine ⟨probed, ⟨documents, read, inside⟩, ?_⟩
      exact List.isEmpty_iff.mpr free
    exact ⟨.regular, Assembly.Setup.mem_log_of_first ran found⟩
  · have same := Assembly.Setup.isActive_setActive_of_run ran
    have holds := accepted.resolve_left free
    rw [Document.isAccepted_congr same] at holds
    have found : (assembler.setup environment).Finds .leftover progress.environment none []
        ⟨loader, location, none⟩ document := by
      refine ⟨probed, ⟨documents, read, inside⟩, ?_⟩
      have limited := Bool.eq_false_iff.mpr (mt List.isEmpty_iff.mp free)
      simp only [Document.isTaken, limited, holds, Bool.not_false, Bool.and_self]
    exact ⟨.leftover, Assembly.Setup.mem_log_of_last ran found⟩

/-- A base file in three sections: one without scope, one scoped to a profile and one for all but
another profile. -/
def inSections : Assembler :=
  ofFiles [("conf/app.yml",
    "\"k\": \"a\"\n---\n\"autowire.config.activate.on-profile\": \"dev\"\n---\n" ++
      "\"autowire.config.activate.on-profile\": \"!b\"")]

theorem baseFile_inSections :
    inSections.search.BaseFile inSections.loaders (Environment.initial.activate "dev") Loader.yaml
      "conf/app.yml" := by
  have claimed : ("yml", Loader.yaml) ∈ Assembly.Search.claims inSections.loaders := by
    rw [inSections, ofFiles, Assembly.claims_standard]
    exact List.mem_cons_of_mem _ List.mem_cons_self
  have located : inSections.search.allLocations (Environment.initial.activate "dev") =
      .ok ["conf/"] := by
    unfold Assembly.Search.allLocations
    cbv
  have named : inSections.search.allNames (Environment.initial.activate "dev") = .ok ["app"] := by
    unfold Assembly.Search.allNames
    cbv
  exact .inDirectory located List.mem_cons_self (by decide) named List.mem_cons_self claimed

/-- Whether a file has sections of the scopes, all of which count for the environment. -/
def acceptsSections (assembler : Assembler) (environment : Environment) (loader : Loader)
    (location : String) (scopes : List (List String)) (after : Environment) : Bool :=
  match assembler.documentsAt environment loader location with
  | .ok documents => documents.map Document.scope == scopes &&
      documents.all fun document => document.scope.isEmpty || document.isAccepted after
  | .error _ => false

set_option maxRecDepth 20000 in
theorem base_documents_kept_inSections :
    ∃ assembled documents,
      inSections.assemble (Environment.initial.activate "dev") = .ok assembled ∧
      inSections.documentsAt (Environment.initial.activate "dev") Loader.yaml "conf/app.yml" =
        .ok documents ∧
      documents.map Document.scope = [[], ["dev"], ["!b"]] ∧
      ∀ document ∈ documents, document.source ∈ assembled.sources.layers := by
  have plain : (Environment.initial.activate "dev").sources.contains Keys.defaultProperties =
      false := rfl
  rcases exists_of_ranWithin inSections (Environment.initial.activate "dev") 1
    (fun progress => inSections.acceptsSections (Environment.initial.activate "dev") Loader.yaml
      "conf/app.yml" [[], ["dev"], ["!b"]] progress.environment) (by cbv) with
    ⟨progress, ran, accepted⟩
  have done := assemble_of_run ran rfl
  rcases base_documents_kept rfl plain done baseFile_inSections with ⟨documents, read, kept⟩
  rw [acceptsSections, read, Bool.and_eq_true, beq_iff_eq, List.all_eq_true] at accepted
  refine ⟨_, documents, done, read, accepted.1, ?_⟩
  intro document member
  apply kept document member
  have holds := accepted.2 document member
  rw [Bool.or_eq_true, List.isEmpty_iff] at holds
  exact holds.imp_right
    (Document.isAccepted_congr (Assembly.Setup.isActive_setActive_of_run ran) document).trans

end Assembler
end LayeredConfig

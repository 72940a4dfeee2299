import LayeredConfig.Assembly.Request
import LayeredConfig.Proofs.Assembly.Places
import LayeredConfig.Proofs.Assembly.TurnOrder
import LayeredConfig.Proofs.Text.CommaList

namespace LayeredConfig

open Property

/-!
# Assemblies for requested profiles

The profiles that a caller requests stand in the only source of a new environment,
written as one text.  Names that are trimmed, not blank and without commas and
dollars are read back from it, and they settle the queue before any file is read.
-/

namespace Assembly

/-- The environment in which profiles are requested. -/
def forProfiles (active included : List String) : Environment :=
  ofRequest (request KeyedList.empty active included)

/-- What stands for itself in a list: a name that is trimmed and not blank, without commas and
dollars. -/
structure Lone (name : String) : Prop where
  trimmed : Text.trim name = name
  visible : name ≠ ""
  undivided : ',' ∉ name.toList
  fixed : '$' ∉ name.toList

theorem lone_iff {name : String} : Lone name ↔
    (Text.trim name = name ∧ name ≠ "") ∧ ',' ∉ name.toList ∧ '$' ∉ name.toList :=
  ⟨fun lone => ⟨⟨lone.trimmed, lone.visible⟩, lone.undivided, lone.fixed⟩,
    fun each => ⟨each.1.1, each.1.2, each.2.1, each.2.2⟩⟩

instance (name : String) : Decidable (Lone name) :=
  decidable_of_iff _ lone_iff.symm

theorem name_request (active included : List String) :
    (request KeyedList.empty active included).name = Keys.commandLineArguments := by
  unfold request
  dsimp only
  split <;> split <;> rfl

theorem active_forProfiles (active included : List String) :
    (forProfiles active included).active = [] := by
  unfold forProfiles ofRequest
  split <;> rfl

theorem defaults_forProfiles (active included : List String) :
    (forProfiles active included).defaults = ["default"] := by
  unfold forProfiles ofRequest
  split <;> rfl

variable {active : List String} (filled : active ≠ []) (included : List String)

include filled

theorem get?_active_request :
    (request KeyedList.empty active included).get? Keys.activeProfiles =
      some (",".intercalate active) := by
  have different : Keys.activeProfiles ≠ Keys.includedProfiles := by decide
  simp only [request, List.isEmpty_eq_false_iff.mpr filled]
  split <;> simp [Source.get?, Source.set, KeyedList.get?_insert, different]

/-- Where profiles are requested, the request is the only source. -/
theorem layers_forProfiles :
    (forProfiles active included).sources.layers =
      [request KeyedList.empty active included] := by
  have asked := get?_active_request filled included
  have some : (request KeyedList.empty active included).properties.isEmpty = false := by
    rw [Bool.eq_false_iff]
    intro empty
    rw [Source.get?, KeyedList.get?, List.isEmpty_iff.mp empty] at asked
    cases asked
  rw [forProfiles, ofRequest, some]
  rfl

theorem get?_forProfiles_of_other {key : String} (first : Keys.activeProfiles ≠ key)
    (second : Keys.includedProfiles ≠ key) : (forProfiles active included).get? key = none := by
  rw [Environment.get?, Sources.get?, layers_forProfiles filled, List.findSome?_singleton]
  simp only [request, List.isEmpty_eq_false_iff.mpr filled]
  have nothing : (KeyedList.empty : Table).get? key = none := rfl
  split <;> simp [Source.get?, Source.set, KeyedList.get?_insert, nothing, Ne.symm first,
    Ne.symm second]

theorem placesUnset_forProfiles : Assembler.PlacesUnset (forProfiles active included) where
  additional := get?_forProfiles_of_other filled included (by decide) (by decide)
  locations := get?_forProfiles_of_other filled included (by decide) (by decide)
  names := get?_forProfiles_of_other filled included (by decide) (by decide)

theorem names_forProfiles :
    (forProfiles active included).sources.names = [Keys.commandLineArguments] := by
  rw [Sources.names, layers_forProfiles filled, List.map_singleton, name_request]

theorem plain_forProfiles :
    (forProfiles active included).sources.contains Keys.defaultProperties = false := by
  rw [Bool.eq_false_iff, ne_eq, Sources.contains_iff_mem_names, names_forProfiles filled]
  decide

/-- The requested profiles are read back as they were requested. -/
theorem resolveList_forProfiles (lone : ∀ name ∈ active, Lone name) :
    (forProfiles active included).resolveList Keys.activeProfiles = .ok active := by
  have listed : (forProfiles active included).list? Keys.activeProfiles = some active := by
    rw [Environment.list?, Sources.list?, layers_forProfiles filled, List.findSome?_singleton,
      Source.list?, get?_active_request filled]
    have each : ∀ name ∈ active, Text.commaList name = [name] := fun name member =>
      Text.commaList_of_trimmed (lone name member).trimmed (lone name member).visible
        (lone name member).undivided
    simp only [Text.commaList_intercalate, ← Text.eq_flatMap_commaList_iff.mpr each]
  rw [Environment.resolveList, listed]
  refine Traversal.mapM_eq_ok_iff.mpr (List.forall₂_same.mpr fun name member => ?_)
  exact (Placeholder.fixed_of_no_dollar (lone name member).fixed).resolves _ .lenient

theorem settled_forProfiles (lone : ∀ name ∈ active, Lone name) {setup : Setup}
    (starts : setup.environment = forProfiles active included) {queue : Queue}
    (queued : setup.queue = .ok queue) : queue.settled = true := by
  rcases Setup.queue_eq_ok_iff.mp queued with ⟨activated, _, first, _, rfl⟩
  rw [starts, resolveList_forProfiles filled included lone] at first
  cases first
  rw [Queue.settled_start, List.isEmpty_eq_false_iff.mpr filled]
  rfl

/-- Asked for are the requested profiles and those to include. -/
theorem requests_forProfiles_iff (lone : ∀ name ∈ active, Lone name) {setup : Setup}
    (starts : setup.environment = forProfiles active included) {more : List String}
    (listed : (forProfiles active included).resolveList Keys.includedProfiles = .ok more)
    (name : String) : setup.Requests name ↔ name ∈ active ∨ name ∈ more := by
  have resolved := resolveList_forProfiles filled included lone
  rw [← starts] at resolved listed
  rw [Setup.requests_iff resolved listed, starts, active_forProfiles]
  simp

end Assembly

namespace Assembler

open Assembly

variable {assembler : Assembler}

theorem assembleFor_eq_ok_iff {active included : List String} {assembled : Environment} :
    assembler.assembleFor active included = .ok assembled ↔
      assembler.assemble (forProfiles active included) = .ok assembled := by
  rw [assembleFor, forProfiles]
  cases assembler.assemble (ofRequest (request KeyedList.empty active included)) with
  | error failure => simp [Except.mapError]
  | ok environment => simp [Except.mapError]

/-- The run behind an assembly for requested profiles. -/
theorem exists_run_of_assembleFor {active included : List String} (filled : active ≠ [])
    {assembled : Environment} (done : assembler.assembleFor active included = .ok assembled) :
    ∃ progress, (assembler.setup (forProfiles active included)).run = .ok progress ∧
      assembled.active = requested progress.queue ∧
      ∀ name, name ∈ assembled.sources.names ↔
        name = Keys.commandLineArguments ∨
          ∃ taken ∈ progress.log, taken.document.source.name = name := by
  have plain := plain_forProfiles filled included
  rcases (assemble_eq_ok_iff_of_plain plain).mp (assembleFor_eq_ok_iff.mp done) with
    ⟨progress, ran, rfl⟩
  rcases Setup.requested_of_run ran with ⟨_, _, _, _, _, _, distinct, _⟩
  refine ⟨progress, ran, Names.addAll_of_nodup distinct, fun name => ?_⟩
  have kept : progress.environment.sources.names = [Keys.commandLineArguments] := by
    rw [(Setup.consistent_of_run ran).sources]
    exact names_forProfiles filled included
  have merged := mem_names_merge_iff progress name
  rwa [kept, List.mem_singleton] at merged

end Assembler
end LayeredConfig

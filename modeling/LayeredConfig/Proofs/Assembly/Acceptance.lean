import LayeredConfig.Proofs.Assembly.Documents
import LayeredConfig.Proofs.Assembly.Evaluation
import LayeredConfig.Proofs.Assembly.Files
import LayeredConfig.Proofs.Assembly.Outcome
import LayeredConfig.Proofs.Environment
import LayeredConfig.Proofs.Profile.Occurrences
import Mathlib

namespace LayeredConfig

open Property

/-!
# Loaded documents and the profiles of the result

A document is taken when its scope is accepted by the profiles that are active
then, and others may become active later.  A scope that names a requested
profile still holds in the end.  It may be outgrown in three ways: a default
profile gives way to active ones after its turn, the name of a profile is itself
an expression, or the default properties add profiles after the last pass, and
the scope denies one of them or affirms a default that gives way to them.
-/

namespace Assembly

/-- A default profile that had its turn as such while none was active, though some are in the
result. -/
structure Displaced (environment assembled : Environment) (progress : Progress) (name : String) :
    Prop where
  turn : ∃ profile ∈ progress.queue.begun, profile.isDefault = true ∧ profile.name = name
  default : name ∈ environment.defaults
  idle : environment.active = []
  active : assembled.active ≠ []

/-- Why a scope that held when its document was taken may not hold in the result. -/
inductive Outgrown (environment assembled : Environment) (progress : Progress) (taken : Taken) :
    Prop where
  /-- The document was taken for a default profile that gave way. -/
  | displaced {name : String} (turn : taken.profile = some name)
      (named : name ∈ taken.document.scope)
      (displaced : Displaced environment assembled progress name)
  /-- The document was taken for a requested profile whose name is read as something else. -/
  | compound {name : String} (turn : taken.profile = some name)
      (named : name ∈ taken.document.scope) (requested : name ∈ requested progress.queue)
      (compound : Profile.Expression.parse name ≠ .ok (.name name))
  /-- After the last pass the default properties added a profile that the scope denies. -/
  | denied {expression : Profile.Expression} {name : String} (last : taken.pass = .leftover)
      (listed : expression ∈ taken.document.expressions)
      (held : expression.holds progress.environment.isActive = true)
      (denies : expression.Occurs name false) (active : name ∈ assembled.active)
      (late : name ∉ requested progress.queue)
  /-- After the last pass the default properties added the first active profile, and the scope
  affirms a default profile that gave way. -/
  | replaced {expression : Profile.Expression} {name : String} (last : taken.pass = .leftover)
      (listed : expression ∈ taken.document.expressions)
      (held : expression.holds progress.environment.isActive = true)
      (affirms : expression.Occurs name true) (idle : requested progress.queue = [])
      (default : name ∈ environment.defaults) (inactive : assembled.isActive name = false)

end Assembly

namespace Assembler

/-- How a document that was taken stands in the result: its scope was accepted with no more
active profiles than the result has, and the result accepts it too unless they outgrew it; its
file is a base file or that of a profile that is active or gave way. -/
structure Eligible (assembler : Assembler) (environment assembled : Environment)
    (progress : Assembly.Progress) (taken : Assembly.Taken) : Prop where
  before : taken.document.scope ≠ [] →
    ∃ before : Environment, before.defaults = environment.defaults ∧
      before.active ⊆ assembled.active ∧ taken.document.isAccepted before = true
  scope : taken.document.scope ≠ [] →
    taken.document.isAccepted assembled = true ∨
      Assembly.Outgrown environment assembled progress taken
  file : ∃ probe documents,
    Assembly.Library.read assembler.store (reading environment) probe = .ok documents ∧
      taken.document ∈ documents ∧
      (assembler.search.BaseFile assembler.loaders (reading environment) probe.loader
          probe.location ∨
        ∃ name, assembler.search.ProfileFile assembler.loaders (reading environment) name
            probe.loader probe.location ∧
          (assembled.isActive name = true ∨ Assembly.Displaced environment assembled progress name))

namespace Completes

variable {assembler : Assembler} {environment assembled : Environment}
  {progress : Assembly.Progress}

theorem mem_requested_of_begun {profile : Profile} (begun : profile ∈ progress.queue.begun)
    (asked : profile.isDefault = false) :
    profile.name ∈ Assembly.requested progress.queue :=
  (Assembly.Setup.mem_requested_iff _ _).mpr ⟨profile, begun, asked, rfl⟩

theorem fallback_of_begun (completes : assembler.Completes environment assembled progress)
    {profile : Profile} (begun : profile ∈ progress.queue.begun)
    (default : profile.isDefault = true) :
    profile.name ∈ environment.defaults ∧ environment.active = [] := by
  have consistent := Assembly.Setup.consistent_of_run completes.ran
  rcases consistent.fallback profile (List.mem_append_right _ begun) default with
    ⟨listed, nobody⟩
  rw [← defaults_reading, ← active_reading]
  refine ⟨listed, List.eq_nil_iff_forall_not_mem.mpr ?_⟩
  intro name active
  exact nobody name (.active active)

theorem isActive_or_displaced (completes : assembler.Completes environment assembled progress)
    {profile : Profile} (begun : profile ∈ progress.queue.begun) :
    assembled.isActive profile.name = true ∨
      Assembly.Displaced environment assembled progress profile.name := by
  cases default : profile.isDefault with
  | false =>
      have requested := completes.requested (mem_requested_of_begun begun default)
      exact Or.inl (Environment.isActive_of_mem requested)
  | true =>
      rcases completes.fallback_of_begun begun default with ⟨listed, idle⟩
      by_cases nobody : assembled.active = []
      · have named : profile.name ∈ assembled.defaults := completes.defaults ▸ listed
        exact Or.inl (Environment.isActive_of_mem_defaults nobody named)
      · exact Or.inr ⟨⟨profile, begun, default, rfl⟩, listed, idle, nobody⟩

/-- A file that was read is a base file, or the file of a profile that is active in the result or
gave way to active ones. -/
theorem file_of_mem_log (completes : assembler.Completes environment assembled progress)
    {taken : Assembly.Taken} (member : taken ∈ progress.log) :
    ∃ probe documents,
      Assembly.Library.read assembler.store (reading environment) probe = .ok documents ∧
        taken.document ∈ documents ∧
        (assembler.search.BaseFile assembler.loaders (reading environment) probe.loader
            probe.location ∨
          ∃ name, assembler.search.ProfileFile assembler.loaders (reading environment) name
              probe.loader probe.location ∧
            (assembled.isActive name = true ∨
              Assembly.Displaced environment assembled progress name)) := by
  rcases Assembly.Setup.exists_probe_of_run completes.ran member with
    ⟨probe, brought | ⟨_, found⟩⟩
  · cases brought with
    | first found =>
        rcases found.read with ⟨documents, read, inside⟩
        rcases Assembly.Search.file_of_mem_probes found.probed with ⟨base, _⟩ | ⟨_, _, none, _⟩
        · exact ⟨probe, documents, read, inside, Or.inl base⟩
        · cases none
    | @turn profile _ earlier _ _ begun _ _ _ before found =>
        rcases found.read with ⟨documents, read, inside⟩
        refine ⟨probe, documents, read, inside, ?_⟩
        rcases Assembly.Search.file_of_mem_probes found.probed with
          ⟨base, _⟩ | ⟨_, name, own, which, _, specific⟩
        · exact Or.inl base
        · cases own
          refine Or.inr ⟨name, specific, ?_⟩
          have listed : name ∈ progress.queue.earlier := by
            rcases which with rfl | sooner
            · exact List.mem_map_of_mem begun
            · exact before sooner
          rcases List.mem_map.mp listed with ⟨other, had, rfl⟩
          exact completes.isActive_or_displaced had
  · rcases found.read with ⟨documents, read, inside⟩
    rcases Assembly.Search.file_of_mem_probes found.probed with ⟨base, _⟩ | ⟨_, _, none, _⟩
    · exact ⟨probe, documents, read, inside, Or.inl base⟩
    · cases none

theorem parsed_of_mem_log (completes : assembler.Completes environment assembled progress)
    {taken : Assembly.Taken} (member : taken ∈ progress.log) :
    Profile.parseAll taken.document.scope = .ok taken.document.expressions := by
  rcases Assembly.Setup.exists_finds_of_run completes.ran member with ⟨_, _, _, _, _, found⟩
  rcases found.read with ⟨documents, read, inside⟩
  have made := Assembly.Library.ofSource_of_mem_read read inside
  exact (Document.ofSource_eq_ok_iff.mp made).2.2.1

/-- The profiles that are active at the end of the run are active in the result. -/
theorem active_subset (completes : assembler.Completes environment assembled progress) :
    progress.environment.active ⊆ assembled.active := by
  intro name active
  exact completes.requested ((Assembly.Setup.active_of_run completes.ran name).mp active)

theorem accepted_of_turn (completes : assembler.Completes environment assembled progress)
    {profile : Profile} {before : Environment} {taken : Assembly.Taken}
    (member : taken ∈ progress.log) (begun : profile ∈ progress.queue.begun)
    (turn : taken.profile = some profile.name) (defaults : before.defaults = environment.defaults)
    (idle : profile.isDefault = true → before.active = [])
    (named : profile.name ∈ taken.document.scope)
    (accepted : taken.document.isAccepted before = true) :
    taken.document.isAccepted assembled = true ∨
      Assembly.Outgrown environment assembled progress taken := by
  cases default : profile.isDefault with
  | false =>
      have requested := mem_requested_of_begun begun default
      by_cases plain : Profile.Expression.parse profile.name = .ok (.name profile.name)
      · have parsed := completes.parsed_of_mem_log member
        have active := Environment.isActive_of_mem (completes.requested requested)
        exact Or.inl (Document.isAccepted_of_mem_scope parsed named plain active)
      · exact Or.inr (.compound turn named requested plain)
  | true =>
      by_cases nobody : assembled.active = []
      · have same : assembled.isActive = before.isActive := by
          apply Environment.isActive_congr
          · rw [completes.defaults, defaults]
          · intro name
            rw [nobody, idle default]
        exact Or.inl ((Document.isAccepted_congr same _).trans accepted)
      · rcases completes.fallback_of_begun begun default with ⟨listed, started⟩
        exact Or.inr (.displaced turn named
          ⟨⟨profile, begun, default, rfl⟩, listed, started, nobody⟩)

theorem accepted_of_last (completes : assembler.Completes environment assembled progress)
    {taken : Assembly.Taken} (last : taken.pass = .leftover)
    (accepted : taken.document.isAccepted progress.environment = true) :
    taken.document.isAccepted assembled = true ∨
      Assembly.Outgrown environment assembled progress taken := by
  have defaults : progress.environment.defaults = environment.defaults :=
    (Assembly.Setup.consistent_of_run completes.ran).defaults.trans (defaults_reading environment)
  have same : assembled.defaults = progress.environment.defaults :=
    completes.defaults.trans defaults.symm
  rcases List.any_eq_true.mp accepted with ⟨expression, listed, held⟩
  cases holds : expression.holds assembled.isActive with
  | true => exact Or.inl (List.any_eq_true.mpr ⟨expression, listed, holds⟩)
  | false =>
      right
      rcases Profile.Expression.exists_occurs_of_fails held holds with
        ⟨name, ⟨affirms, was, now⟩ | ⟨denies, was, now⟩⟩
      · rcases Environment.idle_of_turned completes.active_subset was now with ⟨idle, default⟩
        refine .replaced last listed held affirms ?_ (defaults ▸ default) now
        apply List.eq_nil_iff_forall_not_mem.mpr
        intro other requested
        have active := (Assembly.Setup.active_of_run completes.ran other).mpr requested
        rw [idle] at active
        cases active
      · rcases Environment.mem_active_of_turned same completes.active_subset was now with
          ⟨active, absent⟩
        refine .denied last listed held denies active ?_
        exact mt (Assembly.Setup.active_of_run completes.ran name).mpr absent

/-- A scope that counts was accepted by an environment with no more active profiles than the
result, and the result accepts it unless they outgrew it. -/
theorem scope_of_mem_log (completes : assembler.Completes environment assembled progress)
    {taken : Assembly.Taken} (member : taken ∈ progress.log)
    (limited : taken.document.scope ≠ []) :
    (∃ before : Environment, before.defaults = environment.defaults ∧
        before.active ⊆ assembled.active ∧ taken.document.isAccepted before = true) ∧
      (taken.document.isAccepted assembled = true ∨
        Assembly.Outgrown environment assembled progress taken) := by
  have consistent := Assembly.Setup.consistent_of_run completes.ran
  have activated := completes.active_subset
  rcases Assembly.Setup.exists_probe_of_run completes.ran member with
    ⟨probe, brought | ⟨last, found⟩⟩
  · cases brought with
    | first found =>
        rcases Assembly.Search.file_of_mem_probes found.probed with ⟨_, free⟩ | ⟨_, _, none, _⟩
        · have taken := found.taken
          rw [free] at taken
          exact absurd (List.isEmpty_iff.mp taken) limited
        · cases none
    | @turn profile before earlier _ document begun defaults fewer idle _ found =>
        have same : before.defaults = environment.defaults :=
          defaults.trans (defaults_reading environment)
        rcases Document.of_isTaken_regular found.taken with free | ⟨name, scope, named, accepted⟩
        · exact absurd free limited
        · have own : some name = some profile.name := by
            rcases Assembly.Search.file_of_mem_probes found.probed with
              ⟨_, base⟩ | ⟨_, _, _, _, none | which, _⟩
            · exact scope.symm.trans base
            · rw [none] at scope
              cases scope
            · exact scope.symm.trans which
          cases own
          refine ⟨⟨before, same, List.Subset.trans fewer activated, accepted⟩, ?_⟩
          exact completes.accepted_of_turn member begun rfl same idle named accepted
  · have accepted := Document.isAccepted_of_isTaken_leftover found.taken
    have same : progress.environment.defaults = environment.defaults :=
      consistent.defaults.trans (defaults_reading environment)
    exact ⟨⟨progress.environment, same, activated, accepted⟩,
      completes.accepted_of_last last accepted⟩

end Completes

theorem loaded_eligible {assembler : Assembler} {environment assembled : Environment}
    (done : assembler.assemble environment = .ok assembled) :
    ∃ progress, assembler.Completes environment assembled progress ∧
      ∀ taken ∈ progress.log, assembler.Eligible environment assembled progress taken := by
  rcases exists_of_assemble done with ⟨progress, completes⟩
  refine ⟨progress, completes, ?_⟩
  intro taken member
  constructor
  · intro limited
    exact (completes.scope_of_mem_log member limited).1
  · intro limited
    exact (completes.scope_of_mem_log member limited).2
  · exact completes.file_of_mem_log member

/-- An assembler over one file of a directory. -/
def overFile (names location text : String) : Assembler where
  store := .memory (KeyedList.empty.insert location text)
  loaders := Loader.standard
  search := { locations := some "conf/", names := some names }

/-- Whether the result has the source of a location. -/
def holdsFile (location : String) (assembled : Environment) : Bool :=
  assembled.sources.contains (Assembly.Library.sourceName location)

/-- The file of one profile with a scope that names it. -/
def ofProfile : Assembler :=
  overFile "app" "conf/app-dev.properties"
    "autowire.config.activate.on-profile=dev\nport=80"

theorem loaded_eligible_ofProfile :
    ∃ assembled progress, ofProfile.assemble (Environment.initial.activate "dev") = .ok assembled ∧
      holdsFile "conf/app-dev.properties" assembled = true ∧
      ofProfile.Completes (Environment.initial.activate "dev") assembled progress ∧
      ∀ taken ∈ progress.log,
        ofProfile.Eligible (Environment.initial.activate "dev") assembled progress taken := by
  rcases exists_of_runWithin ofProfile (Environment.initial.activate "dev") 1
    (holdsFile "conf/app-dev.properties") (by cbv) with ⟨assembled, done, held⟩
  rcases loaded_eligible done with ⟨progress, completes, eligible⟩
  exact ⟨assembled, progress, done, held, completes, eligible⟩

/-! ## Documents that were outgrown -/

/-- Whether the result has a source with a scope that it does not accept. -/
def holdsUnaccepted (environment assembled : Environment) : Bool :=
  assembled.sources.layers.any fun source =>
    match Document.ofSource (reading environment) source with
    | .ok document => !document.scope.isEmpty && !document.isAccepted assembled
    | .error _ => false

/-- The file of the default profile activates another one. -/
def givingWay : Assembler :=
  overFile "app" "conf/app-default.properties"
    "autowire.config.activate.on-profile=default\nautowire.profiles.active=dev"

/-- A document for all but one profile includes that profile. -/
def including : Assembler :=
  overFile "app" "conf/app.properties"
    "autowire.config.activate.on-profile=!dev\nautowire.profiles.include=dev"

/-- A document for all but one profile, which the default properties may include. -/
def excluding : Assembler :=
  overFile "app" "conf/app.properties" "autowire.config.activate.on-profile=!dev"

def includingDefaults : Environment :=
  Environment.initial.addLast
    ⟨Keys.defaultProperties, KeyedList.empty.insert Keys.includedProfiles "dev"⟩

/-- The file of one profile could be that of another one under a shorter base name. -/
def ambiguous : Assembler :=
  overFile "app,app-x" "conf/app-x-y.properties" "port=80"

theorem loaded_outgrown :
    (∃ assembled, givingWay.assemble Environment.initial = .ok assembled ∧
      (holdsFile "conf/app-default.properties" assembled && !assembled.isActive "default" &&
        holdsUnaccepted Environment.initial assembled) = true) ∧
    (∃ assembled, including.assemble (Environment.initial.activate "!dev") = .ok assembled ∧
      holdsUnaccepted (Environment.initial.activate "!dev") assembled = true) ∧
    (∃ assembled, excluding.assemble includingDefaults = .ok assembled ∧
      holdsUnaccepted includingDefaults assembled = true) ∧
    ∃ assembled, ambiguous.assemble (Environment.initial.activate "y") = .ok assembled ∧
      (holdsFile "conf/app-x-y.properties" assembled && !assembled.isActive "x-y") = true := by
  refine ⟨?_, ?_, ?_, ?_⟩
  · apply exists_of_runWithin givingWay Environment.initial 2 fun assembled =>
      holdsFile "conf/app-default.properties" assembled && !assembled.isActive "default" &&
        holdsUnaccepted Environment.initial assembled
    cbv
  · apply exists_of_runWithin including (Environment.initial.activate "!dev") 2
      (holdsUnaccepted (Environment.initial.activate "!dev"))
    cbv
  · apply exists_of_runWithin excluding includingDefaults 1 (holdsUnaccepted includingDefaults)
    cbv
  · apply exists_of_runWithin ambiguous (Environment.initial.activate "y") 1 fun assembled =>
      holdsFile "conf/app-x-y.properties" assembled && !assembled.isActive "x-y"
    cbv

end Assembler
end LayeredConfig

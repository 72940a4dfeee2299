import LayeredConfig.Proofs.Assembly.Evaluation
import LayeredConfig.Proofs.Assembly.Passes
import Mathlib

namespace LayeredConfig

open Property

/-!
# Which profiles that are asked for become active

A profile that the environment asks for has its turn and is active in the
result.  So is one that a document asks for before the last pass, unless the
queue holds a default of its name: then the name does not enter, and the default
goes on as it is or is dropped.  The last pass gives no turn to anybody.
-/

namespace Assembly
namespace Setup

/-- The profile waits at the start as a default, since the environment asks for none. -/
structure Fallback (setup : Setup) (name : String) : Prop where
  default : name ∈ setup.environment.defaults
  unasked : ∀ other, ¬ setup.Requests other

/-- The document is the first that lists profiles to activate, and the environment lists none. -/
structure Activates (setup : Setup) (visits : List Visit) (taken : Taken) : Prop where
  unlisted : setup.environment.resolveList Keys.activeProfiles = .ok []
  first : ∃ sooner later, noted visits = sooner ++ taken :: later ∧
    ∀ other ∈ sooner, other.document.active = []
  effective : taken.document.active ≠ []

theorem Consistent.free {setup : Setup} {moment : Progress} (consistent : Consistent setup moment)
    {name : String} (sure : ¬ setup.Fallback name) : moment.queue.Free name := by
  intro profile member default named
  rcases consistent.fallback profile member default with ⟨listed, unasked⟩
  exact sure ⟨named ▸ listed, unasked⟩

/-- What the first list of a document activates has its turn, apart from defaults. -/
theorem requested_of_activates {setup : Setup} {visits : List Visit} {progress : Progress}
    (runs : Runs setup visits progress) {taken : Taken} (activates : setup.Activates visits taken)
    (regular : taken.pass = .regular) {name : String} (member : name ∈ taken.document.active) :
    name ∈ requested progress.queue ∨ setup.Fallback name := by
  by_cases sure : setup.Fallback name
  · exact Or.inr sure
  · rcases activates.first with ⟨sooner, later, split, silent⟩
    -- At that moment nothing is settled, so that the list takes effect.
    rcases exists_moment_of_runs runs split regular with ⟨moment, consistent, noting, _, turn⟩
    have unsettled := noting.unsettled.mpr ⟨activates.unlisted, silent⟩
    have asked := Queue.asked_activate (consistent.free sure) unsettled member
    exact Or.inl (turn name (asked.grows (Queue.grows_enterAll _ _)))

/-- What a document includes has its turn, unless there is a default of that name: one that had
its turn, or one that waits because nothing has been activated yet. -/
theorem requested_of_included {setup : Setup} {visits : List Visit} {progress : Progress}
    (runs : Runs setup visits progress) {sooner later : List Taken} {taken : Taken}
    (split : noted visits = sooner ++ taken :: later) (regular : taken.pass = .regular)
    {name : String} (member : name ∈ taken.document.included) :
    name ∈ requested progress.queue ∨ setup.Fallback name ∧
      ((∃ profile ∈ progress.queue.begun, profile.isDefault = true ∧ profile.name = name) ∨
        ∀ other ∈ sooner ++ [taken], other.document.active = []) := by
  rcases exists_moment_of_runs runs split regular with ⟨moment, consistent, noting, past, turn⟩
  have activated := Queue.grows_activate moment.queue taken.document.active
  by_cases free : (moment.queue.activate taken.document.active).Free name
  · exact Or.inl (turn name (Queue.asked_enterAll free member))
  · simp only [Queue.Free, not_forall, not_not] at free
    rcases free with ⟨profile, held, default, named⟩
    right
    rcases List.mem_append.mp held with waiting | begun
    · have before := activated.defaults profile waiting default
      rcases consistent.fallback profile (List.mem_append_left _ before) default with
        ⟨listed, unasked⟩
      refine ⟨⟨named ▸ listed, unasked⟩, Or.inr ?_⟩
      -- Nothing was activated, or no default would wait.
      have unsettled : (moment.queue.activate taken.document.active).settled = false := by
        rcases Bool.eq_false_or_eq_true
          (moment.queue.activate taken.document.active).settled with settled | unsettled
        · have plain := noting.cleared.activate taken.document.active settled profile waiting
          rw [default] at plain
          cases plain
        · exact unsettled
      rw [Queue.settled_activate, Bool.or_eq_false_iff, Bool.not_eq_false', List.isEmpty_iff]
        at unsettled
      rw [List.forall_mem_append, List.forall_mem_singleton]
      exact ⟨(noting.unsettled.mp unsettled.1).2, unsettled.2⟩
    · rw [activated.begun] at begun
      rcases consistent.fallback profile (List.mem_append_right _ begun) default with
        ⟨listed, unasked⟩
      exact ⟨⟨named ▸ listed, unasked⟩, Or.inl ⟨profile, past begun, default, named⟩⟩

end Setup
end Assembly

namespace Assembler

/-- The run behind an assembly, pass by pass.  Active in the result are the requested profiles
that had their turn and what the default properties add. -/
structure Recounts (assembler : Assembler) (environment assembled : Environment)
    (visits : List Assembly.Visit) (progress : Assembly.Progress) (added : List String) : Prop where
  completes : assembler.Completes environment assembled progress
  runs : (assembler.setup (reading environment)).Runs visits progress
  adds : Assembly.addedProfiles progress (environment.sources.find? Keys.defaultProperties) =
    .ok added
  active : ∀ name, name ∈ assembled.active ↔
    name ∈ Assembly.requested progress.queue ∨ name ∈ added

theorem exists_recounts_of_assemble {assembler : Assembler} {environment assembled : Environment}
    (done : assembler.assemble environment = .ok assembled) :
    ∃ visits progress added, assembler.Recounts environment assembled visits progress added := by
  rcases exists_of_assemble done with ⟨progress, completes⟩
  rcases Assembly.Setup.exists_runs_of_run completes.ran with ⟨visits, runs⟩
  rcases assemble_eq_ok_iff.mp done with ⟨loaded, ran, rfl⟩
  rw [load, completes.ran] at ran
  rcases Assembly.finish_eq_ok_iff.mp ran with ⟨added, adds, rfl⟩
  refine ⟨visits, progress, added, completes, runs, adds, ?_⟩
  intro name
  rw [active_restored, Environment.setActive, Names.mem_addAll, List.mem_append]
  simp [or_comm]

/-! ## Runs that take one document -/

/-- Whether one document was taken, and it passes a test. -/
def takesOne (test : Assembly.Taken → Bool) (progress : Assembly.Progress) : Bool :=
  match progress.log with
  | [taken] => test taken
  | _ => false

theorem exists_of_takesOne {test : Assembly.Taken → Bool} {progress : Assembly.Progress}
    (one : takesOne test progress = true) : ∃ taken, progress.log = [taken] ∧ test taken = true := by
  unfold takesOne at one
  split at one
  · next taken single => exact ⟨taken, single, one⟩
  · cases one

theorem Recounts.noted_of_single {assembler : Assembler} {environment assembled : Environment}
    {visits : List Assembly.Visit} {progress : Assembly.Progress} {added : List String}
    (recounts : assembler.Recounts environment assembled visits progress added)
    {taken : Assembly.Taken} (single : progress.log = [taken]) :
    Assembly.noted visits = [taken] := by
  have reordered := Assembly.Setup.log_perm_noted recounts.runs
  rw [single] at reordered
  exact List.singleton_perm.mp reordered |>.symm

theorem Recounts.activates_of_single {assembler : Assembler} {environment assembled : Environment}
    {visits : List Assembly.Visit} {progress : Assembly.Progress} {added : List String}
    (recounts : assembler.Recounts environment assembled visits progress added)
    (unlisted : (reading environment).resolveList Keys.activeProfiles = .ok [])
    {taken : Assembly.Taken} (single : progress.log = [taken]) {name : String}
    (member : name ∈ taken.document.active) :
    (assembler.setup (reading environment)).Activates visits taken where
  unlisted := unlisted
  first := ⟨[], [], recounts.noted_of_single single, fun _ absent => absurd absent List.not_mem_nil⟩
  effective := List.ne_nil_of_mem member

/-- An assembly whose run takes one document, when it is evaluated with numbered turns. -/
theorem exists_taken_of_runWithin (assembler : Assembler) (environment : Environment)
    (turns : Nat) (test : Assembly.Taken → Environment → Bool)
    (passed : assembler.passesWithin environment turns (fun progress assembled =>
      takesOne (fun taken => test taken assembled) progress) = true) :
    ∃ assembled, assembler.assemble environment = .ok assembled ∧
      ∀ progress, assembler.Completes environment assembled progress →
        ∃ taken, progress.log = [taken] ∧ test taken assembled = true := by
  rcases exists_progress_of_runWithin assembler environment turns _ passed with
    ⟨ran, assembled, within, done, one⟩
  refine ⟨assembled, done, fun progress completes => ?_⟩
  rw [Except.ok.inj (within.symm.trans completes.ran)] at one
  exact exists_of_takesOne one

/-! ## Profiles to activate -/

/-- The list of profiles to activate that takes effect is that of the environment or, when that
is empty, the one of the first document that has any.  All profiles on it are active in the
result, apart from defaults on the list of a document and unless it is only the last pass that
takes the document. -/
theorem activated_profiles_active {assembler : Assembler} {environment assembled : Environment}
    (done : assembler.assemble environment = .ok assembled) :
    ∃ visits progress added, assembler.Recounts environment assembled visits progress added ∧
      (∀ names, (reading environment).resolveList Keys.activeProfiles = .ok names →
        names ⊆ assembled.active) ∧
      ∀ taken, (assembler.setup (reading environment)).Activates visits taken →
        taken.pass = .regular → ∀ name ∈ taken.document.active,
          name ∈ assembled.active ∨ (assembler.setup (reading environment)).Fallback name := by
  rcases exists_recounts_of_assemble done with ⟨visits, progress, added, recounts⟩
  refine ⟨visits, progress, added, recounts, ?_, ?_⟩
  · intro names listed name member
    have turn := Assembly.Setup.requested_of_requests recounts.completes.ran
      (.activated listed member)
    exact (recounts.active name).mpr (Or.inl turn)
  · intro taken activates regular name member
    rcases Assembly.Setup.requested_of_activates recounts.runs activates regular member with
      turn | fallback
    · exact Or.inl ((recounts.active name).mpr (Or.inl turn))
    · exact Or.inr fallback

/-- The only file activates a profile that is no default. -/
def activating : Assembler :=
  ofFiles [("conf/app.properties", "autowire.profiles.active=dev")]

theorem activated_profiles_active_dev :
    ∃ assembled visits progress added taken,
      activating.assemble Environment.initial = .ok assembled ∧
      activating.Recounts Environment.initial assembled visits progress added ∧
      (activating.setup (reading Environment.initial)).Activates visits taken ∧
      "dev" ∈ taken.document.active ∧ "dev" ∈ assembled.active := by
  rcases exists_taken_of_runWithin activating Environment.initial 2 (fun taken _ =>
    decide (taken.pass = .regular) && decide ("dev" ∈ taken.document.active)) (by cbv) with
    ⟨assembled, done, one⟩
  rcases activated_profiles_active done with ⟨visits, progress, added, recounts, _, documents⟩
  rcases one progress recounts.completes with ⟨taken, single, held⟩
  rw [Bool.and_eq_true, decide_eq_true_eq, decide_eq_true_eq] at held
  have activates := recounts.activates_of_single (by rfl) single held.2
  refine ⟨assembled, visits, progress, added, taken, done, recounts, activates, held.2, ?_⟩
  rcases documents taken activates held.1 "dev" held.2 with active | fallback
  · exact active
  · exact absurd fallback.default (by decide)

/-- The list of a document takes effect, and the result lacks a profile that is on it. -/
def LosesActivated (assembler : Assembler) (environment : Environment) (name : String) : Prop :=
  ∃ assembled visits progress added taken,
    assembler.assemble environment = .ok assembled ∧
    assembler.Recounts environment assembled visits progress added ∧
    (assembler.setup (reading environment)).Activates visits taken ∧
    name ∈ taken.document.active ∧ name ∉ assembled.active

theorem losesActivated_of_runWithin (assembler : Assembler) (environment : Environment)
    (name : String) (turns : Nat)
    (unlisted : (reading environment).resolveList Keys.activeProfiles = .ok [])
    (passed : assembler.passesWithin environment turns (fun progress assembled =>
      takesOne (fun taken => decide (name ∈ taken.document.active) &&
        decide (name ∉ assembled.active)) progress) = true) :
    assembler.LosesActivated environment name := by
  rcases exists_taken_of_runWithin assembler environment turns _ passed with
    ⟨assembled, done, one⟩
  rcases exists_recounts_of_assemble done with ⟨visits, progress, added, recounts⟩
  rcases one progress recounts.completes with ⟨taken, single, held⟩
  rw [Bool.and_eq_true, decide_eq_true_eq, decide_eq_true_eq] at held
  exact ⟨assembled, visits, progress, added, taken, done, recounts,
    recounts.activates_of_single unlisted single held.1, held⟩

/-- The default profile activates itself in its own turn. -/
def activatingItself : Assembler :=
  ofFiles [("conf/app-default.properties", "autowire.profiles.active=default")]

/-- Only the last pass takes the file, which activates a profile. -/
def activatingLast : Assembler :=
  ofFiles [("conf/app.properties",
    "autowire.config.activate.on-profile=!dev\nautowire.profiles.active=prod")]

theorem activated_profiles_lost :
    activatingItself.LosesActivated Environment.initial "default" ∧
      activatingLast.LosesActivated Environment.initial "prod" := by
  constructor
  · exact losesActivated_of_runWithin _ _ _ 1 (by rfl) (by cbv)
  · exact losesActivated_of_runWithin _ _ _ 1 (by rfl) (by cbv)

/-! ## Profiles to include -/

/-- All profiles that a document includes are active in the result, when another pass than the
last takes the document, apart from a default that had its turn as such or waits for it since
nothing has been activated yet. -/
theorem included_profiles_active {assembler : Assembler} {environment assembled : Environment}
    (done : assembler.assemble environment = .ok assembled) :
    ∃ visits progress added, assembler.Recounts environment assembled visits progress added ∧
      ∀ sooner taken later, Assembly.noted visits = sooner ++ taken :: later →
        taken.pass = .regular → ∀ name ∈ taken.document.included,
          name ∈ assembled.active ∨
            (assembler.setup (reading environment)).Fallback name ∧
              ((∃ profile ∈ progress.queue.begun,
                  profile.isDefault = true ∧ profile.name = name) ∨
                ∀ other ∈ sooner ++ [taken], other.document.active = []) := by
  rcases exists_recounts_of_assemble done with ⟨visits, progress, added, recounts⟩
  refine ⟨visits, progress, added, recounts, ?_⟩
  intro sooner taken later split regular name member
  rcases Assembly.Setup.requested_of_included recounts.runs split regular member with
    turn | fallback
  · exact Or.inl ((recounts.active name).mpr (Or.inl turn))
  · exact Or.inr fallback

/-- The only file includes a profile. -/
def includingExtra : Assembler :=
  ofFiles [("conf/app.properties", "autowire.profiles.include=extra")]

theorem included_profiles_active_extra :
    ∃ assembled progress taken, includingExtra.assemble Environment.initial = .ok assembled ∧
      includingExtra.Completes Environment.initial assembled progress ∧
      taken ∈ progress.log ∧ "extra" ∈ taken.document.included ∧ "extra" ∈ assembled.active := by
  rcases exists_taken_of_runWithin includingExtra Environment.initial 2 (fun taken _ =>
    decide (taken.pass = .regular) && decide ("extra" ∈ taken.document.included)) (by cbv) with
    ⟨assembled, done, one⟩
  rcases included_profiles_active done with ⟨visits, progress, added, recounts, documents⟩
  rcases one progress recounts.completes with ⟨taken, single, held⟩
  rw [Bool.and_eq_true, decide_eq_true_eq, decide_eq_true_eq] at held
  have member : taken ∈ progress.log := single ▸ List.mem_singleton.mpr rfl
  refine ⟨assembled, progress, taken, done, recounts.completes, member, held.2, ?_⟩
  rcases documents [] taken [] (recounts.noted_of_single single) held.1 "extra" held.2 with
    active | ⟨fallback, _⟩
  · exact active
  · exact absurd fallback.default (by decide)

/-- The result has the source of a document and lacks a profile that the document includes. -/
def LosesIncluded (assembler : Assembler) (environment : Environment) (name : String) : Prop :=
  ∃ assembled progress taken,
    assembler.assemble environment = .ok assembled ∧
    assembler.Completes environment assembled progress ∧
    taken ∈ progress.log ∧ assembled.sources.contains taken.document.source.name = true ∧
    name ∈ taken.document.included ∧ name ∉ assembled.active

theorem losesIncluded_of_runWithin (assembler : Assembler) (environment : Environment)
    (name : String) (turns : Nat)
    (passed : assembler.passesWithin environment turns (fun progress assembled =>
      takesOne (fun taken => assembled.sources.contains taken.document.source.name &&
        (decide (name ∈ taken.document.included) && decide (name ∉ assembled.active)))
        progress) = true) :
    assembler.LosesIncluded environment name := by
  rcases exists_taken_of_runWithin assembler environment turns _ passed with
    ⟨assembled, done, one⟩
  rcases exists_recounts_of_assemble done with ⟨visits, progress, added, recounts⟩
  rcases one progress recounts.completes with ⟨taken, single, held⟩
  rw [Bool.and_eq_true, Bool.and_eq_true, decide_eq_true_eq, decide_eq_true_eq] at held
  exact ⟨assembled, progress, taken, done, recounts.completes,
    single ▸ List.mem_singleton.mpr rfl, held⟩

/-- Only the last pass takes the file, which includes a profile. -/
def includingLast : Assembler :=
  ofFiles [("conf/app.properties",
    "autowire.config.activate.on-profile=!dev\nautowire.profiles.include=prod")]

/-- The default profile is included while it waits. -/
def includingDefault : Assembler :=
  ofFiles [("conf/app.properties", "autowire.profiles.include=default")]

theorem included_profiles_lost :
    includingLast.LosesIncluded Environment.initial "prod" ∧
      includingDefault.LosesIncluded Environment.initial "default" := by
  refine ⟨?_, ?_⟩
  · exact losesIncluded_of_runWithin _ _ _ 1 (by cbv)
  · exact losesIncluded_of_runWithin _ _ _ 1 (by cbv)

end Assembler
end LayeredConfig

import LayeredConfig.Proofs.Assembly.Frame

namespace LayeredConfig

open Property

/-!
# What is left after an error

An error that is met while files are read leaves the sources exactly as they
were.  Only one error is met later, when the sources are merged already: the
default properties list profiles that cannot be resolved.  It leaves the merged
sources where they are, just above the default properties.
-/

namespace Assembly
namespace Setup

theorem perform_eq_error_iff {setup : Setup} {progress : Progress} {pass : Document.Pass}
    {profile : Option String} {earlier : List String} {failure : Failure} :
    setup.perform progress pass profile earlier = .error failure ↔
      ∃ error, setup.survey pass progress.environment profile earlier = .error error ∧
        failure = ⟨error, progress.environment⟩ := by
  unfold perform
  cases surveyed : setup.survey pass progress.environment profile earlier with
  | error error => simp [eq_comm]
  | ok groups => simp

/-- An error of a pass leaves the sources that the run started with. -/
theorem sources_of_perform_error {setup : Setup} {progress : Progress}
    (consistent : Consistent setup progress) {pass : Document.Pass} {profile : Option String}
    {earlier : List String} {failure : Failure}
    (failed : setup.perform progress pass profile earlier = .error failure) :
    failure.environment.sources = setup.environment.sources := by
  rcases perform_eq_error_iff.mp failed with ⟨error, _, rfl⟩
  exact consistent.sources

theorem sources_of_drain_error {setup : Setup} {progress : Progress}
    (reached : Reached setup progress) {failure : Failure}
    (failed : setup.drain progress = .error failure) :
    failure.environment.sources = setup.environment.sources := by
  fun_induction drain setup progress with
  | case1 progress waiting => cases failed
  | case2 progress profile others waiting raised performed =>
      cases failed
      exact sources_of_perform_error ((consistent_of_reached reached).advance waiting) performed
  | case3 progress profile others waiting later performed _ ih =>
      exact ih (.turn reached waiting performed) failed

/-- Wherever a run fails, it leaves the sources that it started with. -/
theorem sources_of_run_error {setup : Setup} {failure : Failure}
    (failed : setup.run = .error failure) :
    failure.environment.sources = setup.environment.sources := by
  unfold run at failed
  cases queued : setup.queue with
  | error error =>
      simp only [queued, Except.error.injEq] at failed
      rw [← failed]
  | ok queue =>
      simp only [queued] at failed
      cases performed : setup.perform ⟨setup.environment, queue, []⟩ .regular none [] with
      | error raised =>
          simp only [performed, bind, Except.bind, Except.error.injEq] at failed
          exact failed ▸ sources_of_perform_error (consistent_start queued) performed
      | ok first =>
          have reached := Reached.start queued performed
          cases drained : setup.drain first with
          | error raised =>
              simp only [performed, drained, bind, Except.bind, Except.error.injEq] at failed
              exact failed ▸ sources_of_drain_error reached drained
          | ok last =>
              simp only [performed, drained, bind, Except.bind] at failed
              have consistent := consistent_of_reached (reached_of_drain reached drained).1
              exact sources_of_perform_error consistent failed

end Setup

theorem finish_eq_error_iff {progress : Progress} {defaults : Option Source}
    {failure : Failure} :
    finish progress defaults = .error failure ↔
      ∃ error, addedProfiles progress defaults = .error error ∧
        failure = ⟨error, progress.merge⟩ := by
  unfold finish addedProfiles
  cases defaults with
  | none => simp
  | some source =>
      cases asked : defaultProfiles progress.merge progress.queue.settled source with
      | error error => simp [asked, eq_comm]
      | ok added => simp [asked]

end Assembly

namespace Assembler

/-- What an error leaves, with the default properties put back in their place. -/
def putBack (environment left : Environment) : Environment :=
  match environment.sources.find? Keys.defaultProperties with
  | none => left
  | some defaults => Assembly.replaceDefaults left defaults

theorem assemble_eq_error_iff {assembler : Assembler} {environment : Environment}
    {failure : Assembly.Failure} :
    assembler.assemble environment = .error failure ↔
      ∃ raised, assembler.load (reading environment)
          (environment.sources.find? Keys.defaultProperties) = .error raised ∧
        failure = ⟨raised.error, putBack environment raised.environment⟩ := by
  unfold assemble reading putBack
  cases environment.sources.find? Keys.defaultProperties with
  | none =>
      constructor
      · intro failed
        exact ⟨failure, failed, rfl⟩
      · rintro ⟨raised, failed, rfl⟩
        exact failed
  | some defaults =>
      simp only
      constructor
      · intro failed
        split at failed
        · next raised ran =>
            cases failed
            exact ⟨raised, ran, rfl⟩
        · cases failed
      · rintro ⟨raised, failed, rfl⟩
        rw [failed]

theorem assemble_of_run_error {assembler : Assembler} {environment : Environment}
    {raised : Assembly.Failure}
    (failed : (assembler.setup (reading environment)).run = .error raised) :
    assembler.assemble environment =
      .error ⟨raised.error, putBack environment raised.environment⟩ := by
  refine assemble_eq_error_iff.mpr ⟨raised, ?_, rfl⟩
  rw [load, failed]
  rfl

theorem assemble_of_run_refused {assembler : Assembler} {environment : Environment}
    {progress : Assembly.Progress} {error : Error}
    (ran : (assembler.setup (reading environment)).run = .ok progress)
    (asked : Assembly.addedProfiles progress
      (environment.sources.find? Keys.defaultProperties) = .error error) :
    assembler.assemble environment = .error ⟨error, putBack environment progress.merge⟩ := by
  refine assemble_eq_error_iff.mpr ⟨⟨error, progress.merge⟩, ?_, rfl⟩
  rw [load, ran]
  exact Assembly.finish_eq_error_iff.mpr ⟨error, asked, rfl⟩

/-- Putting the default properties back undoes that they were hidden. -/
theorem sources_putBack {environment left : Environment}
    (same : left.sources = (reading environment).sources) :
    (putBack environment left).sources = environment.sources := by
  cases found : environment.sources.find? Keys.defaultProperties with
  | none => rw [putBack, found, same, reading, found]
  | some defaults =>
      rcases Sources.exists_split_of_find found with ⟨named, before, after, split, absent⟩
      have layered := layers_reading split named absent
      have restored : Sources.replaceLayer Keys.defaultProperties defaults
          (reading environment).sources.layers = environment.sources.layers := by
        rw [layered, split]
        exact Sources.replaceLayer_append _ named absent
      rw [putBack, found]
      change Sources.replace left.sources _ _ = _
      rw [same, Sources.replace, restored]

/-- An error of the run leaves the sources as they were.  When the run has ended, the only error
is that of the default properties; it leaves what the run took just above them, and the other
sources in their order but for those of a name that was taken. -/
theorem sources_after_failure {assembler : Assembler} {environment : Environment}
    {failure : Assembly.Failure} (distinct : environment.sources.names.Nodup)
    (failed : assembler.assemble environment = .error failure) :
    (∀ raised, (assembler.setup (reading environment)).run = .error raised →
      failure.error = raised.error ∧ failure.environment.sources = environment.sources) ∧
    ∀ progress, (assembler.setup (reading environment)).run = .ok progress →
      ∃ before defaults after,
        environment.sources.layers = before ++ defaults :: after ∧
        defaults.name = Keys.defaultProperties ∧
        Assembly.defaultProfiles progress.merge progress.queue.settled defaults =
          .error failure.error ∧
        failure.environment.sources.layers =
          Assembly.outside progress.loaded before ++ progress.loaded ++
            defaults :: Assembly.outside progress.loaded after := by
  rcases assemble_eq_error_iff.mp failed with ⟨raised, loaded, rfl⟩
  constructor
  · intro early ran
    rw [load, ran] at loaded
    cases loaded
    exact ⟨rfl, sources_putBack (Assembly.Setup.sources_of_run_error ran)⟩
  · intro progress ran
    rw [load, ran] at loaded
    rcases Assembly.finish_eq_error_iff.mp loaded with ⟨error, asked, rfl⟩
    cases found : environment.sources.find? Keys.defaultProperties with
    | none =>
        rw [found] at asked
        cases asked
    | some defaults =>
        rcases Sources.exists_split_of_find found with ⟨named, before, after, split, absent⟩
        rw [found] at asked
        refine ⟨before, defaults, after, split, named, asked, ?_⟩
        rw [putBack, found]
        exact layers_merged_replaced distinct ran split named absent

/-- The file of a profile has a malformed scope. -/
def withMalformedScope : Assembler :=
  ofFiles [("conf/app.properties", "port=80"),
    ("conf/app-b.properties", "autowire.config.activate.on-profile=!")]

theorem sources_after_failure_malformedScope :
    (surrounded.activate "b").sources.names.Nodup ∧
      ∃ raised failure, (withMalformedScope.setup (reading (surrounded.activate "b"))).run =
          .error raised ∧
        withMalformedScope.assemble (surrounded.activate "b") = .error failure ∧
        failure.error = raised.error ∧
        failure.environment.sources = (surrounded.activate "b").sources := by
  have distinct : (surrounded.activate "b").sources.names.Nodup := by decide
  rcases exists_failure_of_failsWithin withMalformedScope (surrounded.activate "b") 1 (by cbv) with
    ⟨raised, ran⟩
  have failed := assemble_of_run_error ran
  exact ⟨distinct, raised, _, ran, failed, (sources_after_failure distinct failed).1 raised ran⟩

/-- A value in the file refers to itself. -/
def withCycle : Assembler :=
  ofFiles [("conf/app.properties", "a=$\x7ba\x7d")]

/-- The default properties include a profile whose name is the value of a key. -/
def includingValue : Environment :=
  Environment.initial.addLast
    ⟨Keys.defaultProperties, KeyedList.empty.insert Keys.includedProfiles "$\x7ba\x7d"⟩

/-- The file was merged before its value turned out to refer to itself. -/
theorem loaded_left_behind_cycle :
    includingValue.sources.names.Nodup ∧
      ∃ failure, withCycle.assemble includingValue = .error failure ∧
        failure.environment.sources.names =
          [Assembly.Library.sourceName "conf/app.properties", Keys.defaultProperties] ∧
        failure.environment.sources ≠ includingValue.sources := by
  rcases exists_of_ranWithin withCycle includingValue 1 (fun progress =>
    match Assembly.addedProfiles progress
      (includingValue.sources.find? Keys.defaultProperties) with
    | .ok _ => false
    | .error _ => decide ((putBack includingValue progress.merge).sources.names =
        [Assembly.Library.sourceName "conf/app.properties", Keys.defaultProperties]))
    (by cbv) with ⟨progress, ran, held⟩
  split at held
  · cases held
  · next error asked =>
      refine ⟨by decide, _, assemble_of_run_refused ran asked, of_decide_eq_true held, ?_⟩
      intro same
      have names := congrArg Sources.names same
      rw [of_decide_eq_true held] at names
      exact absurd (congrArg List.length names) (by decide)

end Assembler
end LayeredConfig

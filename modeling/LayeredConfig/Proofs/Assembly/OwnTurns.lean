import LayeredConfig.Proofs.Assembly.Activation
import LayeredConfig.Proofs.Assembly.Displacement
import LayeredConfig.Proofs.Assembly.Termination
import LayeredConfig.Proofs.Assembly.UnusedFiles

namespace LayeredConfig
namespace Assembly

open Property

/-!
# The turn of each profile

In a run that succeeds every profile that has begun had one turn.  The profiles
that began before it are those in front of it in the end, everything that it
looked at could be read, and what it took is in the log.
-/

namespace Setup

variable {setup : Setup}

/-! ## The order of turns -/

theorem earlier_collect (progress : Progress) (pass : Document.Pass) (profile : Option String)
    (groups : List (List Document)) :
    (progress.collect pass profile groups).queue.earlier = progress.queue.earlier := by
  rw [Queue.earlier, begun_collect, Queue.earlier]

theorem earlier_advance (progress : Progress) (profile : Profile) (others : List Profile) :
    (progress.advance profile others).queue.earlier = progress.queue.earlier ++ [profile.name] :=
  List.map_append

theorem earlier_prefix_of_drain {progress last : Progress}
    (drained : setup.drain progress = .ok last) :
    progress.queue.earlier <+: last.queue.earlier := by
  fun_induction drain setup progress with
  | case1 progress idle =>
      cases drained
      exact List.prefix_refl _
  | case2 progress profile others waiting failure failed => cases drained
  | case3 progress profile others waiting later performed _ ih =>
      rcases perform_eq_ok_iff.mp performed with ⟨groups, _, rfl⟩
      have kept := ih drained
      rw [earlier_collect, earlier_advance] at kept
      exact (List.prefix_append _ _).trans kept

/-- Whoever has begun at some moment keeps the place to the end of the run. -/
theorem earlier_prefix_of_reached {progress last : Progress} (reached : Reached setup progress)
    (ran : setup.run = .ok last) : progress.queue.earlier <+: last.queue.earlier := by
  rw [run_of_reached reached] at ran
  cases drained : setup.drain progress with
  | error failure =>
      rw [drained] at ran
      cases ran
  | ok between =>
      rw [drained] at ran
      rcases perform_eq_ok_iff.mp ran with ⟨groups, _, rfl⟩
      rw [earlier_collect]
      exact earlier_prefix_of_drain drained

theorem nodup_earlier_of_run {progress : Progress} (ran : setup.run = .ok progress) :
    progress.queue.earlier.Nodup := by
  rcases exists_of_run ran with ⟨last, reached, _, performed⟩
  rcases perform_eq_ok_iff.mp performed with ⟨groups, _, rfl⟩
  rw [earlier_collect]
  exact (distinct_of_reached reached).nodup_earlier

/-! ## Runs without defaults -/

/-- Where the environment asks for a profile, no default waits or has its turn. -/
theorem Consistent.plain {progress : Progress} (consistent : Consistent setup progress)
    {name : String} (asks : setup.Requests name) :
    ∀ profile ∈ progress.queue.waiting ++ progress.queue.begun, profile.isDefault = false := by
  intro profile member
  rcases Bool.eq_false_or_eq_true profile.isDefault with default | requested
  · exact absurd asks ((consistent.fallback profile member default).2 name)
  · exact requested

/-- Every profile that has begun was requested then. -/
theorem requested_eq_earlier {progress : Progress} (consistent : Consistent setup progress)
    {name : String} (asks : setup.Requests name) :
    requested progress.queue = progress.queue.earlier := by
  have all : progress.queue.begun.filter (fun profile => !profile.isDefault) =
      progress.queue.begun := by
    rw [List.filter_eq_self]
    intro profile begun
    rw [consistent.plain asks profile (List.mem_append_right _ begun)]
    rfl
  rw [requested, all, Queue.earlier]

/-- What a document of a regular pass includes has its turn. -/
theorem requested_of_mem_log {progress : Progress} (ran : setup.run = .ok progress)
    {name : String} (asks : setup.Requests name) {taken : Taken} (member : taken ∈ progress.log)
    (regular : taken.pass = .regular) :
    taken.document.included ⊆ requested progress.queue := by
  intro other included
  rcases exists_runs_of_run ran with ⟨visits, runs⟩
  rcases List.append_of_mem ((log_perm_noted runs).subset member) with ⟨sooner, later, split⟩
  rcases requested_of_included runs split regular included with turn | ⟨fallback, _⟩
  · exact turn
  · exact absurd asks (fallback.unasked name)

/-! ## One turn -/

/-- The profile had a turn in an environment, after those of the others.  The pass could read what
it looked at, and what it took is in the log. -/
structure Turned (setup : Setup) (progress : Progress) (profile : Profile) (before : List String)
    (environment : Environment) : Prop where
  place : ∃ after, progress.queue.earlier = before ++ profile.name :: after
  active : profile.isDefault = false → profile.name ∈ environment.active
  reads : ∀ probe, .ok probe ∈ setup.search.probes setup.loaders setup.environment
    (some profile.name) before → ∃ documents, setup.library.documents probe = .ok documents
  takes : ∀ probe document,
    setup.Finds .regular environment (some profile.name) before probe document →
      ⟨.regular, some profile.name, document⟩ ∈ progress.log

theorem Turned.collect {progress : Progress} {profile : Profile} {before : List String}
    {environment : Environment} (turned : Turned setup progress profile before environment)
    (pass : Document.Pass) (own : Option String) (groups : List (List Document)) :
    Turned setup (progress.collect pass own groups) profile before environment where
  place := by
    rw [earlier_collect]
    exact turned.place
  active := turned.active
  reads := turned.reads
  takes := fun probe document found =>
    (mem_log_collect _ _ _ _ _).mpr (.inl (turned.takes probe document found))

theorem Turned.advance {progress : Progress} {profile : Profile} {before : List String}
    {environment : Environment} (turned : Turned setup progress profile before environment)
    (next : Profile) (others : List Profile) :
    Turned setup (progress.advance next others) profile before environment where
  place := by
    rcases turned.place with ⟨after, place⟩
    exact ⟨after ++ [next.name], by rw [earlier_advance, place, List.append_assoc]; rfl⟩
  active := turned.active
  reads := turned.reads
  takes := turned.takes

/-- The turn that has just been taken. -/
theorem turned_of_survey {progress : Progress} {profile : Profile} {others : List Profile}
    {groups : List (List Document)}
    (surveyed : setup.survey .regular (progress.advance profile others).environment
      (some profile.name) progress.queue.earlier = .ok groups) :
    Turned setup ((progress.advance profile others).collect .regular (some profile.name) groups)
      profile progress.queue.earlier (progress.advance profile others).environment where
  place := ⟨[], by rw [earlier_collect, earlier_advance]⟩
  active := by
    intro requested
    rw [Progress.advance, requested]
    exact Names.mem_add.mpr (.inr rfl)
  reads := by
    intro probe listed
    rcases Traversal.exists_mem_of_mapM surveyed listed with ⟨group, _, examined⟩
    rcases examine_eq_ok_iff.mp examined with ⟨same, documents, equal, read, _⟩
    cases equal
    exact ⟨documents, read⟩
  takes := fun probe document found => (mem_log_collect _ _ _ _ _).mpr
    (.inr ⟨document, (mem_survey_iff surveyed document).mpr ⟨probe, found⟩, rfl⟩)

theorem exists_turned_of_reached {progress : Progress} (reached : Reached setup progress)
    {profile : Profile} (begun : profile ∈ progress.queue.begun) :
    ∃ before environment, Turned setup progress profile before environment := by
  induction reached with
  | start queued performed =>
      rcases perform_eq_ok_iff.mp performed with ⟨groups, _, rfl⟩
      rcases queue_eq_ok_iff.mp queued with ⟨activated, included, _, _, rfl⟩
      rw [begun_collect, Queue.begun_start] at begun
      cases begun
  | turn _ _ performed ih =>
      rcases perform_eq_ok_iff.mp performed with ⟨groups, surveyed, rfl⟩
      rw [begun_collect] at begun
      rcases List.mem_append.mp begun with sooner | own
      · rcases ih sooner with ⟨before, environment, turned⟩
        exact ⟨before, environment, (turned.advance _ _).collect _ _ _⟩
      · cases List.mem_singleton.mp own
        exact ⟨_, _, turned_of_survey surveyed⟩

/-- Whatever has begun in a run that succeeds had its turn. -/
theorem exists_turned_of_run {progress : Progress} (ran : setup.run = .ok progress)
    {profile : Profile} (begun : profile ∈ progress.queue.begun) :
    ∃ before environment, Turned setup progress profile before environment := by
  rcases exists_of_run ran with ⟨last, reached, _, performed⟩
  rcases perform_eq_ok_iff.mp performed with ⟨groups, _, rfl⟩
  rw [begun_collect] at begun
  rcases exists_turned_of_reached reached begun with ⟨before, environment, turned⟩
  exact ⟨before, environment, turned.collect _ _ _⟩

end Setup
end Assembly
end LayeredConfig

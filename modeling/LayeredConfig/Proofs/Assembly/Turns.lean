import LayeredConfig.Assembly
import LayeredConfig.Proofs.Assembly.Queueing
import LayeredConfig.Proofs.Traversal

namespace LayeredConfig
namespace Assembly

/-!
# A run, turn by turn

A run is a first pass, one turn for each profile that waits, and a last pass.
What a turn keeps is proved once and holds then of every progress that the run
reaches: the sources stay as they were, the active profiles are those at the
start and the requested ones whose turn has come, and each document in the log
was found by a probe of the first pass or of the turn of some profile.
-/

namespace Setup

/-! ## What a pass finds -/

/-- A pass in `environment` reads the document by the probe and takes it. -/
structure Finds (setup : Setup) (pass : Document.Pass) (environment : Environment)
    (profile : Option String) (earlier : List String) (probe : Probe) (document : Document) :
    Prop where
  probed : .ok probe ∈ setup.search.probes setup.loaders setup.environment profile earlier
  read : ∃ documents, setup.library.documents probe = .ok documents ∧ document ∈ documents
  taken : document.isTaken pass probe.scope environment = true

theorem examine_eq_ok_iff {setup : Setup} {pass : Document.Pass} {environment : Environment}
    {step : Except Error Probe} {group : List Document} :
    setup.examine pass environment step = .ok group ↔
      ∃ probe documents, step = .ok probe ∧ setup.library.documents probe = .ok documents ∧
        group = documents.filter fun document => document.isTaken pass probe.scope environment := by
  constructor
  · intro examined
    cases step with
    | error error => simp [examine, Except.bind] at examined
    | ok probe =>
        cases read : setup.library.documents probe with
        | error error => simp [examine, Except.bind, Except.map, read] at examined
        | ok documents =>
            simp only [examine, Except.bind, Except.map, read, Except.ok.injEq] at examined
            exact ⟨probe, documents, rfl, read, examined.symm⟩
  · rintro ⟨probe, documents, rfl, read, rfl⟩
    simp only [examine, Except.bind, Except.map, read]

/-- A survey that succeeds holds exactly what the pass finds. -/
theorem mem_survey_iff {setup : Setup} {pass : Document.Pass} {environment : Environment}
    {profile : Option String} {earlier : List String} {groups : List (List Document)}
    (surveyed : setup.survey pass environment profile earlier = .ok groups)
    (document : Document) :
    document ∈ groups.flatten ↔
      ∃ probe, setup.Finds pass environment profile earlier probe document := by
  constructor
  · intro member
    rcases List.mem_flatten.mp member with ⟨group, inside, present⟩
    rcases Traversal.exists_of_mem_mapM surveyed inside with ⟨step, listed, examined⟩
    rcases examine_eq_ok_iff.mp examined with ⟨probe, documents, rfl, read, rfl⟩
    have kept := List.mem_filter.mp present
    exact ⟨probe, listed, ⟨documents, read, kept.1⟩, kept.2⟩
  · rintro ⟨probe, probed, ⟨documents, read, inside⟩, taken⟩
    rcases Traversal.exists_mem_of_mapM surveyed probed with ⟨group, present, examined⟩
    rcases examine_eq_ok_iff.mp examined with ⟨same, others, first, second, rfl⟩
    cases first
    rw [read] at second
    cases second
    exact List.mem_flatten.mpr ⟨_, present, List.mem_filter.mpr ⟨inside, taken⟩⟩

theorem perform_eq_ok_iff {setup : Setup} {progress later : Progress} {pass : Document.Pass}
    {profile : Option String} {earlier : List String} :
    setup.perform progress pass profile earlier = .ok later ↔
      ∃ groups, setup.survey pass progress.environment profile earlier = .ok groups ∧
        later = progress.collect pass profile groups := by
  unfold perform
  cases surveyed : setup.survey pass progress.environment profile earlier with
  | error error => simp
  | ok groups => simp [eq_comm]

theorem mem_log_collect (progress : Progress) (pass : Document.Pass) (profile : Option String)
    (groups : List (List Document)) (taken : Taken) :
    taken ∈ (progress.collect pass profile groups).log ↔
      taken ∈ progress.log ∨ ∃ document ∈ groups.flatten, taken = ⟨pass, profile, document⟩ := by
  simp only [Progress.collect, List.mem_append, List.mem_flatMap, List.mem_map, List.mem_reverse,
    List.mem_flatten]
  constructor
  · rintro (before | ⟨group, inside, document, present, rfl⟩)
    · exact Or.inl before
    · exact Or.inr ⟨document, ⟨group, inside, present⟩, rfl⟩
  · rintro (before | ⟨document, ⟨group, inside, present⟩, rfl⟩)
    · exact Or.inl before
    · exact Or.inr ⟨group, inside, document, present, rfl⟩

/-! ## What a run reaches -/

/-- What a run reaches between its first and its last pass. -/
inductive Reached (setup : Setup) : Progress → Prop where
  | start {queue : Queue} {first : Progress} (queued : setup.queue = .ok queue)
      (performed : setup.perform ⟨setup.environment, queue, []⟩ .regular none [] = .ok first) :
      Reached setup first
  | turn {progress later : Progress} {profile : Profile} {others : List Profile}
      (reached : Reached setup progress) (waiting : progress.queue.waiting = profile :: others)
      (performed : setup.perform (progress.advance profile others) .regular (some profile.name)
        progress.queue.earlier = .ok later) : Reached setup later

theorem reached_of_drain {setup : Setup} {progress last : Progress}
    (reached : Reached setup progress) (drained : setup.drain progress = .ok last) :
    Reached setup last ∧ last.queue.waiting = [] := by
  fun_induction drain setup progress with
  | case1 progress waiting =>
      cases drained
      exact ⟨reached, waiting⟩
  | case2 progress profile others waiting failure failed => cases drained
  | case3 progress profile others waiting later performed _ ih =>
      exact ih (.turn reached waiting performed) drained

/-- A run ends with a last pass over what it has reached, when no profile waits. -/
theorem exists_of_run {setup : Setup} {progress : Progress} (ran : setup.run = .ok progress) :
    ∃ last, Reached setup last ∧ last.queue.waiting = [] ∧
      setup.perform last .leftover none [] = .ok progress := by
  unfold run at ran
  cases queued : setup.queue with
  | error error => simp [queued] at ran
  | ok queue =>
      simp only [queued] at ran
      cases performed : setup.perform ⟨setup.environment, queue, []⟩ .regular none [] with
      | error failure => simp [performed, bind, Except.bind] at ran
      | ok first =>
          cases drained : setup.drain first with
          | error failure => simp [performed, drained, bind, Except.bind] at ran
          | ok last =>
              simp only [performed, drained, bind, Except.bind] at ran
              rcases reached_of_drain (.start queued performed) drained with ⟨reached, idle⟩
              exact ⟨last, reached, idle, ran⟩

theorem queue_eq_ok_iff {setup : Setup} {queue : Queue} :
    setup.queue = .ok queue ↔
      ∃ activated included,
        setup.environment.resolveList Property.Keys.activeProfiles = .ok activated ∧
        setup.environment.resolveList Property.Keys.includedProfiles = .ok included ∧
        queue = Queue.start setup.environment activated included := by
  unfold Setup.queue
  cases first : setup.environment.resolveList Property.Keys.activeProfiles with
  | error error => simp [bind, Except.bind]
  | ok activated =>
      cases second : setup.environment.resolveList Property.Keys.includedProfiles with
      | error error => simp [bind, Except.bind]
      | ok included => simp [bind, Except.bind, pure, Except.pure, eq_comm]

/-- The environment of a run asks for the profile, before any file is read. -/
inductive Requests (setup : Setup) (name : String) : Prop where
  | active (member : name ∈ setup.environment.active)
  | activated {names : List String}
      (listed : setup.environment.resolveList Property.Keys.activeProfiles = .ok names)
      (member : name ∈ names)
  | included {names : List String}
      (listed : setup.environment.resolveList Property.Keys.includedProfiles = .ok names)
      (member : name ∈ names)

theorem requests_iff {setup : Setup} {activated included : List String}
    (first : setup.environment.resolveList Property.Keys.activeProfiles = .ok activated)
    (second : setup.environment.resolveList Property.Keys.includedProfiles = .ok included)
    (name : String) :
    setup.Requests name ↔
      name ∈ setup.environment.active ∨ name ∈ activated ∨ name ∈ included := by
  constructor
  · rintro (active | ⟨listed, member⟩ | ⟨listed, member⟩)
    · exact Or.inl active
    · rw [first, Except.ok.injEq] at listed
      exact Or.inr (Or.inl (listed ▸ member))
    · rw [second, Except.ok.injEq] at listed
      exact Or.inr (Or.inr (listed ▸ member))
  · rintro (active | member | member)
    · exact .active active
    · exact .activated first member
    · exact .included second member

/-! ## What holds of whatever a run reaches -/

/-- What every pass and every turn keep. -/
structure Consistent (setup : Setup) (progress : Progress) : Prop where
  sources : progress.environment.sources = setup.environment.sources
  defaults : progress.environment.defaults = setup.environment.defaults
  /-- The active profiles are those at the start and the requested ones that had their turn. -/
  active : ∀ name, name ∈ progress.environment.active ↔
    name ∈ setup.environment.active ∨ name ∈ requested progress.queue
  asked : ∀ name, setup.Requests name → progress.queue.Asked name
  sorted : progress.queue.DefaultsFirst
  /-- Defaults wait only while no profile is active. -/
  idle : ∀ profile ∈ progress.queue.waiting, profile.isDefault = true →
    progress.environment.active = []
  /-- Defaults come from an environment that asks for no profile. -/
  fallback : ∀ profile ∈ progress.queue.waiting ++ progress.queue.begun,
    profile.isDefault = true →
      profile.name ∈ setup.environment.defaults ∧ ∀ name, ¬ setup.Requests name

theorem mem_requested_iff (queue : Queue) (name : String) :
    name ∈ requested queue ↔
      ∃ profile ∈ queue.begun, profile.isDefault = false ∧ profile.name = name := by
  simp only [requested, List.mem_map, List.mem_filter, Bool.not_eq_eq_eq_not, Bool.not_true,
    and_assoc]

theorem mem_requested_advance (queue : Queue) (profile : Profile) (others : List Profile)
    (name : String) :
    name ∈ requested (queue.advance profile others) ↔
      name ∈ requested queue ∨ profile.isDefault = false ∧ profile.name = name := by
  simp only [mem_requested_iff, Queue.advance, List.mem_append, List.mem_singleton, or_and_right,
    exists_or, exists_eq_left]

theorem consistent_start {setup : Setup} {queue : Queue} (queued : setup.queue = .ok queue) :
    Consistent setup ⟨setup.environment, queue, []⟩ := by
  rcases queue_eq_ok_iff.mp queued with ⟨activated, included, first, second, rfl⟩
  have requests := requests_iff first second
  constructor
  · rfl
  · rfl
  · intro name
    simp [requested, Queue.begun_start]
  · intro name asks
    exact Queue.asked_start ((requests name).mp asks)
  · exact Queue.defaultsFirst_start _ _ _
  · intro profile waiting default
    apply List.eq_nil_iff_forall_not_mem.mpr
    intro name active
    exact (Queue.fallback_of_start waiting default).2 name (Or.inl active)
  · intro profile member default
    rcases List.mem_append.mp member with waiting | begun
    · rcases Queue.fallback_of_start waiting default with ⟨listed, nobody⟩
      exact ⟨listed, fun name asks => nobody name ((requests name).mp asks)⟩
    · simp only [Queue.begun_start] at begun
      cases begun

theorem Consistent.collect {setup : Setup} {progress : Progress}
    (consistent : Consistent setup progress) (pass : Document.Pass) (profile : Option String)
    (groups : List (List Document)) :
    Consistent setup (progress.collect pass profile groups) := by
  have grows := Queue.grows_noteAll progress.queue groups.flatten
  constructor
  · exact consistent.sources
  · exact consistent.defaults
  · intro name
    rw [mem_requested_iff]
    simp only [Progress.collect, grows.begun]
    rw [← mem_requested_iff]
    exact consistent.active name
  · intro name asks
    exact (consistent.asked name asks).grows grows
  · exact grows.sorted consistent.sorted
  · intro other waiting default
    have before := grows.defaults other waiting default
    exact consistent.idle other before default
  · intro other member default
    apply consistent.fallback other _ default
    rcases List.mem_append.mp member with waiting | begun
    · have before := grows.defaults other waiting default
      exact List.mem_append_left _ before
    · exact List.mem_append_right _ (grows.begun ▸ begun)

/-- A requested profile becomes active in its turn, and no default waits behind it. -/
theorem Consistent.advance {setup : Setup} {progress : Progress}
    (consistent : Consistent setup progress) {profile : Profile} {others : List Profile}
    (waiting : progress.queue.waiting = profile :: others) :
    Consistent setup (progress.advance profile others) := by
  have sorted := consistent.sorted
  rw [Queue.DefaultsFirst, waiting, List.pairwise_cons] at sorted
  constructor
  · unfold Progress.advance
    split <;> exact consistent.sources
  · unfold Progress.advance
    split <;> exact consistent.defaults
  · intro name
    have before := consistent.active name
    simp only [Progress.advance, mem_requested_advance]
    by_cases default : profile.isDefault = true
    · rw [if_pos default, before, default]
      simp
    · rw [if_neg default, Environment.activate, Names.mem_add, before,
        Bool.eq_false_iff.mpr default, or_assoc]
      simp [eq_comm]
  · intro name asks
    exact (consistent.asked name asks).advance waiting
  · exact sorted.2
  · intro other inside default
    have firstDefault := sorted.1 other inside default
    simp only [Progress.advance, firstDefault, if_true]
    exact consistent.idle profile (by rw [waiting]; exact List.mem_cons_self) firstDefault
  · intro other member default
    apply consistent.fallback other _ default
    rw [waiting]
    simp only [Progress.advance, Queue.advance, List.mem_append, List.mem_cons, List.not_mem_nil,
      or_false] at member ⊢
    rcases member with tail | begun | head
    · exact Or.inl (Or.inr tail)
    · exact Or.inr begun
    · exact Or.inl (Or.inl head)

theorem consistent_of_reached {setup : Setup} {progress : Progress}
    (reached : Reached setup progress) : Consistent setup progress := by
  induction reached with
  | start queued performed =>
      rcases perform_eq_ok_iff.mp performed with ⟨groups, _, rfl⟩
      exact (consistent_start queued).collect _ _ _
  | turn _ waiting performed ih =>
      rcases perform_eq_ok_iff.mp performed with ⟨groups, _, rfl⟩
      exact (ih.advance waiting).collect _ _ _

theorem consistent_of_run {setup : Setup} {progress : Progress}
    (ran : setup.run = .ok progress) : Consistent setup progress := by
  rcases exists_of_run ran with ⟨last, reached, _, performed⟩
  rcases perform_eq_ok_iff.mp performed with ⟨groups, _, rfl⟩
  exact (consistent_of_reached reached).collect _ _ _

/-- Every profile that the environment asks for has its turn. -/
theorem requested_of_requests {setup : Setup} {progress : Progress}
    (ran : setup.run = .ok progress) {name : String} (asks : setup.Requests name) :
    name ∈ requested progress.queue := by
  rcases exists_of_run ran with ⟨last, reached, nobody, performed⟩
  rcases perform_eq_ok_iff.mp performed with ⟨groups, _, rfl⟩
  have begun := (Queue.grows_noteAll last.queue groups.flatten).begun
  rcases (consistent_of_reached reached).asked name asks with ⟨profile, member, requested, named⟩
  rw [nobody] at member
  rw [mem_requested_iff]
  simp only [Progress.collect, begun]
  exact ⟨profile, member, requested, named⟩

/-- After a run the active profiles are exactly the requested ones, each of which had its
turn. -/
theorem active_of_run {setup : Setup} {progress : Progress} (ran : setup.run = .ok progress)
    (name : String) :
    name ∈ progress.environment.active ↔ name ∈ requested progress.queue := by
  rw [(consistent_of_run ran).active name, or_iff_right_iff_imp]
  exact fun active => requested_of_requests ran (.active active)

end Setup
end Assembly
end LayeredConfig

import LayeredConfig.Proofs.Assembly.Turns

namespace LayeredConfig
namespace Assembly
namespace Setup

/-!
# Where the documents of a run come from

Every document in the log of a run was found by a probe: of the first pass, of
the turn of a profile, or of the last pass.  In the turn of a default profile
no profile was active.  Conversely the log holds all that the first and the
last pass find.
-/

/-- How a document came into the log before the last pass. -/
inductive Brought (setup : Setup) (progress : Progress) : Taken → Probe → Prop where
  | first {probe : Probe} {document : Document}
      (found : setup.Finds .regular setup.environment none [] probe document) :
      Brought setup progress ⟨.regular, none, document⟩ probe
  | turn {profile : Profile} {environment : Environment} {earlier : List String} {probe : Probe}
      {document : Document} (begun : profile ∈ progress.queue.begun)
      (defaults : environment.defaults = setup.environment.defaults)
      (fewer : environment.active ⊆ progress.environment.active)
      (idle : profile.isDefault = true → environment.active = [])
      (before : earlier ⊆ progress.queue.earlier)
      (found : setup.Finds .regular environment (some profile.name) earlier probe document) :
      Brought setup progress ⟨.regular, some profile.name, document⟩ probe

theorem Brought.mono {setup : Setup} {progress later : Progress} {taken : Taken} {probe : Probe}
    (brought : Brought setup progress taken probe)
    (kept : progress.queue.begun ⊆ later.queue.begun)
    (more : progress.environment.active ⊆ later.environment.active) :
    Brought setup later taken probe := by
  cases brought with
  | first found => exact .first found
  | turn begun defaults fewer idle before found =>
      refine .turn (kept begun) defaults (List.Subset.trans fewer more) idle ?_ found
      intro name member
      exact List.map_subset Profile.name kept (before member)

/-- Entering what a pass takes leaves the turns as they are. -/
theorem begun_collect (progress : Progress) (pass : Document.Pass) (profile : Option String)
    (groups : List (List Document)) :
    (progress.collect pass profile groups).queue.begun = progress.queue.begun :=
  (Queue.grows_noteAll progress.queue groups.flatten).begun

theorem active_subset_advance (progress : Progress) (profile : Profile)
    (others : List Profile) :
    progress.environment.active ⊆ (progress.advance profile others).environment.active := by
  intro name active
  unfold Progress.advance
  split
  · exact active
  · exact Names.mem_add.mpr (Or.inl active)

theorem brought_of_reached {setup : Setup} {progress : Progress}
    (reached : Reached setup progress) {taken : Taken} (member : taken ∈ progress.log) :
    ∃ probe, Brought setup progress taken probe := by
  induction reached with
  | start _ performed =>
      rcases perform_eq_ok_iff.mp performed with ⟨groups, surveyed, rfl⟩
      rcases (mem_log_collect _ _ _ _ _).mp member with before | ⟨document, inside, rfl⟩
      · cases before
      · rcases (mem_survey_iff surveyed document).mp inside with ⟨probe, found⟩
        exact ⟨probe, .first found⟩
  | @turn progress _ profile others reached waiting performed ih =>
      rcases perform_eq_ok_iff.mp performed with ⟨groups, surveyed, rfl⟩
      have begun := begun_collect (progress.advance profile others) .regular
        (some profile.name) groups
      have grown : progress.queue.begun ⊆ (progress.advance profile others).queue.begun :=
        List.subset_append_left _ _
      rcases (mem_log_collect _ _ _ _ _).mp member with before | ⟨document, inside, rfl⟩
      · rcases ih before with ⟨probe, brought⟩
        have more := active_subset_advance progress profile others
        exact ⟨probe, brought.mono (begun.symm ▸ grown) more⟩
      · rcases (mem_survey_iff surveyed document).mp inside with ⟨probe, found⟩
        have consistent := consistent_of_reached reached
        refine ⟨probe, .turn (begun.symm ▸ ?_) (consistent.advance waiting).defaults
          (List.Subset.refl _) ?_ ?_ found⟩
        · exact List.mem_append_right _ (List.mem_singleton.mpr rfl)
        · intro default
          simp only [Progress.advance, default, if_true]
          exact consistent.idle profile (by rw [waiting]; exact List.mem_cons_self) default
        · rw [Queue.earlier, Queue.earlier, begun]
          exact List.map_subset Profile.name grown

/-- Every document in the log was brought in before the last pass or found by it. -/
theorem exists_probe_of_run {setup : Setup} {progress : Progress}
    (ran : setup.run = .ok progress) {taken : Taken} (member : taken ∈ progress.log) :
    ∃ probe, Brought setup progress taken probe ∨
      taken.pass = .leftover ∧
        setup.Finds .leftover progress.environment none [] probe taken.document := by
  rcases exists_of_run ran with ⟨last, reached, _, performed⟩
  rcases perform_eq_ok_iff.mp performed with ⟨groups, surveyed, rfl⟩
  rcases (mem_log_collect _ _ _ _ _).mp member with before | ⟨document, inside, rfl⟩
  · rcases brought_of_reached reached before with ⟨probe, brought⟩
    refine ⟨probe, Or.inl (brought.mono ?_ (List.Subset.refl _))⟩
    rw [begun_collect]
    exact List.Subset.refl _
  · rcases (mem_survey_iff surveyed document).mp inside with ⟨probe, found⟩
    exact ⟨probe, Or.inr ⟨rfl, found⟩⟩

/-- What is in the log was found by some pass of the run. -/
theorem exists_finds_of_run {setup : Setup} {progress : Progress}
    (ran : setup.run = .ok progress) {taken : Taken} (member : taken ∈ progress.log) :
    ∃ pass environment profile earlier probe,
      setup.Finds pass environment profile earlier probe taken.document := by
  rcases exists_probe_of_run ran member with ⟨probe, brought | ⟨_, found⟩⟩
  · cases brought with
    | first found => exact ⟨_, _, _, _, probe, found⟩
    | turn _ _ _ _ _ found => exact ⟨_, _, _, _, probe, found⟩
  · exact ⟨_, _, _, _, probe, found⟩

/-! ## What a run does not miss -/

theorem mem_log_of_reached {setup : Setup} {progress : Progress}
    (reached : Reached setup progress) {probe : Probe} {document : Document}
    (found : setup.Finds .regular setup.environment none [] probe document) :
    ⟨.regular, none, document⟩ ∈ progress.log := by
  induction reached with
  | start _ performed =>
      rcases perform_eq_ok_iff.mp performed with ⟨groups, surveyed, rfl⟩
      have inside := (mem_survey_iff surveyed document).mpr ⟨probe, found⟩
      exact (mem_log_collect _ _ _ _ _).mpr (Or.inr ⟨document, inside, rfl⟩)
  | turn _ _ performed ih =>
      rcases perform_eq_ok_iff.mp performed with ⟨groups, _, rfl⟩
      exact (mem_log_collect _ _ _ _ _).mpr (Or.inl ih)

theorem mem_log_of_first {setup : Setup} {progress : Progress} (ran : setup.run = .ok progress)
    {probe : Probe} {document : Document}
    (found : setup.Finds .regular setup.environment none [] probe document) :
    ⟨.regular, none, document⟩ ∈ progress.log := by
  rcases exists_of_run ran with ⟨last, reached, _, performed⟩
  rcases perform_eq_ok_iff.mp performed with ⟨groups, _, rfl⟩
  exact (mem_log_collect _ _ _ _ _).mpr (Or.inl (mem_log_of_reached reached found))

theorem mem_log_of_last {setup : Setup} {progress : Progress} (ran : setup.run = .ok progress)
    {probe : Probe} {document : Document}
    (found : setup.Finds .leftover progress.environment none [] probe document) :
    ⟨.leftover, none, document⟩ ∈ progress.log := by
  rcases exists_of_run ran with ⟨last, _, _, performed⟩
  rcases perform_eq_ok_iff.mp performed with ⟨groups, surveyed, rfl⟩
  have inside := (mem_survey_iff surveyed document).mpr ⟨probe, found⟩
  exact (mem_log_collect _ _ _ _ _).mpr (Or.inr ⟨document, inside, rfl⟩)

/-- A run that succeeds has read whatever the passes for no profile probe. -/
theorem read_of_run {setup : Setup} {progress : Progress} (ran : setup.run = .ok progress)
    {step : Except Error Probe}
    (listed : step ∈ setup.search.probes setup.loaders setup.environment none []) :
    ∃ probe documents, step = .ok probe ∧ setup.library.documents probe = .ok documents := by
  rcases exists_of_run ran with ⟨last, _, _, performed⟩
  rcases perform_eq_ok_iff.mp performed with ⟨groups, surveyed, _⟩
  rcases Traversal.exists_mem_of_mapM surveyed listed with ⟨group, _, examined⟩
  rcases examine_eq_ok_iff.mp examined with ⟨probe, documents, same, read, _⟩
  exact ⟨probe, documents, same, read⟩

end Setup
end Assembly
end LayeredConfig

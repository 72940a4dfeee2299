import LayeredConfig.Proofs.Assembly.Provenance
import Mathlib.Data.List.Perm.Basic

namespace LayeredConfig
namespace Assembly

/-!
# The passes of a run

A run is told by its passes, each with the documents that it takes.  What the
documents say about profiles is noted in the order in which they stand in a
resource, while the log has the later ones first.  At the moment when a document
is noted, nothing is settled exactly when neither the environment nor a sooner
document lists profiles to activate.  Whatever the queue asks for after a pass
other than the last one has its turn in the end.
-/

/-- A pass with the documents that it takes, resource by resource. -/
structure Visit where
  pass : Document.Pass
  profile : Option String
  groups : List (List Document)

namespace Visit

/-- What the pass takes, in the order in which it is noted. -/
def noted (visit : Visit) : List Taken :=
  visit.groups.flatten.map (Taken.mk visit.pass visit.profile)

/-- What the pass takes, in the order of the log. -/
def entered (visit : Visit) : List Taken :=
  visit.groups.flatMap fun group => group.reverse.map (Taken.mk visit.pass visit.profile)

theorem entered_perm_noted (visit : Visit) : visit.entered.Perm visit.noted := by
  rw [entered, noted, List.map_flatten, ← List.flatMap_def]
  apply List.Perm.flatMap_left
  intro group _
  exact (List.reverse_perm group).map _

theorem pass_of_mem_entered {visit : Visit} {taken : Taken} (member : taken ∈ visit.entered) :
    taken.pass = visit.pass ∧ taken.profile = visit.profile := by
  rcases List.mem_flatMap.mp member with ⟨group, _, inside⟩
  rcases List.mem_map.mp inside with ⟨document, _, rfl⟩
  exact ⟨rfl, rfl⟩

end Visit

/-- What the passes take, in the order in which it is noted. -/
def noted (visits : List Visit) : List Taken :=
  visits.flatMap Visit.noted

theorem noted_concat (visits : List Visit) (visit : Visit) :
    noted (visits ++ [visit]) = noted visits ++ visit.noted := by
  simp only [noted, List.flatMap_append, List.flatMap_cons, List.flatMap_nil, List.append_nil]

/-- A document that was noted belongs to the passes but the last, or to that one. -/
theorem split_concat {visits : List Visit} {visit : Visit} {sooner later : List Taken}
    {taken : Taken} (split : noted (visits ++ [visit]) = sooner ++ taken :: later) :
    (∃ rest, noted visits = sooner ++ taken :: rest) ∨
      ∃ own, sooner = noted visits ++ own ∧ visit.noted = own ++ taken :: later := by
  rw [noted_concat] at split
  rcases List.append_eq_append_iff.mp split with ⟨own, before, inside⟩ | ⟨own, before, inside⟩
  · exact Or.inr ⟨own, before, inside⟩
  · cases own with
    | nil => exact Or.inr ⟨[], by simpa using before.symm, by simpa using inside.symm⟩
    | cons head rest =>
        rw [List.cons_append, List.cons.injEq] at inside
        exact Or.inl ⟨rest, inside.1 ▸ before⟩

namespace Queue

/-- What every step after a moment keeps. -/
structure Evolves (queue later : Queue) : Prop where
  begun : queue.begun ⊆ later.begun
  asked : ∀ name, queue.Asked name → later.Asked name

theorem Evolves.trans {first second third : Queue} (sooner : Evolves first second)
    (later : Evolves second third) : Evolves first third where
  begun := List.Subset.trans sooner.begun later.begun
  asked := fun name asked => later.asked name (sooner.asked name asked)

theorem Grows.evolves {queue later : Queue} (grows : Grows queue later) : Evolves queue later where
  begun := fun _ member => grows.begun ▸ member
  asked := fun _ asked => asked.grows grows

theorem evolves_advance {queue : Queue} {profile : Profile} {others : List Profile}
    (waiting : queue.waiting = profile :: others) :
    Evolves queue (queue.advance profile others) where
  begun := List.subset_append_left _ _
  asked := fun _ asked => asked.advance waiting

end Queue

namespace Setup

/-! ## Which passes there are -/

/-- The passes of a run so far, before the last one, and how far they bring it. -/
inductive Passes (setup : Setup) : List Visit → Progress → Prop where
  | start {queue : Queue} {groups : List (List Document)} (queued : setup.queue = .ok queue)
      (surveyed : setup.survey .regular setup.environment none [] = .ok groups) :
      Passes setup [⟨.regular, none, groups⟩]
        (Progress.collect ⟨setup.environment, queue, []⟩ .regular none groups)
  | turn {visits : List Visit} {progress : Progress} {profile : Profile} {others : List Profile}
      {groups : List (List Document)} (passes : Passes setup visits progress)
      (waiting : progress.queue.waiting = profile :: others)
      (surveyed : setup.survey .regular (progress.advance profile others).environment
        (some profile.name) progress.queue.earlier = .ok groups) :
      Passes setup (visits ++ [⟨.regular, some profile.name, groups⟩])
        ((progress.advance profile others).collect .regular (some profile.name) groups)

/-- The passes of a whole run and where they bring it. -/
inductive Runs (setup : Setup) : List Visit → Progress → Prop where
  | last {visits : List Visit} {progress : Progress} {groups : List (List Document)}
      (passes : Passes setup visits progress) (idle : progress.queue.waiting = [])
      (surveyed : setup.survey .leftover progress.environment none [] = .ok groups) :
      Runs setup (visits ++ [⟨.leftover, none, groups⟩])
        (progress.collect .leftover none groups)

theorem exists_passes_of_reached {setup : Setup} {progress : Progress}
    (reached : Reached setup progress) : ∃ visits, Passes setup visits progress := by
  induction reached with
  | start queued performed =>
      rcases perform_eq_ok_iff.mp performed with ⟨groups, surveyed, rfl⟩
      exact ⟨_, .start queued surveyed⟩
  | turn _ waiting performed ih =>
      rcases ih with ⟨visits, passes⟩
      rcases perform_eq_ok_iff.mp performed with ⟨groups, surveyed, rfl⟩
      exact ⟨_, .turn passes waiting surveyed⟩

theorem exists_runs_of_run {setup : Setup} {progress : Progress}
    (ran : setup.run = .ok progress) : ∃ visits, Runs setup visits progress := by
  rcases exists_of_run ran with ⟨last, reached, idle, performed⟩
  rcases exists_passes_of_reached reached with ⟨visits, passes⟩
  rcases perform_eq_ok_iff.mp performed with ⟨groups, surveyed, rfl⟩
  exact ⟨_, .last passes idle surveyed⟩

theorem reached_of_passes {setup : Setup} {visits : List Visit} {progress : Progress}
    (passes : Passes setup visits progress) : Reached setup progress := by
  induction passes with
  | start queued surveyed => exact .start queued (perform_eq_ok_iff.mpr ⟨_, surveyed, rfl⟩)
  | turn _ waiting surveyed ih =>
      exact .turn ih waiting (perform_eq_ok_iff.mpr ⟨_, surveyed, rfl⟩)

/-- The first pass is for no profile, the others are the turns of the profiles in their order. -/
theorem profiles_of_passes {setup : Setup} {visits : List Visit} {progress : Progress}
    (passes : Passes setup visits progress) :
    visits.map Visit.profile = none :: progress.queue.earlier.map some := by
  induction passes with
  | start queued _ =>
      rcases queue_eq_ok_iff.mp queued with ⟨activated, included, _, _, rfl⟩
      rw [Queue.earlier, begun_collect, Queue.begun_start]
      rfl
  | turn _ _ _ ih =>
      rw [List.map_append, ih, Queue.earlier, Queue.earlier, begun_collect]
      simp [Progress.advance, Queue.advance]

theorem regular_of_passes {setup : Setup} {visits : List Visit} {progress : Progress}
    (passes : Passes setup visits progress) : ∀ visit ∈ visits, visit.pass = .regular := by
  induction passes with
  | start _ _ => exact List.forall_mem_singleton.mpr rfl
  | turn _ _ _ ih => exact List.forall_mem_append.mpr ⟨ih, List.forall_mem_singleton.mpr rfl⟩

theorem log_of_passes {setup : Setup} {visits : List Visit} {progress : Progress}
    (passes : Passes setup visits progress) : progress.log = visits.flatMap Visit.entered := by
  induction passes with
  | start _ _ => exact (List.flatMap_singleton _ _).symm
  | turn _ _ _ ih =>
      rw [List.flatMap_append, List.flatMap_singleton, ← ih]
      rfl

theorem log_of_runs {setup : Setup} {visits : List Visit} {progress : Progress}
    (runs : Runs setup visits progress) : progress.log = visits.flatMap Visit.entered := by
  cases runs with
  | last passes _ _ =>
      rw [List.flatMap_append, List.flatMap_singleton, ← log_of_passes passes]
      rfl

/-- The log holds what was noted, in another order. -/
theorem log_perm_noted {setup : Setup} {visits : List Visit} {progress : Progress}
    (runs : Runs setup visits progress) : progress.log.Perm (noted visits) := by
  rw [log_of_runs runs, noted]
  exact List.Perm.flatMap_left _ fun visit _ => visit.entered_perm_noted

/-! ## The moment when a document is noted -/

/-- What holds of the queue after some documents were noted. -/
structure Noting (setup : Setup) (documents : List Taken) (queue : Queue) : Prop where
  unsettled : queue.settled = false ↔
    setup.environment.resolveList Property.Keys.activeProfiles = .ok [] ∧
      ∀ taken ∈ documents, taken.document.active = []
  cleared : queue.Cleared

theorem noting_start {setup : Setup} {queue : Queue} (queued : setup.queue = .ok queue) :
    Noting setup [] queue := by
  rcases queue_eq_ok_iff.mp queued with ⟨activated, included, first, _, rfl⟩
  refine ⟨?_, Queue.cleared_start _ _ _⟩
  rw [Queue.settled_start, first, Except.ok.injEq]
  simp

theorem Noting.noteAll {setup : Setup} {documents : List Taken} {queue : Queue}
    (noting : Noting setup documents queue) (pass : Document.Pass) (profile : Option String)
    (more : List Document) :
    Noting setup (documents ++ more.map (Taken.mk pass profile))
      (more.foldl Queue.note queue) := by
  refine ⟨?_, noting.cleared.noteAll more⟩
  rw [Queue.settled_noteAll, Bool.or_eq_false_iff, noting.unsettled, List.any_eq_false]
  simp only [Bool.not_eq_true', Bool.not_eq_false, List.isEmpty_iff, List.forall_mem_append,
    List.forall_mem_map, and_assoc]

theorem Noting.advance {setup : Setup} {documents : List Taken} {queue : Queue}
    (noting : Noting setup documents queue) {profile : Profile} {others : List Profile}
    (waiting : queue.waiting = profile :: others) :
    Noting setup documents (queue.advance profile others) where
  unsettled := noting.unsettled
  cleared := noting.cleared.advance waiting

theorem noting_of_passes {setup : Setup} {visits : List Visit} {progress : Progress}
    (passes : Passes setup visits progress) : Noting setup (noted visits) progress.queue := by
  induction passes with
  | start queued _ =>
      rw [noted, List.flatMap_singleton]
      exact (noting_start queued).noteAll _ _ _
  | turn _ waiting _ ih =>
      rw [noted_concat]
      exact (ih.advance waiting).noteAll _ _ _

/-- When a pass takes a document, there is a moment at which just the sooner ones were noted. -/
theorem exists_moment_of_collect {setup : Setup} {progress : Progress}
    (consistent : Consistent setup progress) {before : List Taken}
    (noting : Noting setup before progress.queue) {visit : Visit} {sooner later : List Taken}
    {taken : Taken} (split : visit.noted = sooner ++ taken :: later) :
    ∃ moment : Progress, Consistent setup moment ∧ Noting setup (before ++ sooner) moment.queue ∧
      (moment.queue.note taken.document).Evolves
        (progress.collect visit.pass visit.profile visit.groups).queue := by
  rcases List.map_eq_append_iff.mp split with ⟨first, rest, documents, rfl, tail⟩
  rcases List.map_eq_cons_iff.mp tail with ⟨document, last, rfl, rfl, rfl⟩
  refine ⟨progress.collect visit.pass visit.profile [first], consistent.collect _ _ _, ?_, ?_⟩
  · have noted := noting.noteAll visit.pass visit.profile first
    simpa only [Progress.collect, List.flatten_singleton] using noted
  · have grows := Queue.grows_noteAll ((first.foldl Queue.note progress.queue).note document) last
    simpa only [Progress.collect, List.flatten_singleton, documents, List.foldl_append,
      List.foldl_cons] using grows.evolves

theorem exists_moment_of_passes {setup : Setup} {visits : List Visit} {progress : Progress}
    (passes : Passes setup visits progress) {sooner later : List Taken} {taken : Taken}
    (split : noted visits = sooner ++ taken :: later) :
    ∃ moment : Progress, Consistent setup moment ∧ Noting setup sooner moment.queue ∧
      (moment.queue.note taken.document).Evolves progress.queue := by
  induction passes generalizing later with
  | start queued _ =>
      rw [noted, List.flatMap_singleton] at split
      exact exists_moment_of_collect (consistent_start queued) (noting_start queued) split
  | @turn visits progress profile others groups passes waiting _ ih =>
      have consistent := (consistent_of_reached (reached_of_passes passes)).advance waiting
      have noting := (noting_of_passes passes).advance waiting
      rcases split_concat split with ⟨rest, before⟩ | ⟨own, rfl, inside⟩
      · rcases ih before with ⟨moment, holds, notes, evolves⟩
        have grows := Queue.grows_noteAll (progress.queue.advance profile others) groups.flatten
        exact ⟨moment, holds, notes,
          evolves.trans ((Queue.evolves_advance waiting).trans grows.evolves)⟩
      · exact exists_moment_of_collect consistent noting inside

/-- What is asked for when a document was noted before the last pass has its turn. -/
theorem exists_moment_of_runs {setup : Setup} {visits : List Visit} {progress : Progress}
    (runs : Runs setup visits progress) {sooner later : List Taken} {taken : Taken}
    (split : noted visits = sooner ++ taken :: later) (regular : taken.pass = .regular) :
    ∃ moment : Progress, Consistent setup moment ∧ Noting setup sooner moment.queue ∧
      moment.queue.begun ⊆ progress.queue.begun ∧
      ∀ name, (moment.queue.note taken.document).Asked name → name ∈ requested progress.queue := by
  cases runs with
  | @last visits progress groups passes idle _ =>
      rcases split_concat split with ⟨rest, before⟩ | ⟨own, _, inside⟩
      · rcases exists_moment_of_passes passes before with ⟨moment, holds, notes, evolves⟩
        have same := begun_collect progress .leftover none groups
        have grows := Queue.grows_note moment.queue taken.document
        refine ⟨moment, holds, notes, ?_, ?_⟩
        · rw [same]
          exact List.Subset.trans grows.evolves.begun evolves.begun
        · intro name asked
          rcases evolves.asked name asked with ⟨profile, member, requested, named⟩
          rw [idle] at member
          rw [mem_requested_iff, same]
          exact ⟨profile, member, requested, named⟩
      · -- A document of the last pass is no regular one.
        have member : taken ∈ own ++ taken :: later := List.mem_append_right own List.mem_cons_self
        rw [← inside] at member
        rcases List.mem_map.mp member with ⟨document, _, rfl⟩
        cases regular

end Setup
end Assembly
end LayeredConfig

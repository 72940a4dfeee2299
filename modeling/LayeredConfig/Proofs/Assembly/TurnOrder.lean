import LayeredConfig.Proofs.Assembly.Places
import LayeredConfig.Proofs.Assembly.Termination
import LayeredConfig.Proofs.Names
import Mathlib

namespace LayeredConfig

open Property

/-!
# Requested profiles keep their places

The requested profiles of a queue stand in a line: first those whose turn has
come, then those that wait.  A turn moves no one in it, dropping the defaults
takes no one out of it, and whoever a document asks for joins at the end.  The
line at the end of a run therefore begins with the line at its start, and that is
what the environment asks for.
-/

namespace Assembly
namespace Queue

/-! ## The line -/

/-- The names of the requested profiles, in the order in which they have their turns. -/
def line (queue : Queue) : List String :=
  ((queue.begun ++ queue.waiting).filter fun profile => !profile.isDefault).map Profile.name

theorem line_advance {queue : Queue} {profile : Profile} {others : List Profile}
    (waiting : queue.waiting = profile :: others) :
    (queue.advance profile others).line = queue.line := by
  rw [line, line, waiting, advance, List.append_assoc, List.singleton_append]

theorem line_dropDefaults (queue : Queue) : queue.dropDefaults.line = queue.line := by
  simp only [line, dropDefaults, List.filter_append, List.filter_filter, Bool.and_self]

theorem line_of_idle {queue : Queue} (idle : queue.waiting = []) :
    queue.line = requested queue := by
  rw [line, idle, List.append_nil, requested]

theorem nodup_line {queue : Queue} (distinct : queue.Distinct) : queue.line.Nodup := by
  have reordered : (queue.begun ++ queue.waiting).Perm (queue.waiting ++ queue.begun) :=
    List.perm_append_comm
  have apart := (reordered.map Profile.name).nodup_iff.mpr distinct
  exact apart.sublist (List.filter_sublist.map Profile.name)

/-! ## Joining the line -/

/-- Some of the names have joined the line at its end. -/
def Joined (names : List String) (queue later : Queue) : Prop :=
  ∃ more, later.line = queue.line ++ more ∧ more ⊆ names

theorem Joined.refl (names : List String) (queue : Queue) : Joined names queue queue :=
  ⟨[], (List.append_nil _).symm, List.nil_subset names⟩

theorem Joined.trans {names : List String} {first second third : Queue}
    (sooner : Joined names first second) (later : Joined names second third) :
    Joined names first third := by
  rcases sooner with ⟨one, grown, known⟩
  rcases later with ⟨other, longer, alsoKnown⟩
  refine ⟨one ++ other, ?_, List.append_subset.mpr ⟨known, alsoKnown⟩⟩
  rw [longer, grown, List.append_assoc]

theorem Joined.mono {names more : List String} {queue later : Queue}
    (joined : Joined names queue later) (inside : names ⊆ more) : Joined more queue later := by
  rcases joined with ⟨others, grown, known⟩
  exact ⟨others, grown, fun _ member => inside (known member)⟩

theorem joined_enter {names : List String} {name : String} (member : name ∈ names)
    (queue : Queue) : Joined names queue (queue.enter name) := by
  unfold enter
  split
  · exact Joined.refl names queue
  · refine ⟨[name], ?_, List.cons_subset.mpr ⟨member, List.nil_subset names⟩⟩
    rw [line, line, ← List.append_assoc, List.filter_append, List.map_append]
    rfl

theorem joined_enterAll {names more : List String} (inside : more ⊆ names) (queue : Queue) :
    Joined names queue (queue.enterAll more) := by
  induction more generalizing queue with
  | nil => exact Joined.refl names queue
  | cons head tail ih =>
      rcases List.cons_subset.mp inside with ⟨first, rest⟩
      exact (joined_enter first queue).trans (ih rest (queue.enter head))

theorem joined_activate (names : List String) (queue : Queue) :
    Joined names queue (queue.activate names) := by
  unfold activate
  split
  · exact Joined.refl names queue
  · rcases joined_enterAll (List.Subset.refl names) queue with ⟨more, grown, known⟩
    exact ⟨more, (line_dropDefaults (queue.enterAll names)).trans grown, known⟩

/-- Whoever joins the line while a document is noted is named by it. -/
theorem joined_note (queue : Queue) (document : Document) :
    Joined (document.active ++ document.included) queue (queue.note document) :=
  ((joined_activate document.active queue).mono (List.subset_append_left _ _)).trans
    (joined_enterAll (List.subset_append_right _ _) _)

theorem joined_noteAll (queue : Queue) (documents : List Document) :
    Joined (documents.flatMap fun document => document.active ++ document.included) queue
      (documents.foldl note queue) := by
  induction documents generalizing queue with
  | nil => exact Joined.refl [] queue
  | cons head tail ih =>
      rw [List.flatMap_cons]
      exact ((joined_note queue head).mono (List.subset_append_left _ _)).trans
        ((ih (queue.note head)).mono (List.subset_append_right _ _))

/-! ## The line at the start -/

/-- In a queue without defaults a name joins the line unless it stands there. -/
theorem line_enter {queue : Queue} (plain : ∀ name, Free queue name) (name : String) :
    (queue.enter name).line = Names.add queue.line name := by
  have same : name ∈ queue.names ↔ name ∈ queue.line := by
    simp only [names, line, List.mem_map, List.mem_filter, Bool.not_eq_true', List.mem_append]
    constructor
    · rintro ⟨profile, member, named⟩
      refine ⟨profile, ⟨member.symm, ?_⟩, named⟩
      rcases Bool.eq_false_or_eq_true profile.isDefault with default | requested
      · exact absurd named (plain name profile (List.mem_append.mpr member) default)
      · exact requested
    · rintro ⟨profile, ⟨member, _⟩, named⟩
      exact ⟨profile, member.symm, named⟩
  rw [enter, Names.add]
  by_cases present : name ∈ queue.names
  · rw [if_pos present, if_pos (same.mp present)]
  · rw [if_neg present, if_neg fun inside => present (same.mpr inside), line, line,
      ← List.append_assoc, List.filter_append, List.map_append]
    rfl

theorem line_enterAll {queue : Queue} (plain : ∀ name, Free queue name) (names : List String) :
    (queue.enterAll names).line = Names.addAll queue.line names := by
  induction names generalizing queue with
  | nil => rfl
  | cons head tail ih =>
      have step : queue.enterAll (head :: tail) = (queue.enter head).enterAll tail := rfl
      rw [step, ih fun name => (plain name).grows (grows_enter queue head), line_enter plain]
      rfl

theorem line_activate {queue : Queue} (plain : ∀ name, Free queue name)
    (unsettled : queue.settled = false) (names : List String) :
    (queue.activate names).line = Names.addAll queue.line names := by
  rw [activate, unsettled, Bool.or_false]
  cases names with
  | nil => rfl
  | cons head tail => exact (line_dropDefaults _).trans (line_enterAll plain (head :: tail))

/-- What an environment asks for, each name once: the active profiles that are on neither list,
then those to include and then those to activate. -/
def wanted (environment : Environment) (activated included : List String) : List String :=
  ((environment.active.filter fun name =>
    !activated.contains name && !included.contains name) ++ included ++ activated).eraseDups

theorem mem_wanted_iff (environment : Environment) (activated included : List String)
    (name : String) : name ∈ wanted environment activated included ↔
      name ∈ environment.active ∨ name ∈ activated ∨ name ∈ included := by
  simp only [wanted, List.mem_eraseDups, List.mem_append, List.mem_filter, Bool.and_eq_true,
    Bool.not_eq_true', ← Bool.not_eq_true, List.contains_iff_mem]
  tauto

theorem line_requests (environment : Environment) (activated included : List String) :
    (requests environment activated included).line = wanted environment activated included := by
  have plain : ∀ name, Free (empty.enterAll ((environment.active.filter fun name =>
      !activated.contains name && !included.contains name) ++ included)) name :=
    fun name => (free_empty name).grows (grows_enterAll empty _)
  rw [requests, line_activate plain (settled_enterAll empty _), line_enterAll free_empty, wanted,
    ← Names.addAll_nil, Names.addAll_append [] _ activated]
  rfl

/-- The defaults that may wait at the start do not stand in the line. -/
theorem line_start (environment : Environment) (activated included : List String) :
    (start environment activated included).line = wanted environment activated included := by
  rw [← line_requests, start_eq]
  split
  · next nobody =>
      have fallbacks : (environment.defaults.map Profile.fallback).filter
          (fun profile => !profile.isDefault) = [] := by
        simp [List.filter_map, Function.comp_def, Profile.fallback]
      simp only [line, begun_requests, List.nil_append, fallbacks, List.isEmpty_iff.mp nobody,
        List.filter_nil]
  · rfl

end Queue

namespace Setup

variable {setup : Setup}

/-! ## The line along a run -/

/-- Some document in the log names the profile. -/
def Named (log : List Taken) (name : String) : Prop :=
  ∃ taken ∈ log, name ∈ taken.document.active ∨ name ∈ taken.document.included

/-- What has joined the line since the start was named by documents that were taken. -/
def Continues (queue : Queue) (progress : Progress) : Prop :=
  ∃ more, progress.queue.line = queue.line ++ more ∧ ∀ name ∈ more, Named progress.log name

theorem continues_start (environment : Environment) (queue : Queue) :
    Continues queue ⟨environment, queue, []⟩ :=
  ⟨[], (List.append_nil queue.line).symm, fun _ absent => absurd absent List.not_mem_nil⟩

theorem Continues.collect {queue : Queue} {progress : Progress}
    (continues : Continues queue progress) (pass : Document.Pass) (profile : Option String)
    (groups : List (List Document)) :
    Continues queue (progress.collect pass profile groups) := by
  rcases continues with ⟨more, grown, named⟩
  rcases Queue.joined_noteAll progress.queue groups.flatten with ⟨others, longer, known⟩
  refine ⟨more ++ others, ?_, ?_⟩
  · rw [← List.append_assoc, ← grown]
    exact longer
  · intro name member
    rcases List.mem_append.mp member with before | new
    · rcases named name before with ⟨taken, logged, names⟩
      exact ⟨taken, (mem_log_collect _ _ _ _ _).mpr (.inl logged), names⟩
    · rcases List.mem_flatMap.mp (known new) with ⟨document, found, names⟩
      refine ⟨⟨pass, profile, document⟩, ?_, List.mem_append.mp names⟩
      exact (mem_log_collect _ _ _ _ _).mpr (.inr ⟨document, found, rfl⟩)

theorem Continues.advance {queue : Queue} {progress : Progress}
    (continues : Continues queue progress) {profile : Profile} {others : List Profile}
    (waiting : progress.queue.waiting = profile :: others) :
    Continues queue (progress.advance profile others) := by
  rcases continues with ⟨more, grown, named⟩
  exact ⟨more, (Queue.line_advance waiting).trans grown, named⟩

theorem continues_of_reached {progress : Progress} (reached : Reached setup progress) :
    ∃ queue, setup.queue = .ok queue ∧ Continues queue progress := by
  induction reached with
  | start queued performed =>
      rcases perform_eq_ok_iff.mp performed with ⟨groups, _, rfl⟩
      exact ⟨_, queued, (continues_start setup.environment _).collect _ _ _⟩
  | turn _ waiting performed ih =>
      rcases perform_eq_ok_iff.mp performed with ⟨groups, _, rfl⟩
      rcases ih with ⟨queue, queued, continues⟩
      exact ⟨queue, queued, (continues.advance waiting).collect _ _ _⟩

/-- The profiles that had their turn as requested ones are those that the environment asks for, in
its order, and after them profiles that documents name. -/
theorem requested_of_run {progress : Progress} (ran : setup.run = .ok progress) :
    ∃ activated included more,
      setup.environment.resolveList Keys.activeProfiles = .ok activated ∧
      setup.environment.resolveList Keys.includedProfiles = .ok included ∧
      requested progress.queue = Queue.wanted setup.environment activated included ++ more ∧
      (requested progress.queue).Nodup ∧ ∀ name ∈ more, Named progress.log name := by
  rcases exists_of_run ran with ⟨last, reached, idle, performed⟩
  rcases perform_eq_ok_iff.mp performed with ⟨groups, _, rfl⟩
  rcases continues_of_reached reached with ⟨queue, queued, more, grown, named⟩
  rcases queue_eq_ok_iff.mp queued with ⟨activated, included, first, second, rfl⟩
  have turns : requested (last.collect .leftover none groups).queue = last.queue.line := by
    rw [Queue.line_of_idle idle, requested, requested, Progress.collect]
    simp only [(Queue.grows_noteAll last.queue groups.flatten).begun]
  refine ⟨activated, included, more, first, second, ?_, ?_, ?_⟩
  · rw [turns, grown, Queue.line_start]
  · rw [turns]
    exact Queue.nodup_line (distinct_of_reached reached)
  · intro name member
    rcases named name member with ⟨taken, logged, names⟩
    exact ⟨taken, (mem_log_collect _ _ _ _ _).mpr (.inl logged), names⟩

end Setup
end Assembly

namespace Assembler

/-! ## Main result -/

/-- Without default properties the active profiles of a result are distinct and begin with what
the environment asks for: the profiles that are active and on neither list, then those to include
and then those to activate, each where it is first.  The others were named by documents that the
run took.  No profile that was active or is on a list is lost. -/
theorem requested_profiles_first {assembler : Assembler} {environment assembled : Environment}
    (plain : environment.sources.contains Keys.defaultProperties = false)
    (done : assembler.assemble environment = .ok assembled) :
    ∃ activated included progress others,
      environment.resolveList Keys.activeProfiles = .ok activated ∧
      environment.resolveList Keys.includedProfiles = .ok included ∧
      (assembler.setup environment).run = .ok progress ∧
      assembled.active.Nodup ∧
      assembled.active =
        ((environment.active.filter fun name =>
          !activated.contains name && !included.contains name) ++ included ++
            activated).eraseDups ++ others ∧
      (∀ name ∈ others, ∃ taken ∈ progress.log,
        name ∈ taken.document.active ∨ name ∈ taken.document.included) ∧
      ∀ name, name ∈ environment.active ∨ name ∈ activated ∨ name ∈ included →
        name ∈ assembled.active := by
  rcases (assemble_eq_ok_iff_of_plain plain).mp done with ⟨progress, ran, rfl⟩
  rcases Assembly.Setup.requested_of_run ran with
    ⟨activated, included, others, first, second, turns, distinct, named⟩
  have active : (progress.merge.setActive (Assembly.requested progress.queue)).active =
      Assembly.Queue.wanted environment activated included ++ others :=
    (Names.addAll_of_nodup distinct).trans turns
  refine ⟨activated, included, progress, others, first, second, ran,
    (progress.merge.setActive _).active_nodup, active, named, ?_⟩
  intro name listed
  rw [active]
  exact List.mem_append_left _ ((Assembly.Queue.mem_wanted_iff _ _ _ name).mpr listed)

/-- The base file includes a profile that is requested and one that is not. -/
def includingMore : List (String × String) :=
  [("conf/app.properties", "autowire.profiles.include=d,a")]

/-- The profiles `x` and `a` are active, and properties include `c` and `b` and activate `a` and
`b`. -/
def wanting : Environment :=
  ((Environment.initial.addLast ⟨"args", (KeyedList.empty.insert Keys.activeProfiles "a,b").insert
    Keys.includedProfiles "c,b"⟩).activate "x").activate "a"

/-- Only `x` is active and on no list, and `d` comes last. -/
theorem requested_profiles_first_wanting :
    wanting.sources.contains Keys.defaultProperties = false ∧
      ∃ assembled others, (ofFiles includingMore).assemble wanting = .ok assembled ∧
        assembled.active = ["x", "c", "b", "a"] ++ others ∧ "d" ∈ others := by
  have plain : wanting.sources.contains Keys.defaultProperties = false := by decide
  have unset : PlacesUnset wanting := ⟨by cbv, by cbv, by cbv⟩
  have activated : wanting.resolveList Keys.activeProfiles = .ok ["a", "b"] := by cbv
  have included : wanting.resolveList Keys.includedProfiles = .ok ["c", "b"] := by cbv
  have starts : Assembly.Queue.start wanting ["a", "b"] ["c", "b"] =
      ⟨["x", "c", "b", "a"].map Profile.requested, [], true⟩ := by rfl
  rcases exists_of_bareSetup includingMore unset activated included starts 5 (fun progress =>
    decide ("d" ∈ Assembly.requested progress.queue)) (by cbv) with ⟨progress, ran, more⟩
  have done := (assemble_eq_ok_iff_of_plain plain).mpr ⟨progress, ran, rfl⟩
  rcases requested_profiles_first plain done with
    ⟨first, second, other, others, one, two, _, _, active, _⟩
  cases activated.symm.trans one
  cases included.symm.trans two
  have last : "d" ∈ (progress.merge.setActive (Assembly.requested progress.queue)).active :=
    Names.mem_addAll.mpr (.inr (of_decide_eq_true more))
  rw [active] at last
  exact ⟨plain, _, others, done, active, (List.mem_append.mp last).resolve_left (by decide)⟩

end Assembler
end LayeredConfig

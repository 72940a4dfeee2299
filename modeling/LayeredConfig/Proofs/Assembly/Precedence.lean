import LayeredConfig.Proofs.Assembly.Documents
import LayeredConfig.Proofs.Assembly.Passes
import LayeredConfig.Proofs.Assembly.Splicing
import LayeredConfig.Proofs.Assembly.Termination
import LayeredConfig.Proofs.KeyedList

namespace LayeredConfig

open Property

/-!
# Later profiles come first

The lists of later turns are begun later and stand above those of earlier ones.
A source that several turns take keeps its highest place, that of the last of
them.  What is left over after the turns joins a list or begins one, without
moving the sources that are there.
-/

namespace Assembly
namespace Lists

/-- The sources of all lists, those of the list begun last first. -/
def stack (lists : Lists) : List Source :=
  lists.entries.reverse.flatMap fun entry => entry.2.layers

theorem hasName_iff_mem_stack (lists : Lists) (name : String) :
    HasName lists name ↔ name ∈ lists.stack.map Source.name := by
  simp only [HasName, List.mem_map, stack, mem_layers_iff_holds]

theorem mem_stack_of_mem {log : List Taken} {taken : Taken} (member : taken ∈ log) :
    taken.document.source.name ∈ (ofLog log).stack.map Source.name :=
  (hasName_iff_mem_stack _ _).mp (hasName_of_mem member)

theorem exists_taken_of_mem_stack {log : List Taken} {name : String}
    (listed : name ∈ (ofLog log).stack.map Source.name) :
    ∃ taken ∈ log, taken.document.source.name = name := by
  rcases (hasName_iff_mem_stack _ _).mpr listed with ⟨source, holds, named⟩
  rcases exists_taken_of_holds holds with ⟨taken, member, rfl⟩
  exact ⟨taken, member, named⟩

theorem stack_of_append {lists sooner later : Lists}
    (split : lists.entries = sooner.entries ++ later.entries) :
    lists.stack = later.stack ++ sooner.stack := by
  rw [stack, split, List.reverse_append, List.flatMap_append]
  rfl

/-! ## Lists of new profiles -/

theorem mem_keys_enter {lists : Lists} {taken : Taken} {key : Option String}
    (member : key ∈ (lists.enter taken).keys) : key = taken.profile ∨ key ∈ lists.keys := by
  unfold enter at member
  cases pass : taken.pass with
  | regular =>
      rw [pass] at member
      exact (KeyedList.mem_keys_insert _ _ _ _).mp member
  | leftover =>
      rw [pass] at member
      simp only at member
      split at member
      · exact Or.inr member
      · exact (KeyedList.mem_keys_insert _ _ _ _).mp member

theorem exists_profile_of_mem_keys {log : List Taken} {lists : Lists} {key : Option String}
    (member : key ∈ (log.foldl enter lists).keys) :
    key ∈ lists.keys ∨ ∃ taken ∈ log, taken.profile = key := by
  induction log generalizing lists with
  | nil => exact Or.inl member
  | cons head tail ih =>
      rcases ih member with sooner | ⟨taken, later, same⟩
      · rcases mem_keys_enter sooner with same | before
        · exact Or.inr ⟨head, List.mem_cons_self, same.symm⟩
        · exact Or.inl before
      · exact Or.inr ⟨taken, List.mem_cons_of_mem _ later, same⟩

theorem entries_enter_of_append {lists sooner later : Lists}
    (split : lists.entries = sooner.entries ++ later.entries) {taken : Taken}
    (regular : taken.pass = .regular) (fresh : taken.profile ∉ sooner.keys) :
    (lists.enter taken).entries = sooner.entries ++ (later.enter taken).entries := by
  unfold enter
  rw [regular]
  exact KeyedList.entries_update_of_append split fresh _ _

theorem entries_foldl_of_append {lists sooner later : Lists}
    (split : lists.entries = sooner.entries ++ later.entries) {log : List Taken}
    (apart : ∀ taken ∈ log, taken.pass = .regular ∧ taken.profile ∉ sooner.keys) :
    (log.foldl enter lists).entries = sooner.entries ++ (log.foldl enter later).entries := by
  induction log generalizing lists later with
  | nil => exact split
  | cons head tail ih =>
      rcases apart head List.mem_cons_self with ⟨regular, fresh⟩
      exact ih (entries_enter_of_append split regular fresh)
        fun taken member => apart taken (List.mem_cons_of_mem _ member)

/-- What is taken for new profiles stands above what was taken before. -/
theorem stack_ofLog_append {sooner later : List Taken}
    (apart : ∀ taken ∈ later, taken.pass = .regular ∧
      ∀ other ∈ sooner, other.profile ≠ taken.profile) :
    (ofLog (sooner ++ later)).stack = (ofLog later).stack ++ (ofLog sooner).stack := by
  apply stack_of_append
  rw [ofLog, List.foldl_append]
  apply entries_foldl_of_append (List.append_nil _).symm
  intro taken member
  refine ⟨(apart taken member).1, fun known => ?_⟩
  rcases exists_profile_of_mem_keys known with none | ⟨other, earlier, same⟩
  · cases none
  · exact (apart taken member).2 other earlier same

/-! ## Which of two sources stands above -/

/-- The first source of the one name stands above the first of the other. -/
def Above (sources : List Source) (upper lower : String) : Prop :=
  ∃ front back, sources = front ++ back ∧ upper ∈ front.map Source.name ∧
    lower ∉ front.map Source.name ∧ lower ∈ back.map Source.name

/-- Another source may join anywhere. -/
theorem Above.join {before after : List Source} {upper lower : String}
    (above : Above (before ++ after) upper lower) {source : Source}
    (other : source.name ≠ lower) : Above (before ++ source :: after) upper lower := by
  rcases above with ⟨front, back, split, top, absent, below⟩
  rcases List.append_eq_append_iff.mp split with ⟨between, rfl, rfl⟩ | ⟨between, rfl, rfl⟩
  · refine ⟨before ++ source :: between, back, by simp, ?_, ?_, below⟩
    · rw [List.map_append, List.mem_append] at top ⊢
      exact top.imp_right (List.mem_cons_of_mem _)
    · rw [List.map_append, List.mem_append, not_or] at absent ⊢
      rw [List.map_cons, List.mem_cons, not_or]
      exact ⟨absent.1, Ne.symm other, absent.2⟩
  · refine ⟨front, between ++ source :: after, by simp, top, absent, ?_⟩
    rw [List.map_append, List.mem_append] at below ⊢
    exact below.imp_right (List.mem_cons_of_mem _)

theorem exists_join_of_leftover (lists : Lists) {taken : Taken}
    (leftover : taken.pass = .leftover) :
    lists.enter taken = lists ∨ ¬ HasName lists taken.document.source.name ∧
      ∃ before after, lists.stack = before ++ after ∧
        (lists.enter taken).stack = before ++ taken.document.source :: after := by
  unfold enter
  rw [leftover]
  simp only
  split
  · exact Or.inl rfl
  · next missing =>
      rw [any_contains_iff] at missing
      refine Or.inr ⟨missing, ?_⟩
      -- The source goes first in the list of its profile, which may be a new one.
      rcases KeyedList.entries_update lists taken.profile Sources.empty
        (fun sources => sources.addFirst taken.document.source) with
        ⟨sooner, old, later, split, changed⟩ | ⟨_, changed⟩
      · have kept : (old.erase taken.document.source.name).layers = old.layers := by
          apply List.eraseP_of_forall_not
          intro layer member named
          have listed : (taken.profile, old) ∈ lists.entries :=
            split ▸ List.mem_append_right _ List.mem_cons_self
          exact missing ⟨layer, ⟨_, listed, member⟩, of_decide_eq_true named⟩
        refine ⟨later.reverse.flatMap fun entry => entry.2.layers,
          old.layers ++ sooner.reverse.flatMap fun entry => entry.2.layers, ?_, ?_⟩
        · rw [stack, split]
          simp
        · rw [stack, changed]
          simp [Sources.addFirst, kept]
      · refine ⟨[], lists.stack, rfl, ?_⟩
        rw [stack, changed]
        simp [Sources.addFirst, Sources.erase, Sources.empty, stack]

/-- What is left over moves no source. -/
theorem Above.leftover {lists : Lists} {upper lower : String}
    (above : Above lists.stack upper lower) {log : List Taken}
    (last : ∀ taken ∈ log, taken.pass = .leftover) :
    Above (log.foldl enter lists).stack upper lower := by
  induction log generalizing lists with
  | nil => exact above
  | cons head tail ih =>
      apply ih
      · rcases exists_join_of_leftover lists (last head List.mem_cons_self) with
          same | ⟨missing, before, after, split, joined⟩
        · rw [same]
          exact above
        · rw [joined]
          rw [split] at above
          apply above.join
          intro named
          rcases above with ⟨front, back, whole, _, _, below⟩
          refine missing ((hasName_iff_mem_stack _ _).mpr ?_)
          rw [split, whole, named, List.map_append]
          exact List.mem_append_right _ below
      · intro taken member
        exact last taken (List.mem_cons_of_mem _ member)

/-- A source that was taken for new profiles stands above one that was taken only before. -/
theorem above_ofLog {sooner later left : List Taken}
    (apart : ∀ taken ∈ later, taken.pass = .regular ∧
      ∀ other ∈ sooner, other.profile ≠ taken.profile)
    (last : ∀ taken ∈ left, taken.pass = .leftover) {top bottom : Taken} (above : top ∈ later)
    (below : bottom ∈ sooner)
    (absent : ∀ taken ∈ later, taken.document.source.name ≠ bottom.document.source.name) :
    Above (ofLog (sooner ++ later ++ left)).stack top.document.source.name
      bottom.document.source.name := by
  rw [ofLog, List.foldl_append, ← ofLog]
  apply Above.leftover _ last
  rw [stack_ofLog_append apart]
  refine ⟨_, _, rfl, mem_stack_of_mem above, ?_, mem_stack_of_mem below⟩
  intro repeated
  rcases exists_taken_of_mem_stack repeated with ⟨taken, member, named⟩
  exact absent taken member named

/-- Keeping the first source of each name keeps that order. -/
theorem sublist_firstByName {seen : List String} {sources : List Source} {upper lower : String}
    (above : Above sources upper lower) (unseen : upper ∉ seen ∧ lower ∉ seen) :
    [upper, lower].Sublist ((firstByName seen sources).map Source.name) := by
  rcases above with ⟨front, back, rfl, top, absent, below⟩
  induction front generalizing seen with
  | nil => cases top
  | cons head tail ih =>
      rw [List.map_cons, List.mem_cons, not_or] at absent
      rw [List.map_cons, List.mem_cons] at top
      rw [List.cons_append, firstByName]
      split
      · next before =>
          have later := top.resolve_left fun same => unseen.1 (same ▸ before)
          exact ih unseen later absent.2
      · rw [List.map_cons]
        by_cases same : upper = head.name
        · rw [same]
          apply List.Sublist.cons_cons
          rcases List.mem_map.mp below with ⟨source, member, named⟩
          have fresh : source.name ∉ head.name :: seen := by
            rw [named, List.mem_cons, not_or]
            exact ⟨absent.1, unseen.2⟩
          rcases exists_mem_firstByName (List.mem_append_right tail member) fresh with
            ⟨kept, inside, equal⟩
          exact List.singleton_sublist.mpr (List.mem_map.mpr ⟨kept, inside, equal.trans named⟩)
        · apply List.Sublist.cons
          refine ih ⟨?_, ?_⟩ (top.resolve_left same) absent.2
          · rw [List.mem_cons, not_or]
            exact ⟨same, unseen.1⟩
          · rw [List.mem_cons, not_or]
            exact ⟨absent.1, unseen.2⟩

theorem sublist_merged {lists : Lists} {upper lower : String}
    (above : Above lists.stack upper lower) :
    [upper, lower].Sublist (lists.merged.map Source.name) :=
  sublist_firstByName above ⟨List.not_mem_nil, List.not_mem_nil⟩

end Lists

/-! ## The last turn that takes a source -/

/-- Among the turns that take a source of the name, that of the profile is the last. -/
def Progress.LastTurn (progress : Progress) (profile name : String) : Prop :=
  (∃ taken ∈ progress.log, taken.profile = some profile ∧ taken.document.source.name = name) ∧
    ∀ taken ∈ progress.log, taken.document.source.name = name →
      ∀ other ∈ taken.profile, ¬ [profile, other].Sublist progress.queue.earlier

instance (progress : Progress) (profile name : String) :
    Decidable (progress.LastTurn profile name) :=
  inferInstanceAs (Decidable (_ ∧ _))

namespace Setup

theorem profile_mem_of_mem_entered {visits : List Visit} {taken : Taken}
    (member : taken ∈ visits.flatMap Visit.entered) :
    taken.profile ∈ visits.map Visit.profile := by
  rcases List.mem_flatMap.mp member with ⟨visit, listed, inside⟩
  exact List.mem_map.mpr ⟨visit, listed, (Visit.pass_of_mem_entered inside).2.symm⟩

/-- The passes are cut between two turns.  Those after the cut are turns of other profiles than
those before it. -/
theorem exists_cut_of_passes {setup : Setup} {visits : List Visit} {progress : Progress}
    (passes : Passes setup visits progress) {first second : String}
    (ordered : [first, second].Sublist progress.queue.earlier) :
    ∃ sooner later, visits = sooner ++ later ∧
      some first ∈ sooner.map Visit.profile ∧ some second ∈ later.map Visit.profile ∧
      ∀ profile ∈ later.map Visit.profile, profile ∉ sooner.map Visit.profile ∧
        ∃ other, profile = some other ∧ [first, other].Sublist progress.queue.earlier := by
  rcases List.cons_sublist_iff.mp ordered with ⟨front, back, split, begins, ends⟩
  have profiles := profiles_of_passes passes
  rw [split, List.map_append, ← List.cons_append] at profiles
  rcases List.map_eq_append_iff.mp profiles with ⟨sooner, later, rfl, before, after⟩
  have distinct := (distinct_of_reached (reached_of_passes passes)).nodup_earlier
  rw [split, List.nodup_append] at distinct
  refine ⟨sooner, later, rfl, ?_, ?_, ?_⟩
  · rw [before]
    exact List.mem_cons_of_mem _ (List.mem_map_of_mem begins)
  · rw [after]
    exact List.mem_map_of_mem (List.singleton_sublist.mp ends)
  · rw [before, after]
    intro profile member
    rcases List.mem_map.mp member with ⟨other, late, rfl⟩
    constructor
    · intro early
      rcases List.mem_cons.mp early with none | among
      · cases none
      · rcases List.mem_map.mp among with ⟨same, inside, equal⟩
        exact distinct.2.2 same inside other late (Option.some.inj equal)
    · have ends := List.singleton_sublist.mpr late
      exact ⟨other, rfl, List.cons_sublist_iff.mpr ⟨front, back, split, begins, ends⟩⟩

/-- What was taken for a profile was not taken by the last pass. -/
theorem mem_entered_of_turn {visits : List Visit} {last : Visit} (none : last.profile = none)
    {taken : Taken} (member : taken ∈ (visits ++ [last]).flatMap Visit.entered)
    {profile : String} (turn : taken.profile = some profile) :
    taken ∈ visits.flatMap Visit.entered := by
  rw [List.flatMap_append, List.flatMap_singleton, List.mem_append] at member
  refine member.resolve_right fun left => ?_
  rw [(Visit.pass_of_mem_entered left).2, none] at turn
  cases turn

/-- A source of a later turn stands above one that no later turn took. -/
theorem above_of_runs {setup : Setup} {visits : List Visit} {progress : Progress}
    (runs : Runs setup visits progress) {first second upper lower : String}
    (ordered : [first, second].Sublist progress.queue.earlier)
    (above : progress.LastTurn second upper) (below : progress.LastTurn first lower) :
    Lists.Above (Lists.ofLog progress.log).stack upper lower := by
  rcases above with ⟨⟨top, topTaken, topTurn, rfl⟩, _⟩
  rcases below with ⟨⟨bottom, bottomTaken, bottomTurn, rfl⟩, lastTurn⟩
  rw [log_of_runs runs] at topTaken bottomTaken lastTurn ⊢
  cases runs with
  | @last visits progress groups passes idle _ =>
      have same : (progress.collect .leftover none groups).queue.earlier =
          progress.queue.earlier := by
        rw [Queue.earlier, begun_collect, Queue.earlier]
      rw [same] at ordered lastTurn
      -- No turn after the cut took the lower source, one of them took the upper one.
      rcases exists_cut_of_passes passes ordered with ⟨sooner, later, rfl, begins, ends, turns⟩
      have late := mem_entered_of_turn rfl topTaken topTurn
      have early := mem_entered_of_turn rfl bottomTaken bottomTurn
      rw [List.flatMap_append, List.mem_append] at late early
      have topLater := late.resolve_left fun sooner =>
        (turns _ ends).1 (topTurn ▸ profile_mem_of_mem_entered sooner)
      have bottomSooner := early.resolve_right fun late =>
        (turns _ (bottomTurn ▸ profile_mem_of_mem_entered late)).1 begins
      rw [List.flatMap_append, List.flatMap_append, List.flatMap_singleton] at lastTurn ⊢
      refine Lists.above_ofLog ?_ ?_ topLater bottomSooner ?_
      · intro taken member
        rcases List.mem_flatMap.mp member with ⟨visit, listed, inside⟩
        constructor
        · rw [(Visit.pass_of_mem_entered inside).1]
          exact regular_of_passes passes visit (List.mem_append_right _ listed)
        · intro other before equal
          exact (turns _ (profile_mem_of_mem_entered member)).1
            (equal ▸ profile_mem_of_mem_entered before)
      · intro taken member
        exact (Visit.pass_of_mem_entered member).1
      · intro taken member named
        rcases (turns _ (profile_mem_of_mem_entered member)).2 with ⟨other, turn, after⟩
        exact lastTurn taken (List.mem_append_left _ (List.mem_append_right _ member)) named other
          turn after

end Setup
end Assembly

namespace Assembler

/-- No source that a run takes has the name of the default properties. -/
theorem defaultProperties_not_mem_merged {assembler : Assembler} {environment : Environment}
    {progress : Assembly.Progress} (ran : (assembler.setup environment).run = .ok progress) :
    Keys.defaultProperties ∉ (Assembly.Lists.ofLog progress.log).merged.map Source.name := by
  intro member
  rcases List.mem_map.mp member with ⟨source, merged, named⟩
  rcases Assembly.Lists.exists_taken_of_mem_merged merged with ⟨taken, logged, rfl⟩
  rcases Assembly.Setup.exists_finds_of_run ran logged with ⟨_, _, _, _, probe, found⟩
  rcases found.read with ⟨documents, read, inside⟩
  rcases Assembly.Library.exists_of_mem_read read inside with ⟨_, _, _, _, _, _, same, _⟩
  rw [same] at named
  exact Assembly.Library.formatName_ne_defaultProperties _ _ _ _ named

/-- Of two profiles, let the later one be the last in whose turn a source is taken, and the
earlier one the last in whose turn another source is taken.  Then the one source precedes the
other in the result, in which no name is repeated. -/
theorem later_profiles_precede {assembler : Assembler} {environment assembled : Environment}
    (distinct : environment.sources.names.Nodup)
    (done : assembler.assemble environment = .ok assembled) :
    ∃ progress, assembler.Completes environment assembled progress ∧
      assembled.sources.names.Nodup ∧
      ∀ first second upper lower, [first, second].Sublist progress.queue.earlier →
        progress.LastTurn second upper → progress.LastTurn first lower →
        [upper, lower].Sublist assembled.sources.names := by
  rcases exists_of_assemble done with ⟨progress, completes⟩
  refine ⟨progress, completes, ?_⟩
  rcases assemble_eq_ok_iff.mp done with ⟨loaded, ran, rfl⟩
  rw [load, completes.ran] at ran
  rcases Assembly.finish_eq_ok_iff.mp ran with ⟨added, _, rfl⟩
  have plain := defaultProperties_not_mem_merged completes.ran
  have start : progress.environment.sources.names.Nodup := by
    rw [(Assembly.Setup.consistent_of_run completes.ran).sources]
    exact (names_reading environment) ▸ distinct
  have each := Assembly.Lists.nodup_names_merged (Assembly.Lists.ofLog progress.log)
  rcases Assembly.names_splice start each plain with ⟨spliced, merged⟩
  refine ⟨nodup_names_restored environment merged, ?_⟩
  intro first second upper lower ordered above below
  rcases Assembly.Setup.exists_runs_of_run completes.ran with ⟨visits, runs⟩
  have higher := Assembly.Setup.above_of_runs runs ordered above below
  have pair := Assembly.Lists.sublist_merged higher
  exact sublist_names_restored environment _ (fun default => plain (pair.subset default))
    (pair.trans spliced)

/-- A base file that is taken in the turns of two profiles, the first of which has a file. -/
def takenTwice : Assembler :=
  ofFiles [("conf/app.properties", "autowire.config.activate.on-profile=a,b\nport=80"),
    ("conf/app-a.properties", "port=81")]

theorem later_profiles_precede_takenTwice :
    ∃ assembled progress,
      takenTwice.assemble ((Environment.initial.activate "a").activate "b") = .ok assembled ∧
      takenTwice.Completes ((Environment.initial.activate "a").activate "b") assembled progress ∧
      progress.LastTurn "b" (Assembly.Library.sourceName "conf/app.properties") ∧
      progress.LastTurn "a" (Assembly.Library.sourceName "conf/app-a.properties") ∧
      [Assembly.Library.sourceName "conf/app.properties",
        Assembly.Library.sourceName "conf/app-a.properties"].Sublist assembled.sources.names := by
  rcases exists_progress_of_runWithin takenTwice
    ((Environment.initial.activate "a").activate "b") 2 (fun progress _ =>
      decide (["a", "b"].Sublist progress.queue.earlier) &&
      (decide (progress.LastTurn "b" (Assembly.Library.sourceName "conf/app.properties")) &&
      decide (progress.LastTurn "a" (Assembly.Library.sourceName "conf/app-a.properties"))))
    (by cbv) with ⟨ran, assembled, within, done, held⟩
  simp only [Bool.and_eq_true, decide_eq_true_eq] at held
  rcases later_profiles_precede (by decide) done with ⟨progress, completes, _, precede⟩
  rw [Except.ok.inj (within.symm.trans completes.ran)] at held
  exact ⟨assembled, progress, done, completes, held.2.1, held.2.2,
    precede "a" "b" _ _ held.1 held.2.1 held.2.2⟩

end Assembler
end LayeredConfig

import LayeredConfig.Proofs.Assembly.Frame
import LayeredConfig.Proofs.Names

namespace LayeredConfig

open Property

/-!
# Where the sources stand that are taken for no profile

When the first pass takes a document it begins the list for no profile, which
then stands below the lists of all profiles.  What is left over joins it there.
When the first pass takes nothing, what is left over begins that list after all
others, and it stands above them.
-/

namespace Assembly
namespace Lists

theorem enter_eq (lists : Lists) (taken : Taken) :
    lists.enter taken = lists ∨ ∃ change,
      lists.enter taken = lists.update taken.profile Sources.empty change := by
  unfold enter
  cases taken.pass with
  | regular => exact Or.inr ⟨_, rfl⟩
  | leftover =>
      simp only
      split
      · exact Or.inl rfl
      · exact Or.inr ⟨_, rfl⟩

theorem mem_keys_enter_of_mem {lists : Lists} {key : Option String} (known : key ∈ lists.keys)
    (taken : Taken) : key ∈ (lists.enter taken).keys := by
  rcases enter_eq lists taken with same | ⟨change, same⟩
  · rw [same]
    exact known
  · rw [same]
    exact (KeyedList.mem_keys_insert _ _ _ _).mpr (Or.inr known)

theorem mem_keys_foldl_of_mem {lists : Lists} {key : Option String} (known : key ∈ lists.keys)
    (log : List Taken) : key ∈ (log.foldl enter lists).keys := by
  induction log generalizing lists with
  | nil => exact known
  | cons head tail ih => exact ih (mem_keys_enter_of_mem known head)

/-- A document that is taken in a regular pass begins the list of its profile. -/
theorem profile_mem_keys_ofLog {log : List Taken} {taken : Taken} (member : taken ∈ log)
    (regular : taken.pass = .regular) : taken.profile ∈ (ofLog log).keys := by
  rcases List.append_of_mem member with ⟨sooner, later, rfl⟩
  rw [ofLog, List.foldl_append, List.foldl_cons]
  apply mem_keys_foldl_of_mem
  unfold enter
  rw [regular]
  exact (KeyedList.mem_keys_insert _ _ _ _).mpr (Or.inl rfl)

/-! ## Documents for one of the first lists, or for a last one -/

/-- What is taken for a profile whose list is among the first ones changes only those. -/
theorem exists_first_of_foldl {lists first rest : Lists}
    (split : lists.entries = first.entries ++ rest.entries) {key : Option String}
    (known : key ∈ first.keys) {log : List Taken} (same : ∀ taken ∈ log, taken.profile = key) :
    ∃ grown : Lists, (log.foldl enter lists).entries = grown.entries ++ rest.entries := by
  induction log generalizing lists first with
  | nil => exact ⟨first, split⟩
  | cons head tail ih =>
      have later : ∀ taken ∈ tail, taken.profile = key := fun taken member =>
        same taken (List.mem_cons_of_mem _ member)
      rcases enter_eq lists head with unchanged | ⟨change, changed⟩
      · rw [List.foldl_cons, unchanged]
        exact ih split known later
      · rw [same head List.mem_cons_self] at changed
        have placed := KeyedList.entries_update_of_mem_append split known Sources.empty change
        rw [← changed] at placed
        exact ih placed ((KeyedList.mem_keys_insert _ _ _ _).mpr (Or.inr known)) later

/-- What is left over for a profile without a list changes only the last lists, and brings them
no name that the first ones have. -/
theorem exists_last_of_leftover {lists first rest : Lists}
    (split : lists.entries = first.entries ++ rest.entries)
    (apart : ∀ name, HasName rest name → ¬ HasName first name) {log : List Taken}
    (left : ∀ taken ∈ log, taken.pass = .leftover ∧ taken.profile ∉ first.keys) :
    ∃ grown : Lists, (log.foldl enter lists).entries = first.entries ++ grown.entries ∧
      ∀ name, HasName grown name → ¬ HasName first name := by
  induction log generalizing lists rest with
  | nil => exact ⟨rest, split, apart⟩
  | cons head tail ih =>
      rcases left head List.mem_cons_self with ⟨leftover, fresh⟩
      have later : ∀ taken ∈ tail, taken.pass = .leftover ∧ taken.profile ∉ first.keys :=
        fun taken member => left taken (List.mem_cons_of_mem _ member)
      rw [List.foldl_cons]
      unfold enter
      rw [leftover]
      simp only
      split
      · exact ih split apart later
      · next missing =>
          rw [any_contains_iff] at missing
          refine ih (KeyedList.entries_update_of_append split fresh _ _) ?_ later
          rintro name ⟨source, holds, rfl⟩
          have adds := fun sources layer =>
            Sources.mem_addFirst_iff sources head.document.source layer
          rcases (enters_update adds).holds source holds with same | before
          · rintro ⟨other, ⟨entry, member, inside⟩, named⟩
            exact missing ⟨other, ⟨entry, split ▸ List.mem_append_left _ member, inside⟩,
              same ▸ named⟩
          · exact apart source.name ⟨source, before, rfl⟩

/-! ## The three parts of a log -/

/-- A log in three parts: what the first pass takes, what the turns take, and what is left
over. -/
structure Phases (log start turns left : List Taken) : Prop where
  split : log = start ++ turns ++ left
  start : ∀ taken ∈ start, taken.pass = .regular ∧ taken.profile = none
  turns : ∀ taken ∈ turns, taken.pass = .regular ∧ taken.profile ≠ none
  left : ∀ taken ∈ left, taken.pass = .leftover ∧ taken.profile = none

theorem Phases.mem_turns {log start turns left : List Taken} (phases : Phases log start turns left)
    {taken : Taken} (member : taken ∈ log) (turn : taken.profile ≠ none) : taken ∈ turns := by
  rw [phases.split, List.mem_append, List.mem_append] at member
  rcases member with (first | among) | last
  · exact absurd (phases.start taken first).2 turn
  · exact among
  · exact absurd (phases.left taken last).2 turn

theorem Phases.entries_before_left {log start turns left : List Taken}
    (phases : Phases log start turns left) :
    (ofLog (start ++ turns)).entries = (ofLog start).entries ++ (ofLog turns).entries := by
  rw [ofLog, List.foldl_append]
  apply entries_foldl_of_append (List.append_nil _).symm
  intro taken member
  refine ⟨(phases.turns taken member).1, fun known => ?_⟩
  rcases exists_profile_of_mem_keys known with missing | ⟨other, earlier, same⟩
  · cases missing
  · exact (phases.turns taken member).2 (same ▸ (phases.start other earlier).2)

theorem Phases.not_mem_keys_turns {log start turns left : List Taken}
    (phases : Phases log start turns left) : none ∉ (ofLog turns).keys := by
  intro known
  rcases exists_profile_of_mem_keys known with missing | ⟨other, member, same⟩
  · cases missing
  · exact (phases.turns other member).2 same

/-- When the first pass takes a document, the lists of the profiles stand above all others. -/
theorem Phases.exists_stack_below {log start turns left : List Taken}
    (phases : Phases log start turns left) {taken : Taken} (member : taken ∈ start) :
    ∃ below, (ofLog log).stack = (ofLog turns).stack ++ below := by
  have known : none ∈ (ofLog start).keys := by
    have begun := profile_mem_keys_ofLog member (phases.start taken member).1
    rwa [(phases.start taken member).2] at begun
  rcases exists_first_of_foldl phases.entries_before_left known
    (fun taken last => (phases.left taken last).2) with ⟨grown, entries⟩
  refine ⟨grown.stack, stack_of_append ?_⟩
  rw [phases.split, ofLog, List.foldl_append]
  exact entries

/-- When the first pass takes nothing, the lists of the profiles stand below all others, which
have none of their names. -/
theorem Phases.exists_stack_above {log turns left : List Taken}
    (phases : Phases log [] turns left) :
    ∃ above, (ofLog log).stack = above ++ (ofLog turns).stack ∧
      ∀ name ∈ above.map Source.name, name ∉ (ofLog turns).stack.map Source.name := by
  have nothing : ∀ name, HasName (KeyedList.empty : Lists) name → ¬ HasName (ofLog turns) name := by
    rintro name ⟨source, ⟨entry, member, _⟩, _⟩
    cases member
  have idle : (ofLog turns).entries =
      (ofLog turns).entries ++ (KeyedList.empty : Lists).entries := (List.append_nil _).symm
  rcases exists_last_of_leftover idle nothing (fun taken last =>
    ⟨(phases.left taken last).1, (phases.left taken last).2 ▸ phases.not_mem_keys_turns⟩) with
    ⟨grown, entries, apart⟩
  refine ⟨grown.stack, stack_of_append ?_, ?_⟩
  · rw [phases.split, List.nil_append, ofLog, List.foldl_append]
    exact entries
  · intro name above below
    exact apart name ((hasName_iff_mem_stack _ _).mpr above)
      ((hasName_iff_mem_stack _ _).mpr below)

end Lists

/-! ## Profiles and no profile -/

namespace Progress

/-- A source of the name is taken in the turn of some profile. -/
def TakenInTurn (progress : Progress) (name : String) : Prop :=
  ∃ taken ∈ progress.log, taken.profile ≠ none ∧ taken.document.source.name = name

/-- Sources of the name are taken, and all of them for no profile. -/
def TakenForNone (progress : Progress) (name : String) : Prop :=
  (∃ taken ∈ progress.log, taken.document.source.name = name) ∧
    ∀ taken ∈ progress.log, taken.document.source.name = name → taken.profile = none

/-- The first pass takes a document. -/
def StartsWithDocument (progress : Progress) : Prop :=
  ∃ taken ∈ progress.log, taken.pass = .regular ∧ taken.profile = none

instance (progress : Progress) (name : String) : Decidable (progress.TakenInTurn name) :=
  inferInstanceAs (Decidable (∃ _ ∈ _, _))

instance (progress : Progress) (name : String) : Decidable (progress.TakenForNone name) :=
  inferInstanceAs (Decidable (_ ∧ _))

instance (progress : Progress) : Decidable progress.StartsWithDocument :=
  inferInstanceAs (Decidable (∃ _ ∈ _, _))

end Progress

namespace Setup

theorem exists_phases_of_runs {setup : Setup} {visits : List Visit} {progress : Progress}
    (runs : Runs setup visits progress) :
    ∃ start turns left, Lists.Phases progress.log start turns left := by
  rw [log_of_runs runs]
  cases runs with
  | @last visits progress groups passes _ _ =>
      have profiles := profiles_of_passes passes
      rcases List.map_eq_cons_iff.mp profiles with ⟨first, turns, rfl, none, named⟩
      have regular := regular_of_passes passes
      refine ⟨first.entered, turns.flatMap Visit.entered, Visit.entered ⟨.leftover, .none, groups⟩,
        ?_, ?_, ?_, ?_⟩
      · rw [List.flatMap_append, List.flatMap_cons, List.flatMap_singleton]
      · intro taken member
        rcases Visit.pass_of_mem_entered member with ⟨pass, profile⟩
        exact ⟨pass.trans (regular first List.mem_cons_self), profile.trans none⟩
      · intro taken member
        rcases List.mem_flatMap.mp member with ⟨visit, listed, inside⟩
        rcases Visit.pass_of_mem_entered inside with ⟨pass, profile⟩
        refine ⟨pass.trans (regular visit (List.mem_cons_of_mem _ listed)), ?_⟩
        have turn : visit.profile ∈ progress.queue.earlier.map some :=
          named ▸ List.mem_map_of_mem listed
        rcases List.mem_map.mp turn with ⟨other, _, same⟩
        rw [profile, ← same]
        exact Option.some_ne_none other
      · intro taken member
        exact Visit.pass_of_mem_entered member

/-- What is taken for no profile stands below what is taken for profiles exactly when the first
pass takes a document. -/
theorem above_or_below_of_runs {setup : Setup} {visits : List Visit} {progress : Progress}
    (runs : Runs setup visits progress) {upper lower : String}
    (turn : progress.TakenInTurn upper) (only : progress.TakenForNone lower) :
    (progress.StartsWithDocument → Lists.Above (Lists.ofLog progress.log).stack upper lower) ∧
      (¬ progress.StartsWithDocument →
        Lists.Above (Lists.ofLog progress.log).stack lower upper) := by
  rcases exists_phases_of_runs runs with ⟨start, turns, left, phases⟩
  rcases turn with ⟨top, topTaken, topTurn, rfl⟩
  rcases only with ⟨⟨bottom, bottomTaken, rfl⟩, never⟩
  have upperListed : top.document.source.name ∈ (Lists.ofLog turns).stack.map Source.name :=
    Lists.mem_stack_of_mem (phases.mem_turns topTaken topTurn)
  have lowerMissing : bottom.document.source.name ∉ (Lists.ofLog turns).stack.map Source.name := by
    intro listed
    rcases Lists.exists_taken_of_mem_stack listed with ⟨taken, member, named⟩
    have inside : taken ∈ progress.log := by
      rw [phases.split]
      exact List.mem_append_left _ (List.mem_append_right _ member)
    exact (phases.turns taken member).2 (never taken inside named)
  have lowerListed : bottom.document.source.name ∈
      (Lists.ofLog progress.log).stack.map Source.name :=
    Lists.mem_stack_of_mem bottomTaken
  constructor
  · rintro ⟨taken, logged, regular, none⟩
    have first : taken ∈ start := by
      rw [phases.split, List.mem_append, List.mem_append] at logged
      rcases logged with (first | among) | last
      · exact first
      · exact absurd none (phases.turns taken among).2
      · rw [(phases.left taken last).1] at regular
        cases regular
    rcases phases.exists_stack_below first with ⟨below, stacked⟩
    rw [stacked] at lowerListed ⊢
    rw [List.map_append, List.mem_append] at lowerListed
    exact ⟨_, below, rfl, upperListed, lowerMissing, lowerListed.resolve_left lowerMissing⟩
  · intro nothing
    have empty : start = [] := by
      apply List.eq_nil_iff_forall_not_mem.mpr
      intro taken first
      refine nothing ⟨taken, ?_, phases.start taken first⟩
      rw [phases.split]
      exact List.mem_append_left _ (List.mem_append_left _ first)
    rw [empty] at phases
    rcases phases.exists_stack_above with ⟨above, stacked, apart⟩
    rw [stacked] at lowerListed ⊢
    rw [List.map_append, List.mem_append] at lowerListed
    exact ⟨above, _, rfl, lowerListed.resolve_right lowerMissing,
      fun repeated => apart _ repeated upperListed, upperListed⟩

end Setup
end Assembly

namespace Assembler

/-- Where no two sources of the environment have a name that is taken, each of those names occurs
once in the result, in the order of the lists. -/
theorem exists_ordered_of_once {assembler : Assembler} {environment assembled : Environment}
    (done : assembler.assemble environment = .ok assembled) :
    ∃ progress, assembler.Completes environment assembled progress ∧
      ((∀ taken ∈ progress.log,
          environment.sources.names.count taken.document.source.name ≤ 1) →
        (∀ taken ∈ progress.log,
          assembled.sources.names.count taken.document.source.name = 1) ∧
        ∀ upper lower,
          Assembly.Lists.Above (Assembly.Lists.ofLog progress.log).stack upper lower →
            [upper, lower].Sublist assembled.sources.names) := by
  rcases exists_of_assemble done with ⟨progress, completes⟩
  refine ⟨progress, completes, fun once => ?_⟩
  have plain := defaultProperties_not_mem_merged completes.ran
  have held : Assembly.HeldOnce progress.environment.sources progress.loaded := by
    intro name listed
    rcases List.mem_map.mp listed with ⟨source, merged, rfl⟩
    rcases Assembly.Lists.exists_taken_of_mem_merged merged with ⟨taken, logged, rfl⟩
    rw [(Assembly.Setup.consistent_of_run completes.ran).sources]
    exact (names_reading environment).symm ▸ once taken logged
  have each := progress.loads_loaded.once
  rw [sources_of_run done completes.ran]
  constructor
  · intro taken logged
    have listed := progress.loads_loaded.complete taken logged
    rw [count_names_restored environment _ (fun default => plain (default ▸ listed))]
    exact Assembly.count_names_splice held each plain listed
  · intro upper lower above
    have pair := Assembly.Lists.sublist_merged above
    exact sublist_names_restored environment _ (fun default => plain (pair.subset default))
      (pair.trans (Assembly.sublist_names_splice held each plain))

/-- The order in which sources stand in the lists is that of the result. -/
theorem exists_ordered_of_assemble {assembler : Assembler} {environment assembled : Environment}
    (distinct : environment.sources.names.Nodup)
    (done : assembler.assemble environment = .ok assembled) :
    ∃ progress, assembler.Completes environment assembled progress ∧
      assembled.sources.names.Nodup ∧
      ∀ upper lower, Assembly.Lists.Above (Assembly.Lists.ofLog progress.log).stack upper lower →
        [upper, lower].Sublist assembled.sources.names := by
  rcases exists_ordered_of_once done with ⟨progress, completes, ordered⟩
  refine ⟨progress, completes, ?_,
    (ordered fun taken _ => List.nodup_iff_count_le_one.mp distinct _).2⟩
  rw [sources_of_run done completes.ran]
  exact nodup_names_restored environment (names_nodup_of_run distinct completes.ran).2

/-- When the first pass takes a document, every source that is taken only for no profile comes
after every source that is taken in the turn of a profile; otherwise it comes before it. -/
theorem profiles_precede_none {assembler : Assembler} {environment assembled : Environment}
    (distinct : environment.sources.names.Nodup)
    (done : assembler.assemble environment = .ok assembled) :
    ∃ progress, assembler.Completes environment assembled progress ∧
      assembled.sources.names.Nodup ∧
      ∀ upper lower, progress.TakenInTurn upper → progress.TakenForNone lower →
        (progress.StartsWithDocument → [upper, lower].Sublist assembled.sources.names) ∧
          (¬ progress.StartsWithDocument → [lower, upper].Sublist assembled.sources.names) := by
  rcases exists_ordered_of_assemble distinct done with ⟨progress, completes, once, ordered⟩
  refine ⟨progress, completes, once, ?_⟩
  intro upper lower turn only
  rcases Assembly.Setup.exists_runs_of_run completes.ran with ⟨visits, runs⟩
  rcases Assembly.Setup.above_or_below_of_runs runs turn only with ⟨below, above⟩
  exact ⟨fun starts => ordered _ _ (below starts), fun nothing => ordered _ _ (above nothing)⟩

/-- A file of a profile and a base file without scope. -/
def withPlainBase : Assembler :=
  ofFiles [("conf/app.properties", "port=80"), ("conf/app-a.properties", "port=81")]

theorem profiles_precede_none_plainBase :
    ∃ assembled progress,
      withPlainBase.assemble (Environment.initial.activate "a") = .ok assembled ∧
      withPlainBase.Completes (Environment.initial.activate "a") assembled progress ∧
      progress.TakenInTurn (Assembly.Library.sourceName "conf/app-a.properties") ∧
      progress.TakenForNone (Assembly.Library.sourceName "conf/app.properties") ∧
      progress.StartsWithDocument ∧
      [Assembly.Library.sourceName "conf/app-a.properties",
        Assembly.Library.sourceName "conf/app.properties"].Sublist assembled.sources.names := by
  rcases exists_progress_of_runWithin withPlainBase (Environment.initial.activate "a") 1
    (fun progress _ =>
      decide (progress.TakenInTurn (Assembly.Library.sourceName "conf/app-a.properties")) &&
      (decide (progress.TakenForNone (Assembly.Library.sourceName "conf/app.properties")) &&
      decide progress.StartsWithDocument)) (by cbv) with ⟨ran, assembled, within, done, held⟩
  simp only [Bool.and_eq_true, decide_eq_true_eq] at held
  rcases profiles_precede_none (by decide) done with ⟨progress, completes, _, precede⟩
  rw [Except.ok.inj (within.symm.trans completes.ran)] at held
  exact ⟨assembled, progress, done, completes, held.1, held.2.1, held.2.2,
    (precede _ _ held.1 held.2.1).1 held.2.2⟩

/-- The base file has a scope, so that only the last pass takes it. -/
def withScopedBase : Assembler :=
  ofFiles [("conf/app.properties", "autowire.config.activate.on-profile=!b\nport=80"),
    ("conf/app-a.properties", "port=81")]

/-- What is left over when the first pass takes nothing comes before the file of a profile. -/
theorem none_precedes_profile_scopedBase :
    ∃ assembled progress,
      withScopedBase.assemble (Environment.initial.activate "a") = .ok assembled ∧
      withScopedBase.Completes (Environment.initial.activate "a") assembled progress ∧
      progress.TakenInTurn (Assembly.Library.sourceName "conf/app-a.properties") ∧
      progress.TakenForNone (Assembly.Library.sourceName "conf/app.properties") ∧
      ¬ [Assembly.Library.sourceName "conf/app-a.properties",
        Assembly.Library.sourceName "conf/app.properties"].Sublist assembled.sources.names := by
  rcases exists_of_ranWithin withScopedBase (Environment.initial.activate "a") 1 (fun progress =>
    decide (progress.TakenInTurn (Assembly.Library.sourceName "conf/app-a.properties")) &&
    (decide (progress.TakenForNone (Assembly.Library.sourceName "conf/app.properties")) &&
    !decide progress.StartsWithDocument)) (by cbv) with ⟨ran, within, held⟩
  simp only [Bool.and_eq_true, Bool.not_eq_true', decide_eq_true_eq, decide_eq_false_iff_not]
    at held
  have done := assemble_of_run within rfl
  rcases exists_ordered_of_assemble (by decide) done with ⟨progress, completes, once, ordered⟩
  rw [Except.ok.inj (within.symm.trans completes.ran)] at held
  rcases Assembly.Setup.exists_runs_of_run completes.ran with ⟨visits, runs⟩
  have above := (Assembly.Setup.above_or_below_of_runs runs held.1 held.2.1).2 held.2.2
  exact ⟨_, progress, done, completes, held.1, held.2.1,
    Names.not_sublist_of_nodup once (ordered _ _ above)⟩

end Assembler
end LayeredConfig

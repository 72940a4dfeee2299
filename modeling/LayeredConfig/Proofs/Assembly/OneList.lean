import LayeredConfig.Proofs.Assembly.Merging
import Mathlib.Data.List.Induction

namespace LayeredConfig

open Property

/-!
# Sources of one list only

A source may be in the lists of several profiles.  A regular pass brings it to
the list of its profile, where it stays.  The last pass brings it to the list for
no profile when it is in no list yet, and changes nothing otherwise, though the
log has it again.
-/

namespace Assembly
namespace Lists

/-- The profiles whose lists have a source of the name. -/
def profilesWith (lists : Lists) (name : String) : List (Option String) :=
  (lists.entries.filter fun entry => entry.2.contains name).map Prod.fst

theorem mem_profilesWith_iff {lists : Lists} {profile : Option String} {name : String} :
    profile ∈ lists.profilesWith name ↔
      ∃ sources, lists.get? profile = some sources ∧ name ∈ sources.names := by
  simp only [profilesWith, List.mem_map, List.mem_filter, Sources.contains_iff_mem_names,
    KeyedList.get?_eq_some_iff]
  constructor
  · rintro ⟨⟨_, sources⟩, ⟨member, held⟩, rfl⟩
    exact ⟨sources, member, held⟩
  · rintro ⟨sources, member, held⟩
    exact ⟨(profile, sources), ⟨member, held⟩, rfl⟩

/-- A source that is added to one list brings its name there, and no other name anywhere. -/
theorem mem_profilesWith_update_iff {lists : Lists} {changed : Option String} {added : Source}
    {change : Sources → Sources}
    (adds : ∀ sources layer, layer ∈ (change sources).layers ↔
      layer = added ∨ layer ∈ (sources.erase added.name).layers)
    (profile : Option String) (name : String) :
    profile ∈ profilesWith (lists.update changed Sources.empty change) name ↔
      (profile = changed ∧ name = added.name) ∨ profile ∈ lists.profilesWith name := by
  rw [mem_profilesWith_iff, mem_profilesWith_iff, KeyedList.update, KeyedList.get?_insert]
  by_cases same : profile = changed
  · subst same
    simp only [if_true, Option.some.injEq, exists_eq_left', true_and,
      Sources.mem_names_of_adds (adds _)]
    cases lists.get? profile with
    | none => simp [Sources.empty, Sources.names]
    | some sources => simp
  · simp only [if_neg same]
    rw [or_iff_right fun both => same both.1]

theorem hasName_iff_profilesWith_ne_nil (lists : Lists) (name : String) :
    HasName lists name ↔ lists.profilesWith name ≠ [] := by
  rw [← any_contains_iff, profilesWith, ne_eq, List.map_eq_nil_iff, List.filter_eq_nil_iff,
    List.any_eq_true]
  simp only [not_forall, not_not, exists_prop]

/-- What a regular pass takes joins the list of its profile; what is left over does so when its
name is new. -/
theorem mem_profilesWith_enter_iff (lists : Lists) (taken : Taken) (profile : Option String)
    (name : String) :
    profile ∈ (lists.enter taken).profilesWith name ↔
      ((profile = taken.profile ∧ name = taken.document.source.name) ∧
        (taken.pass = .regular ∨ lists.profilesWith name = [])) ∨
      profile ∈ lists.profilesWith name := by
  unfold enter
  cases pass : taken.pass with
  | regular =>
      simp only [true_or, and_true]
      exact mem_profilesWith_update_iff
        (fun sources layer => Sources.mem_addLast_iff sources _ layer) profile name
  | leftover =>
      simp only [reduceCtorEq, false_or]
      split
      · next known =>
          rw [any_contains_iff, hasName_iff_profilesWith_ne_nil] at known
          refine (or_iff_right ?_).symm
          rintro ⟨⟨_, rfl⟩, new⟩
          exact known new
      · next new =>
          rw [any_contains_iff, hasName_iff_profilesWith_ne_nil, not_not] at new
          rw [mem_profilesWith_update_iff
            (fun sources layer => Sources.mem_addFirst_iff sources _ layer) profile name]
          exact or_congr_left (and_iff_left_of_imp fun both => both.2 ▸ new).symm

theorem ofLog_concat (log : List Taken) (taken : Taken) :
    ofLog (log ++ [taken]) = (ofLog log).enter taken := by
  rw [ofLog, List.foldl_append]
  rfl

/-- A list has its names from what was taken for its profile. -/
theorem exists_taken_of_mem_profilesWith {log : List Taken} {profile : Option String}
    {name : String} (listed : profile ∈ (ofLog log).profilesWith name) :
    ∃ taken ∈ log, taken.profile = profile ∧ taken.document.source.name = name := by
  induction log using List.reverseRecOn with
  | nil => cases listed
  | append_singleton log last ih =>
      rw [ofLog_concat, mem_profilesWith_enter_iff] at listed
      rcases listed with ⟨⟨rfl, rfl⟩, _⟩ | sooner
      · exact ⟨last, List.mem_append_right _ List.mem_cons_self, rfl, rfl⟩
      · rcases ih sooner with ⟨taken, member, found⟩
        exact ⟨taken, List.mem_append_left _ member, found⟩

/-- What a regular pass takes for a profile stays in the list of the profile. -/
theorem profile_mem_profilesWith_ofLog {log : List Taken} {taken : Taken} (member : taken ∈ log)
    (regular : taken.pass = .regular) :
    taken.profile ∈ (ofLog log).profilesWith taken.document.source.name := by
  induction log using List.reverseRecOn with
  | nil => cases member
  | append_singleton log last ih =>
      rw [ofLog_concat, mem_profilesWith_enter_iff]
      rcases List.mem_append.mp member with sooner | now
      · exact Or.inr (ih sooner)
      · rw [← List.mem_singleton.mp now]
        exact Or.inl ⟨⟨rfl, rfl⟩, Or.inl regular⟩

/-- The profiles for whose lists a log has a source of the name, read off the log. -/
def takersOf (name : String) (log : List Taken) : List (Option String) :=
  log.foldl (fun found taken =>
    bif decide (taken.document.source.name = name) &&
        (decide (taken.pass = .regular) || found.isEmpty)
      then found ++ [taken.profile] else found) []

/-- Whether a document joined a list hangs on what was taken before it, so that the induction is
on the end of the log. -/
theorem mem_profilesWith_ofLog_iff (log : List Taken) (profile : Option String) (name : String) :
    profile ∈ (ofLog log).profilesWith name ↔ profile ∈ takersOf name log := by
  induction log using List.reverseRecOn generalizing profile with
  | nil => exact Iff.rfl
  | append_singleton log last ih =>
      have empty : (ofLog log).profilesWith name = [] ↔ (takersOf name log).isEmpty = true := by
        rw [List.isEmpty_iff, List.eq_nil_iff_forall_not_mem, List.eq_nil_iff_forall_not_mem]
        exact forall_congr' fun other => not_congr (ih other)
      have joined : takersOf name (log ++ [last]) =
          bif decide (last.document.source.name = name) &&
              (decide (last.pass = .regular) || (takersOf name log).isEmpty)
            then takersOf name log ++ [last.profile] else takersOf name log := by
        rw [takersOf, List.foldl_append]
        rfl
      rw [ofLog_concat, mem_profilesWith_enter_iff, ih, empty, joined, Bool.cond_eq_ite]
      split
      · next joins =>
          rw [Bool.and_eq_true, Bool.or_eq_true, decide_eq_true_eq, decide_eq_true_eq] at joins
          rw [List.mem_append, List.mem_singleton, or_comm, and_assoc]
          exact or_congr_right (and_iff_left ⟨joins.1.symm, joins.2⟩)
      · next stays =>
          rw [Bool.and_eq_true, Bool.or_eq_true, decide_eq_true_eq, decide_eq_true_eq] at stays
          exact or_iff_right fun joins => stays ⟨joins.1.2.symm, joins.2⟩

end Lists

namespace Progress

/-- A source of the name is in the list of the profile, and in no other one. -/
def TakenOnlyFor (progress : Progress) (profile : Option String) (name : String) : Prop :=
  profile ∈ (Lists.ofLog progress.log).profilesWith name ∧
    ∀ other ∈ (Lists.ofLog progress.log).profilesWith name, other = profile

/-- Whether only the list of the profile has a source of the name, as the log tells. -/
def takesOnlyFor (progress : Progress) (profile : Option String) (name : String) : Bool :=
  (Lists.takersOf name progress.log).contains profile &&
    (Lists.takersOf name progress.log).all (fun other => other == profile)

theorem takenOnlyFor_iff (progress : Progress) (profile : Option String) (name : String) :
    progress.TakenOnlyFor profile name ↔ progress.takesOnlyFor profile name = true := by
  simp only [TakenOnlyFor, takesOnlyFor, Lists.mem_profilesWith_ofLog_iff, Bool.and_eq_true,
    List.contains_iff_mem, List.all_eq_true, beq_iff_eq]

variable {progress : Progress} {profile : Option String} {name : String}

theorem TakenOnlyFor.exists_taken (only : progress.TakenOnlyFor profile name) :
    ∃ taken ∈ progress.log, taken.profile = profile ∧ taken.document.source.name = name :=
  Lists.exists_taken_of_mem_profilesWith only.1

/-- Every regular pass that takes the source is for the one profile. -/
theorem TakenOnlyFor.profile_eq (only : progress.TakenOnlyFor profile name) {taken : Taken}
    (member : taken ∈ progress.log) (regular : taken.pass = .regular)
    (named : taken.document.source.name = name) : taken.profile = profile :=
  only.2 _ (named ▸ Lists.profile_mem_profilesWith_ofLog member regular)

end Progress
end Assembly
end LayeredConfig

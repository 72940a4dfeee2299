import LayeredConfig.Assembly.Merge
import LayeredConfig.Proofs.Property.Layers

namespace LayeredConfig
namespace Assembly

open Property

/-!
# What merging keeps

The lists of a log hold sources of documents of the log, and for each document
one of the name of its source.  Merging keeps one source of each name, and
splicing the merged sources into others puts every one of them there.
-/

namespace Lists

/-- Some list has the source. -/
def Holds (lists : Lists) (source : Source) : Prop :=
  ∃ entry ∈ lists.entries, source ∈ entry.2.layers

/-- Some list has a source of the name. -/
def HasName (lists : Lists) (name : String) : Prop :=
  ∃ source, Holds lists source ∧ source.name = name

/-- The sources after a change of one list are those of the changed list and of the others. -/
theorem holds_update_iff (lists : Lists) (profile : Option String)
    (change : Sources → Sources) (source : Source) :
    Holds (lists.update profile Sources.empty change) source ↔
      source ∈ (change ((lists.get? profile).getD Sources.empty)).layers ∨
        ∃ entry ∈ lists.entries, entry.1 ≠ profile ∧ source ∈ entry.2.layers := by
  constructor
  · rintro ⟨entry, member, inside⟩
    have found := (KeyedList.get?_eq_some_iff _ entry.1 entry.2).mpr member
    rw [KeyedList.update, KeyedList.get?_insert] at found
    by_cases same : entry.1 = profile
    · rw [if_pos same] at found
      rw [Option.some.inj found]
      exact Or.inl inside
    · rw [if_neg same] at found
      exact Or.inr ⟨entry, (KeyedList.get?_eq_some_iff _ _ _).mp found, same, inside⟩
  · rintro (inside | ⟨entry, member, different, inside⟩)
    · refine ⟨(profile, _), (KeyedList.get?_eq_some_iff _ _ _).mp ?_, inside⟩
      rw [KeyedList.update, KeyedList.get?_insert, if_pos rfl]
    · refine ⟨entry, (KeyedList.get?_eq_some_iff _ _ _).mp ?_, inside⟩
      rw [KeyedList.update, KeyedList.get?_insert, if_neg different]
      exact (KeyedList.get?_eq_some_iff _ _ _).mpr member

/-- What a list of a profile has, the lists have. -/
theorem holds_of_mem_getD {lists : Lists} {profile : Option String} {source : Source}
    (inside : source ∈ ((lists.get? profile).getD Sources.empty).layers) :
    Holds lists source := by
  cases found : lists.get? profile with
  | none =>
      rw [found] at inside
      cases inside
  | some sources =>
      rw [found] at inside
      exact ⟨(profile, sources), (KeyedList.get?_eq_some_iff _ _ _).mp found, inside⟩

/-- Adding a source to one list adds it to the lists, and only it. -/
theorem holds_update_add {lists : Lists} {profile : Option String} {added : Source}
    {change : Sources → Sources}
    (adds : ∀ sources layer, layer ∈ (change sources).layers ↔
      layer = added ∨ layer ∈ (sources.erase added.name).layers) :
    Holds (lists.update profile Sources.empty change) added ∧
      (∀ source, Holds (lists.update profile Sources.empty change) source →
        source = added ∨ Holds lists source) ∧
      ∀ source, Holds lists source → source.name ≠ added.name →
        Holds (lists.update profile Sources.empty change) source := by
  refine ⟨?_, ?_, ?_⟩
  · exact (holds_update_iff _ _ _ _).mpr (Or.inl ((adds _ _).mpr (Or.inl rfl)))
  · intro source holds
    rcases (holds_update_iff _ _ _ _).mp holds with inside | ⟨entry, member, _, inside⟩
    · rcases (adds _ _).mp inside with same | before
      · exact Or.inl same
      · exact Or.inr (holds_of_mem_getD (Sources.mem_of_mem_erase before))
    · exact Or.inr ⟨entry, member, inside⟩
  · rintro source ⟨entry, member, inside⟩ different
    apply (holds_update_iff _ _ _ _).mpr
    by_cases same : entry.1 = profile
    · have found := (KeyedList.get?_eq_some_iff _ _ _).mpr member
      rw [same] at found
      rw [found]
      exact Or.inl ((adds _ _).mpr (Or.inr (Sources.mem_erase_of_ne inside different)))
    · exact Or.inr ⟨entry, member, same, inside⟩

theorem any_contains_iff (lists : Lists) (name : String) :
    lists.entries.any (fun entry => entry.2.contains name) = true ↔ HasName lists name := by
  simp only [List.any_eq_true, Sources.contains_iff, HasName, Holds]
  constructor
  · rintro ⟨entry, member, layer, inside, named⟩
    exact ⟨layer, ⟨entry, member, inside⟩, named⟩
  · rintro ⟨layer, ⟨entry, member, inside⟩, named⟩
    exact ⟨entry, member, layer, inside, named⟩

/-- What entering a document does: its source may join, its name is there, no name is lost. -/
structure Enters (lists later : Lists) (added : Source) : Prop where
  holds : ∀ source, Holds later source → source = added ∨ Holds lists source
  named : HasName later added.name
  kept : ∀ name, HasName lists name → HasName later name

theorem enters_update {lists : Lists} {profile : Option String} {added : Source}
    {change : Sources → Sources}
    (adds : ∀ sources layer, layer ∈ (change sources).layers ↔
      layer = added ∨ layer ∈ (sources.erase added.name).layers) :
    Enters lists (lists.update profile Sources.empty change) added := by
  rcases @holds_update_add lists profile added change adds with ⟨new, only, others⟩
  refine ⟨only, ⟨added, new, rfl⟩, ?_⟩
  rintro name ⟨source, holds, rfl⟩
  by_cases same : source.name = added.name
  · exact ⟨added, new, same.symm⟩
  · exact ⟨source, others source holds same, rfl⟩

theorem enters_enter (lists : Lists) (taken : Taken) :
    Enters lists (lists.enter taken) taken.document.source := by
  unfold enter
  cases taken.pass with
  | regular => exact enters_update fun sources layer => Sources.mem_addLast_iff sources _ layer
  | leftover =>
      simp only
      split
      · next present =>
          exact ⟨fun _ holds => Or.inr holds, (any_contains_iff _ _).mp present,
            fun _ named => named⟩
      · exact enters_update fun sources layer => Sources.mem_addFirst_iff sources _ layer

theorem enters_foldl {lists : Lists} {log : List Taken} :
    (∀ source, Holds (log.foldl enter lists) source →
      Holds lists source ∨ ∃ taken ∈ log, source = taken.document.source) ∧
    (∀ taken ∈ log, HasName (log.foldl enter lists) taken.document.source.name) ∧
    ∀ name, HasName lists name → HasName (log.foldl enter lists) name := by
  induction log generalizing lists with
  | nil =>
      refine ⟨fun _ holds => Or.inl holds, ?_, fun _ named => named⟩
      intro taken member
      cases member
  | cons head tail ih =>
      have step := enters_enter lists head
      rcases @ih (lists.enter head) with ⟨holds, named, kept⟩
      refine ⟨?_, ?_, fun name before => kept name (step.kept name before)⟩
      · intro source final
        rcases holds source final with between | ⟨taken, later, same⟩
        · rcases step.holds source between with same | before
          · exact Or.inr ⟨head, List.mem_cons_self, same⟩
          · exact Or.inl before
        · exact Or.inr ⟨taken, List.mem_cons_of_mem _ later, same⟩
      · intro taken member
        rcases List.mem_cons.mp member with same | later
        · exact same ▸ kept _ step.named
        · exact named taken later

/-- The lists hold only sources of documents that were taken. -/
theorem exists_taken_of_holds {log : List Taken} {source : Source}
    (holds : Holds (ofLog log) source) : ∃ taken ∈ log, source = taken.document.source := by
  rcases enters_foldl.1 source holds with ⟨entry, member, _⟩ | found
  · cases member
  · exact found

/-- Each document that was taken left a source of its name in the lists. -/
theorem hasName_of_mem {log : List Taken} {taken : Taken} (member : taken ∈ log) :
    HasName (ofLog log) taken.document.source.name :=
  enters_foldl.2.1 taken member

/-! ## One source of each name -/

theorem mem_of_mem_firstByName {seen : List String} {sources : List Source} {source : Source}
    (member : source ∈ firstByName seen sources) : source ∈ sources ∧ source.name ∉ seen := by
  induction sources generalizing seen with
  | nil => cases member
  | cons head tail ih =>
      unfold firstByName at member
      split at member
      · exact ⟨List.mem_cons_of_mem _ (ih member).1, (ih member).2⟩
      · next fresh =>
          rcases List.mem_cons.mp member with rfl | later
          · exact ⟨List.mem_cons_self, fresh⟩
          · have unseen := (ih later).2
            exact ⟨List.mem_cons_of_mem _ (ih later).1,
              fun before => unseen (List.mem_cons_of_mem _ before)⟩

theorem exists_mem_firstByName {seen : List String} {sources : List Source} {source : Source}
    (member : source ∈ sources) (fresh : source.name ∉ seen) :
    ∃ kept ∈ firstByName seen sources, kept.name = source.name := by
  induction sources generalizing seen with
  | nil => cases member
  | cons head tail ih =>
      unfold firstByName
      rcases List.mem_cons.mp member with rfl | later
      · rw [if_neg fresh]
        exact ⟨source, List.mem_cons_self, rfl⟩
      · split
        · exact ih later fresh
        · by_cases same : source.name = head.name
          · exact ⟨head, List.mem_cons_self, same.symm⟩
          · have unseen : source.name ∉ head.name :: seen := by
              rw [List.mem_cons, not_or]
              exact ⟨same, fresh⟩
            rcases ih later unseen with ⟨kept, inside, named⟩
            exact ⟨kept, List.mem_cons_of_mem _ inside, named⟩

theorem nodup_names_firstByName (seen : List String) (sources : List Source) :
    ((firstByName seen sources).map Source.name).Nodup := by
  induction sources generalizing seen with
  | nil => exact List.nodup_nil
  | cons head tail ih =>
      unfold firstByName
      split
      · exact ih seen
      · rw [List.map_cons, List.nodup_cons]
        refine ⟨?_, ih (head.name :: seen)⟩
        intro repeated
        rcases List.mem_map.mp repeated with ⟨source, member, named⟩
        exact (mem_of_mem_firstByName member).2 (named ▸ List.mem_cons_self)

theorem nodup_names_merged (lists : Lists) : (lists.merged.map Source.name).Nodup :=
  nodup_names_firstByName [] _

theorem mem_layers_iff_holds (lists : Lists) (source : Source) :
    source ∈ lists.entries.reverse.flatMap (fun entry => entry.2.layers) ↔ Holds lists source := by
  simp only [List.mem_flatMap, List.mem_reverse, Holds]

/-- A merged source belongs to a document that was taken. -/
theorem exists_taken_of_mem_merged {log : List Taken} {source : Source}
    (member : source ∈ (ofLog log).merged) : ∃ taken ∈ log, source = taken.document.source :=
  exists_taken_of_holds ((mem_layers_iff_holds _ _).mp (mem_of_mem_firstByName member).1)

/-- For each document that was taken there is a merged source of its name. -/
theorem exists_mem_merged {log : List Taken} {taken : Taken} (member : taken ∈ log) :
    ∃ source ∈ (ofLog log).merged, source.name = taken.document.source.name := by
  rcases hasName_of_mem member with ⟨source, holds, named⟩
  have listed := (mem_layers_iff_holds _ source).mpr holds
  rcases exists_mem_firstByName listed (List.not_mem_nil) with ⟨kept, inside, same⟩
  exact ⟨kept, inside, same.trans named⟩

end Lists

/-! ## Splicing sources into others -/

theorem splice_cons (sources : Sources) (previous : Option String) (source : Source)
    (rest : List Source) :
    ∃ placed, splice sources previous (source :: rest) = splice placed (some source.name) rest ∧
      ∀ layer, layer ∈ placed.layers ↔
        layer = source ∨ layer ∈ (sources.erase source.name).layers := by
  refine ⟨_, rfl, fun layer => ?_⟩
  cases previous with
  | some name => exact Sources.mem_addAfter_iff sources name source layer
  | none =>
      simp only
      split
      · exact Sources.mem_addBefore_iff sources _ source layer
      · exact Sources.mem_addLast_iff sources source layer

/-- A source stays when none of its name is spliced in. -/
theorem mem_splice_of_mem {sources : Sources} {previous : Option String} {more : List Source}
    {layer : Source} (member : layer ∈ sources.layers)
    (other : layer.name ∉ more.map Source.name) :
    layer ∈ (splice sources previous more).layers := by
  induction more generalizing sources previous with
  | nil => exact member
  | cons head tail ih =>
      rcases splice_cons sources previous head tail with ⟨placed, step, holds⟩
      rw [List.map_cons, List.mem_cons, not_or] at other
      rw [step]
      exact ih ((holds layer).mpr (Or.inr (Sources.mem_erase_of_ne member other.1))) other.2

/-- Sources of distinct names are all spliced in. -/
theorem mem_splice {sources : Sources} {previous : Option String} {more : List Source}
    (distinct : (more.map Source.name).Nodup) {source : Source} (member : source ∈ more) :
    source ∈ (splice sources previous more).layers := by
  induction more generalizing sources previous with
  | nil => cases member
  | cons head tail ih =>
      rcases splice_cons sources previous head tail with ⟨placed, step, holds⟩
      rw [List.map_cons, List.nodup_cons] at distinct
      rw [step]
      rcases List.mem_cons.mp member with rfl | later
      · exact mem_splice_of_mem ((holds source).mpr (Or.inl rfl)) distinct.1
      · exact ih distinct.2 later

/-- What the sources are after splicing was there before or was spliced in. -/
theorem mem_or_mem_of_mem_splice {sources : Sources} {previous : Option String}
    {more : List Source} {layer : Source}
    (member : layer ∈ (splice sources previous more).layers) :
    layer ∈ sources.layers ∨ layer ∈ more := by
  induction more generalizing sources previous with
  | nil => exact Or.inl member
  | cons head tail ih =>
      rcases splice_cons sources previous head tail with ⟨placed, step, holds⟩
      rw [step] at member
      rcases ih member with between | later
      · rcases (holds layer).mp between with same | before
        · exact Or.inr (same ▸ List.mem_cons_self)
        · exact Or.inl (Sources.mem_of_mem_erase before)
      · exact Or.inr (List.mem_cons_of_mem _ later)

/-- The names after merging are those from before and those of what was taken. -/
theorem mem_names_merge_iff (progress : Progress) (name : String) :
    name ∈ progress.merge.sources.names ↔
      name ∈ progress.environment.sources.names ∨
        ∃ taken ∈ progress.log, taken.document.source.name = name := by
  constructor
  · intro member
    rcases List.mem_map.mp member with ⟨layer, inside, rfl⟩
    rcases mem_or_mem_of_mem_splice inside with before | merged
    · exact .inl (List.mem_map_of_mem before)
    · rcases Lists.exists_taken_of_mem_merged merged with ⟨taken, logged, rfl⟩
      exact .inr ⟨taken, logged, rfl⟩
  · have merges : ∀ source ∈ (Lists.ofLog progress.log).merged,
        source.name ∈ progress.merge.sources.names := fun source member =>
      List.mem_map_of_mem (mem_splice (Lists.nodup_names_merged _) member)
    rintro (before | ⟨taken, logged, rfl⟩)
    · rcases List.mem_map.mp before with ⟨layer, inside, rfl⟩
      by_cases among : layer.name ∈ (Lists.ofLog progress.log).merged.map Source.name
      · rcases List.mem_map.mp among with ⟨source, member, named⟩
        exact named ▸ merges source member
      · exact List.mem_map_of_mem (mem_splice_of_mem inside among)
    · rcases Lists.exists_mem_merged logged with ⟨source, member, named⟩
      exact named ▸ merges source member

end Assembly
end LayeredConfig

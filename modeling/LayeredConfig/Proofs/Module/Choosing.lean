import LayeredConfig.Module.Selection
import LayeredConfig.Proofs.Module.Filtering
import LayeredConfig.Proofs.Module.Ordering

namespace LayeredConfig
namespace Module
namespace Selection

/-!
# What becomes of the modules of the catalog

A choice that succeeds leaves out the exclusions, lets the filters look at the
rest and puts in order what they keep.  So each module of the catalog is
excluded, selected once or rejected, and the report tells which.
-/

variable {catalog : Catalog} {filters : List Filter} {environment : Environment}
  {metadata : Metadata} {explicit : List String}

/-- The modules at which the filters look. -/
def remaining (catalog : Catalog) (excluded : List String) : List String :=
  catalog.modules.filter fun module => !excluded.contains module

theorem mem_remaining_iff (catalog : Catalog) (excluded : List String) (module : String) :
    module ∈ remaining catalog excluded ↔ module ∈ catalog.modules ∧ module ∉ excluded := by
  rw [remaining, List.mem_filter, Bool.not_eq_true', ← Bool.not_eq_true, List.contains_iff_mem]

theorem nodup_remaining (catalog : Catalog) (excluded : List String) :
    (remaining catalog excluded).Nodup :=
  catalog.distinct.filter _

/-- What the filters keep of the rest of the catalog, and the report with their findings. -/
def filtered (catalog : Catalog) (filters : List Filter) (metadata : Metadata)
    (excluded : List String) (report : Report) : List String × Report :=
  Filter.run filters metadata (remaining catalog excluded) report

/-- A choice with valid exclusions. -/
theorem select_of_valid {report : Report} {excluded : List String}
    (enabled : environment.getBool Property.Keys.modulesEnabled true = true)
    (merged : mergeExclusions environment explicit = .ok excluded)
    (valid : invalid catalog metadata excluded = []) :
    select catalog filters environment metadata explicit report =
      { result := (order metadata (filtered catalog filters metadata excluded report).1).map
          fun modules => ⟨modules, excluded⟩
        report := ((filtered catalog filters metadata excluded report).2.addCandidates
          (filtered catalog filters metadata excluded report).1).addExclusions excluded
        announced := some ⟨(filtered catalog filters metadata excluded report).1, excluded⟩ } := by
  rw [select, enabled, merged]
  simp only [Bool.not_true, Bool.false_eq_true, if_false, valid, ne_eq, not_true_eq_false]
  rfl

/-- A choice that succeeds while modules are chosen at all has put in order what the filters
keep, and its report has their findings. -/
theorem exists_of_select {report : Report} {selection : Selection}
    (enabled : environment.getBool Property.Keys.modulesEnabled true = true)
    (chosen : (select catalog filters environment metadata explicit report).result =
      .ok selection) :
    ∃ kept judged,
      Filter.run filters metadata (remaining catalog selection.exclusions) report =
        (kept, judged) ∧
      order metadata kept = .ok selection.modules ∧
      (select catalog filters environment metadata explicit report).report =
        (judged.addCandidates kept).addExclusions selection.exclusions := by
  cases merged : mergeExclusions environment explicit with
  | error error =>
      rw [select, enabled, merged] at chosen
      cases chosen
  | ok excluded =>
      by_cases valid : invalid catalog metadata excluded = []
      · rw [select_of_valid enabled merged valid] at chosen ⊢
        cases ordered : order metadata (filtered catalog filters metadata excluded report).1 with
        | error error =>
            rw [ordered] at chosen
            cases chosen
        | ok modules =>
            rw [ordered] at chosen
            cases chosen
            exact ⟨_, _, rfl, ordered, rfl⟩
      · rw [select, enabled, merged] at chosen
        simp only [Bool.not_true, Bool.false_eq_true, if_false, valid, ne_eq, not_false_eq_true,
          if_true] at chosen
        cases chosen

/-! ## The report of a choice -/

/-- A report in which there are findings only. -/
structure Unconcluded (report : Report) : Prop where
  candidates : report.candidates = []
  exclusions : report.exclusions = []
  tidy : report.Tidy

theorem unconcluded_empty : Unconcluded Report.empty where
  candidates := rfl
  exclusions := rfl
  tidy := Report.tidy_empty

/-- While the filters look nothing is recorded but findings. -/
theorem unconcluded_of_run (filters : List Filter) (metadata : Metadata)
    (candidates : List String) :
    Unconcluded (Filter.run filters metadata candidates Report.empty).2 := by
  refine Filter.keeps_run ?_ filters metadata candidates unconcluded_empty
  intro report module condition verdict before
  exact ⟨before.candidates, before.exclusions, before.tidy.record module condition verdict⟩

theorem isFullMatch_concluded (report : Report) (kept excluded : List String)
    (module : String) :
    ((report.addCandidates kept).addExclusions excluded).isFullMatch module =
      report.isFullMatch module := rfl

/-- The modules that no condition spoke of are those that were kept without a finding. -/
theorem mem_unconditional_iff {judged : Report} (unconcluded : Unconcluded judged)
    {kept excluded : List String} (apart : ∀ module ∈ kept, module ∉ excluded) (module : String) :
    module ∈ ((judged.addCandidates kept).addExclusions excluded).unconditional ↔
      module ∈ kept ∧ judged.findingsOn module = [] := by
  have listed : module ∈ Names.addAll judged.candidates kept ↔ module ∈ kept := by
    rw [unconcluded.candidates, Names.mem_addAll, or_iff_right List.not_mem_nil]
  have barred : module ∈ Names.addAll judged.exclusions excluded ↔ module ∈ excluded := by
    rw [unconcluded.exclusions, Names.mem_addAll, or_iff_right List.not_mem_nil]
  have silent := unconcluded.tidy.contains_eq_false_iff module
  rw [Report.unconditional, List.mem_filter, Bool.and_eq_true, Bool.not_eq_true',
    Bool.not_eq_true']
  constructor
  · rintro ⟨inside, unspoken, _⟩
    exact ⟨listed.mp inside, silent.mp unspoken⟩
  · rintro ⟨inside, unspoken⟩
    refine ⟨listed.mpr inside, silent.mpr unspoken, ?_⟩
    rw [← Bool.not_eq_true]
    exact fun found => apart module inside (barred.mp (List.contains_iff_mem.mp found))

/-- Of the catalog the filters keep what is not excluded and a full match. -/
theorem excluded_or_kept_or_dropped {excluded kept : List String} {judged : Report}
    (division : Filter.Judged (remaining catalog excluded) kept judged) {module : String}
    (member : module ∈ catalog.modules) :
    (module ∈ excluded ∧ module ∉ kept ∧ judged.isFullMatch module = true) ∨
      (module ∉ excluded ∧ module ∈ kept ∧ judged.isFullMatch module = true) ∨
      (module ∉ excluded ∧ module ∉ kept ∧ judged.isFullMatch module = false) := by
  by_cases barred : module ∈ excluded
  · have outside : module ∉ remaining catalog excluded := fun inside =>
      ((mem_remaining_iff _ _ _).mp inside).2 barred
    exact .inl ⟨barred, fun inside => outside (division.sublist.mem inside),
      division.isFullMatch_of_not_mem outside⟩
  · have kept := division.mem_kept_iff ((mem_remaining_iff _ _ _).mpr ⟨member, barred⟩)
    cases verdict : judged.isFullMatch module with
    | true => exact .inr (.inl ⟨barred, kept.mpr verdict, rfl⟩)
    | false =>
        refine .inr (.inr ⟨barred, ?_, rfl⟩)
        rw [kept, verdict]
        exact Bool.false_ne_true

/-! ## Main result -/

/-- Each module of the catalog is excluded, or selected once, or rejected with a finding against
it.  Nothing else is selected; what is not excluded is selected exactly when the findings are all
favourable, and what is selected is unconditional exactly when there are none. -/
theorem catalog_divided {selection : Selection}
    (enabled : environment.getBool Property.Keys.modulesEnabled true = true)
    (chosen : (select catalog filters environment metadata explicit Report.empty).result =
      .ok selection) :
    let report := (select catalog filters environment metadata explicit Report.empty).report
    (∀ module ∈ catalog.modules,
      (module ∈ selection.exclusions ∧ selection.modules.count module = 0 ∧
        ¬ ∃ finding, (module, finding) ∈ report.rejections) ∨
      (module ∉ selection.exclusions ∧ selection.modules.count module = 1 ∧
        ¬ ∃ finding, (module, finding) ∈ report.rejections) ∨
      (module ∉ selection.exclusions ∧ selection.modules.count module = 0 ∧
        ∃ finding, (module, finding) ∈ report.rejections)) ∧
    (∀ module ∈ selection.modules, module ∈ catalog.modules) ∧
    (∀ module ∈ catalog.modules, module ∉ selection.exclusions →
      (module ∈ selection.modules ↔ report.isFullMatch module = true)) ∧
    ∀ module, module ∈ report.unconditional ↔
      module ∈ selection.modules ∧ report.findingsOn module = [] := by
  rcases exists_of_select enabled chosen with ⟨kept, judged, ran, ordered, reported⟩
  have division := Filter.judged_run filters metadata (nodup_remaining catalog selection.exclusions)
  have unconcluded := unconcluded_of_run filters metadata (remaining catalog selection.exclusions)
  rw [ran] at division unconcluded
  dsimp only at division unconcluded ⊢
  have candidate : ∀ module ∈ kept, module ∈ remaining catalog selection.exclusions :=
    fun module inside => division.sublist.mem inside
  -- What is left to show is about what the filters keep and what they find.
  simp only [reported, Report.exists_rejection_iff, isFullMatch_concluded,
    mem_iff_of_order ordered, count_of_order ordered, Bool.not_eq_false]
  refine ⟨?_, ?_, ?_, ?_⟩
  · intro module member
    rcases excluded_or_kept_or_dropped division member with
      ⟨excluded, dropped, favourable⟩ | ⟨included, selected, favourable⟩ |
        ⟨included, dropped, rejected⟩
    · exact .inl ⟨excluded, if_neg dropped, favourable⟩
    · exact .inr (.inl ⟨included, if_pos selected, favourable⟩)
    · exact .inr (.inr ⟨included, if_neg dropped, rejected⟩)
  · intro module inside
    exact ((mem_remaining_iff _ _ _).mp (candidate module inside)).1
  · intro module member included
    exact division.mem_kept_iff ((mem_remaining_iff _ _ _).mpr ⟨member, included⟩)
  · exact mem_unconditional_iff unconcluded fun module inside =>
      ((mem_remaining_iff _ _ _).mp (candidate module inside)).2

/-- Of four modules `b` needs a capability, `d` needs an application that serves web requests and
the others need nothing. -/
def fourModules : Catalog :=
  Catalog.ofModules ["a", "b", "c", "d"]

/-- The facts of the four modules. -/
def needs : Metadata where
  table := KeyedList.ofList [("a", ""), ("b", ""), ("b.ConditionalOnCapability", "x"), ("d", ""),
    ("d.ConditionalOnApplicationKind", "any")]
  manifest := none

/-- No capability is present, and the application serves web requests. -/
def webOnly : List Filter :=
  [Filter.onCapability (fun _ => false) 1, Filter.onApplicationKind .servlet]

/-- The choice from the four modules with `c` excluded. -/
def choice : Outcome :=
  select fourModules webOnly Environment.initial needs ["c"] Report.empty

/-- All that can become of a module becomes of one of the four. -/
theorem catalog_divided_fourModules :
    Environment.initial.getBool Property.Keys.modulesEnabled true = true ∧
      choice.result = .ok ⟨["a", "d"], ["c"]⟩ ∧
      (∃ finding, ("b", finding) ∈ choice.report.rejections) ∧
      (¬ ∃ finding, ("c", finding) ∈ choice.report.rejections) ∧
      choice.report.isFullMatch "d" = true ∧ "d" ∉ choice.report.unconditional ∧
      "a" ∈ choice.report.unconditional := by
  have enabled : Environment.initial.getBool Property.Keys.modulesEnabled true = true := by cbv
  have chosen : choice.result = .ok ⟨["a", "d"], ["c"]⟩ := by cbv
  rcases catalog_divided enabled chosen with ⟨divided, _, selected, silent⟩
  have catalog : fourModules.modules = ["a", "b", "c", "d"] := by cbv
  rw [catalog] at divided selected
  have spokenOf : choice.report.findingsOn "d" =
      [⟨"OnApplicationKindCondition", .accept "found servlet application"⟩] := by cbv
  have unspoken : choice.report.findingsOn "a" = [] := by cbv
  refine ⟨enabled, chosen, ?_, ?_, (selected "d" (by decide) (by decide)).mp (by decide), ?_,
    (silent "a").mpr ⟨by decide, unspoken⟩⟩
  · rcases divided "b" (by decide) with ⟨excluded, _⟩ | ⟨_, once, _⟩ | ⟨_, _, rejected⟩
    · exact absurd excluded (by decide)
    · exact absurd once (by decide)
    · exact rejected
  · rcases divided "c" (by decide) with ⟨_, _, clean⟩ | ⟨included, _⟩ | ⟨included, _⟩
    · exact clean
    · exact absurd included (by decide)
    · exact absurd included (by decide)
  · intro listed
    cases spokenOf.symm.trans ((silent "d").mp listed).2

end Selection
end Module
end LayeredConfig

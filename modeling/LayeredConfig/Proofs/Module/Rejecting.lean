import LayeredConfig.Proofs.Module.Filtering

namespace LayeredConfig
namespace Module

/-!
# One rejection for each dropped module

A filter may give any number of verdicts, also on slots that are empty or do not
exist.  Only those on a candidate count, and a candidate that is rejected leaves
its slot.  So at most one finding in the report is against it, no finding comes
after that one, and no later filter brings the candidate back.
-/

/-! ## The rejections of one module -/

/-- Parts that are told by the whole they are of are found by first finding the whole. -/
theorem filter_flatMap_of_whole {Whole Part : Type} {parts : Whole → List Part}
    {ofWhole : Whole → Bool} {ofPart : Part → Bool}
    (told : ∀ whole, ∀ part ∈ parts whole, ofPart part = ofWhole whole) (wholes : List Whole) :
    (wholes.flatMap parts).filter ofPart = (wholes.filter ofWhole).flatMap parts := by
  induction wholes with
  | nil => rfl
  | cons head tail ih =>
      rw [List.flatMap_cons, List.filter_append, ih, List.filter_cons]
      have own : (parts head).filter ofPart = if ofWhole head then parts head else [] := by
        cases found : ofWhole head with
        | true =>
            exact List.filter_eq_self.mpr fun part inside => (told head part inside).trans found
        | false =>
            refine List.filter_eq_nil_iff.mpr fun part inside => ?_
            rw [told head part inside, found]
            exact Bool.false_ne_true
      rw [own]
      split
      · rw [List.flatMap_cons]
      · rw [List.nil_append]

namespace Report

theorem rejections_of_module (report : Report) (module : String) :
    report.rejections.filter (fun rejection => rejection.1 = module) =
      ((report.findingsOn module).filter fun finding => !finding.verdict.holds).map
        fun finding => (module, finding) := by
  have told : ∀ entry : String × List Finding,
      ∀ rejection ∈ (entry.2.filter fun finding => !finding.verdict.holds).map fun finding =>
          (entry.1, finding),
        decide (rejection.1 = module) = decide (entry.1 = module) := by
    intro entry rejection inside
    rcases List.mem_map.mp inside with ⟨finding, _, rfl⟩
    rfl
  rw [rejections, filter_flatMap_of_whole told, KeyedList.filter_entries, findingsOn]
  cases report.findings.get? module with
  | none => rfl
  | some findings => exact List.flatMap_singleton _ _

end Report

namespace Filter

/-! ## Filters that come later -/

theorem runSlots_append (metadata : Metadata) (first second : List Filter)
    (slots : List (Option String)) (report : Report) :
    runSlots metadata (first ++ second) slots report =
      runSlots metadata second (runSlots metadata first slots report).1
        (runSlots metadata first slots report).2 := by
  induction first generalizing slots report with
  | nil => rfl
  | cons filter rest ih => exact ih _ _

/-- Filters at work on a row bring nothing into it, and what is not in it keeps its findings. -/
theorem narrows_runSlots (filters : List Filter) (metadata : Metadata)
    {slots : List (Option String)} (distinct : slots.reduceOption.Nodup) (report : Report) :
    (runSlots metadata filters slots report).1.reduceOption.Sublist slots.reduceOption ∧
      ∀ module ∉ slots.reduceOption,
        (runSlots metadata filters slots report).2.findingsOn module =
          report.findingsOn module := by
  induction filters generalizing slots report with
  | nil => exact ⟨List.Sublist.refl _, fun _ _ => rfl⟩
  | cons filter rest ih =>
      have judges := judges_enter filter.name (filter.verdicts slots metadata) distinct report
      rcases ih (distinct.sublist judges.sublist) (filter.judge metadata slots report).2 with
        ⟨narrower, silent⟩
      refine ⟨narrower.trans judges.sublist, fun module absent => ?_⟩
      rw [← judges.outside module absent]
      exact silent module fun inside => absent (judges.sublist.mem inside)

/-- What the first filters drop stays dropped, with the findings that it has by then. -/
theorem dropped_by_first (first second : List Filter) (metadata : Metadata)
    {candidates : List String} (distinct : candidates.Nodup) :
    (run (first ++ second) metadata candidates Report.empty).1.Sublist
        (run first metadata candidates Report.empty).1 ∧
      ∀ module ∉ (run first metadata candidates Report.empty).1,
        (run (first ++ second) metadata candidates Report.empty).2.findingsOn module =
          (run first metadata candidates Report.empty).2.findingsOn module := by
  have left := (judged_run first metadata distinct).sublist
  have combined := runSlots_append metadata first second (candidates.map some) Report.empty
  have narrows := narrows_runSlots second metadata (distinct.sublist left)
    (runSlots metadata first (candidates.map some) Report.empty).2
  rw [← combined] at narrows
  exact narrows

/-! ## One rejection at most -/

namespace Judged

variable {candidates kept : List String} {report : Report} {module : String}

/-- The one finding against a candidate that was dropped is the last one on it. -/
theorem rejected_of_dropped (judged : Judged candidates kept report)
    (candidate : module ∈ candidates) (dropped : module ∉ kept) :
    ∃ finding, report.rejections.filter (fun rejection => rejection.1 = module) =
        [(module, finding)] ∧
      (report.findingsOn module).getLast? = some finding := by
  rcases judged.left module candidate dropped with ⟨earlier, finding, findings, held, against⟩
  refine ⟨finding, ?_, by rw [findings, List.getLast?_concat]⟩
  have favourable : earlier.filter (fun previous => !previous.verdict.holds) = [] := by
    rw [List.filter_eq_nil_iff]
    intro previous inside
    rw [held previous inside]
    exact Bool.false_ne_true
  rw [Report.rejections_of_module, findings, List.filter_append, favourable,
    List.filter_cons_of_pos (by rw [against]; rfl)]
  rfl

/-- Nothing stands against a module that was kept or was no candidate. -/
theorem rejections_eq_nil (judged : Judged candidates kept report)
    (clear : module ∈ kept ∨ module ∉ candidates) :
    report.rejections.filter (fun rejection => rejection.1 = module) = [] := by
  rw [Report.rejections_of_module, List.map_eq_nil_iff, List.filter_eq_nil_iff]
  intro finding found
  rcases clear with inside | absent
  · rw [judged.stayed module inside finding found]
    exact Bool.false_ne_true
  · rw [judged.outside module absent] at found
    cases found

/-- What stands against a module is the last finding on it, and the module was a candidate. -/
theorem last_of_rejection (judged : Judged candidates kept report) {finding : Finding}
    (rejected : (module, finding) ∈ report.rejections) :
    module ∈ candidates ∧ (report.findingsOn module).getLast? = some finding := by
  have listed : (module, finding) ∈
      report.rejections.filter fun rejection => rejection.1 = module :=
    List.mem_filter.mpr ⟨rejected, decide_eq_true rfl⟩
  by_cases clear : module ∈ kept ∨ module ∉ candidates
  · rw [judged.rejections_eq_nil clear] at listed
    cases listed
  · rcases not_or.mp clear with ⟨dropped, candidate⟩
    have candidate := not_not.mp candidate
    rcases judged.rejected_of_dropped candidate dropped with ⟨only, alone, last⟩
    rw [alone, List.mem_singleton, Prod.mk.injEq] at listed
    exact ⟨candidate, listed.2 ▸ last⟩

end Judged

/-! ## Main result -/

/-- Whatever the filters say, a pipeline keeps some of distinct candidates in their order.  A
candidate is dropped exactly when the report has one rejection of it, which is the last finding on
it; all findings on a candidate that is kept are favourable, and the report has nothing on a module
that is no candidate.  What the first filters drop does not come back, and nothing more is said
about it. -/
theorem dropped_iff_one_rejection (filters : List Filter) (metadata : Metadata)
    {candidates : List String} (distinct : candidates.Nodup) :
    let kept := (run filters metadata candidates Report.empty).1
    let report := (run filters metadata candidates Report.empty).2
    kept.Sublist candidates ∧
    (∀ module ∈ candidates, module ∉ kept ↔
      ∃ finding, report.rejections.filter (fun rejection => rejection.1 = module) =
        [(module, finding)]) ∧
    (∀ module finding, (module, finding) ∈ report.rejections →
      module ∈ candidates ∧ (report.findingsOn module).getLast? = some finding) ∧
    (∀ module ∈ kept, ∀ finding ∈ report.findingsOn module, finding.verdict.holds = true) ∧
    (∀ module ∉ candidates, report.findings.contains module = false) ∧
    ∀ first second, filters = first ++ second →
      kept.Sublist (run first metadata candidates Report.empty).1 ∧
      ∀ module ∉ (run first metadata candidates Report.empty).1,
        report.findingsOn module =
          (run first metadata candidates Report.empty).2.findingsOn module := by
  have judged := judged_run filters metadata distinct
  have tidy : (run filters metadata candidates Report.empty).2.Tidy :=
    keeps_run (fun _ module condition verdict before => before.record module condition verdict)
      filters metadata candidates Report.tidy_empty
  dsimp only
  refine ⟨judged.sublist, ?_, fun _ _ => judged.last_of_rejection, judged.stayed, ?_, ?_⟩
  · intro module candidate
    constructor
    · intro dropped
      rcases judged.rejected_of_dropped candidate dropped with ⟨finding, alone, _⟩
      exact ⟨finding, alone⟩
    · rintro ⟨finding, alone⟩ inside
      rw [judged.rejections_eq_nil (.inl inside)] at alone
      cases alone
  · intro module absent
    exact (tidy.contains_eq_false_iff module).mpr (judged.outside module absent)
  · rintro first second rfl
    exact dropped_by_first first second metadata distinct

/-- Says no to the first slot and nothing on the others. -/
def short : Filter where
  name := "short"
  verdicts := fun _ _ => [some (.reject "first")]

/-- Has something to say on five slots, whatever is in them. -/
def long : Filter where
  name := "long"
  verdicts := fun _ _ =>
    [some (.accept "again"), some (.accept "fine"), some (.reject "third"),
      some (.reject "fourth"), some (.accept "fifth")]

/-- Verdicts that are too few or too many, and on an empty slot. -/
theorem dropped_iff_one_rejection_short_long :
    ["a", "b", "c"].Nodup ∧
      (run [short, long] Metadata.empty ["a", "b", "c"] Report.empty).1 = ["b"] ∧
      (∃ finding, (run [short, long] Metadata.empty ["a", "b", "c"]
        Report.empty).2.rejections.filter (fun rejection => rejection.1 = "a") =
          [("a", finding)]) ∧
      (run [short, long] Metadata.empty ["a", "b", "c"] Report.empty).2.findings.contains "d" =
        false := by
  have distinct : ["a", "b", "c"].Nodup := by decide
  rcases dropped_iff_one_rejection [short, long] Metadata.empty distinct with
    ⟨_, dropped, _, _, silent, _⟩
  have kept : (run [short, long] Metadata.empty ["a", "b", "c"] Report.empty).1 = ["b"] := by
    decide
  refine ⟨distinct, kept, (dropped "a" (by decide)).mp ?_, silent "d" (by decide)⟩
  rw [kept]
  decide

end Filter
end Module
end LayeredConfig

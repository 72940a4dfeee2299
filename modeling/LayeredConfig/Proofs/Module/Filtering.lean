import LayeredConfig.Module.Filter
import LayeredConfig.Proofs.KeyedList
import Mathlib.Data.List.Nodup
import Mathlib.Data.List.ReduceOption

namespace LayeredConfig
namespace Module

/-!
# What filters leave and what they report

Distinct candidates stand in slots of their own, so a filter has at most one
thing to say on each.  It keeps a candidate on which it is silent or favourable
and drops one that it rejects, and the report grows by just that finding.  Along
a pipeline this adds up: what is kept has favourable findings only, and the
findings on what is dropped end with the one rejection.
-/

/-! ## Reports -/

namespace Report

theorem findingsOn_record_self (report : Report) (module condition : String)
    (verdict : Verdict) :
    (report.record module condition verdict).findingsOn module =
      report.findingsOn module ++ [⟨condition, verdict⟩] := by
  rw [findingsOn, record, KeyedList.update, KeyedList.get?_insert, if_pos rfl, Option.getD_some,
    findingsOn]

theorem findingsOn_record_of_ne (report : Report) {module other : String}
    (different : other ≠ module) (condition : String) (verdict : Verdict) :
    (report.record module condition verdict).findingsOn other = report.findingsOn other := by
  rw [findingsOn, record, KeyedList.update, KeyedList.get?_insert, if_neg different, findingsOn]

theorem mem_rejections_iff (report : Report) (module : String) (finding : Finding) :
    (module, finding) ∈ report.rejections ↔
      finding ∈ report.findingsOn module ∧ finding.verdict.holds = false := by
  rw [rejections, List.mem_flatMap]
  constructor
  · rintro ⟨⟨listed, findings⟩, entry, inside⟩
    rcases List.mem_map.mp inside with ⟨other, kept, same⟩
    rw [Prod.mk.injEq] at same
    rcases same with ⟨rfl, rfl⟩
    rcases List.mem_filter.mp kept with ⟨found, rejected⟩
    rw [findingsOn, (KeyedList.get?_eq_some_iff _ _ _).mpr entry]
    exact ⟨found, (Bool.not_eq_true' _).mp rejected⟩
  · rintro ⟨found, rejected⟩
    rw [findingsOn] at found
    cases stored : report.findings.get? module with
    | none =>
        rw [stored] at found
        cases found
    | some findings =>
        rw [stored, Option.getD_some] at found
        refine ⟨(module, findings), (KeyedList.get?_eq_some_iff _ _ _).mp stored, ?_⟩
        exact List.mem_map.mpr ⟨finding, List.mem_filter.mpr ⟨found, by rw [rejected]; rfl⟩, rfl⟩

/-- Some finding stands against a module exactly when it is no full match. -/
theorem exists_rejection_iff (report : Report) (module : String) :
    (∃ finding, (module, finding) ∈ report.rejections) ↔ report.isFullMatch module = false := by
  simp only [mem_rejections_iff, isFullMatch, List.all_eq_false, Bool.not_eq_true]

/-- No module is listed with nothing said about it. -/
def Tidy (report : Report) : Prop :=
  ∀ module, report.findings.contains module = true → report.findingsOn module ≠ []

theorem tidy_empty : empty.Tidy := by
  intro module listed
  cases listed

theorem Tidy.record {report : Report} (tidy : report.Tidy) (module condition : String)
    (verdict : Verdict) : (report.record module condition verdict).Tidy := by
  intro other listed
  by_cases same : other = module
  · subst same
    rw [findingsOn_record_self]
    exact List.append_ne_nil_of_right_ne_nil _ (List.cons_ne_nil _ _)
  · rw [findingsOn_record_of_ne report same]
    rw [KeyedList.contains_iff_mem_keys] at listed
    refine tidy other ((KeyedList.contains_iff_mem_keys _ _).mpr ?_)
    exact ((KeyedList.mem_keys_insert _ _ _ _).mp listed).resolve_left same

/-- In a tidy report the modules without findings are those that are not listed. -/
theorem Tidy.contains_eq_false_iff {report : Report} (tidy : report.Tidy) (module : String) :
    report.findings.contains module = false ↔ report.findingsOn module = [] := by
  constructor
  · intro unlisted
    have missing : report.findings.get? module = none := by
      rw [KeyedList.get?_eq_none_iff, ← KeyedList.contains_iff_mem_keys, unlisted]
      exact Bool.false_ne_true
    rw [findingsOn, missing, Option.getD_none]
  · intro silent
    rw [Bool.eq_false_iff]
    intro listed
    exact tidy module listed silent

end Report

namespace Filter

/-! ## What every finding keeps -/

section Kept

variable {keeps : Report → Prop}
  (recorded : ∀ report module condition verdict,
    keeps report → keeps (Report.record report module condition verdict))
include recorded

theorem keeps_enter (condition : String) (verdicts : List (Option Verdict))
    (slots : List (Option String)) {report : Report} (before : keeps report) :
    keeps (enter condition verdicts slots report).2 := by
  fun_induction enter condition verdicts slots report with
  | case1 => exact before
  | case2 verdict rest module slots report kept final entered ih =>
      rw [entered] at ih
      exact ih (recorded report module condition verdict before)
  | case3 verdict rest slots report shape kept final entered ih =>
      rw [entered] at ih
      exact ih before

/-- What every finding keeps is kept by a pipeline. -/
theorem keeps_runSlots (filters : List Filter) (metadata : Metadata)
    (slots : List (Option String)) {report : Report} (before : keeps report) :
    keeps (runSlots metadata filters slots report).2 := by
  induction filters generalizing slots report with
  | nil => exact before
  | cons filter rest ih =>
      exact ih _ (keeps_enter recorded filter.name (filter.verdicts slots metadata) slots before)

theorem keeps_run (filters : List Filter) (metadata : Metadata) (candidates : List String)
    {report : Report} (before : keeps report) :
    keeps (run filters metadata candidates report).2 :=
  keeps_runSlots recorded filters metadata (candidates.map some) before

end Kept

/-! ## One filter -/

/-- One filter drops some of the distinct candidates in the slots, each with one finding
against it, and says nothing against the others. -/
structure Judges (before later : List String) (report final : Report) : Prop where
  sublist : later.Sublist before
  outside : ∀ module, module ∉ before → final.findingsOn module = report.findingsOn module
  stays : ∀ module ∈ later, ∃ more, final.findingsOn module = report.findingsOn module ++ more ∧
    ∀ finding ∈ more, finding.verdict.holds = true
  leaves : ∀ module ∈ before, module ∉ later → ∃ finding,
    final.findingsOn module = report.findingsOn module ++ [finding] ∧
      finding.verdict.holds = false

namespace Judges

variable {before later : List String} {report final : Report} {module condition : String}
  {verdict : Verdict}

theorem refl (candidates : List String) (report : Report) :
    Judges candidates candidates report report where
  sublist := List.Sublist.refl candidates
  outside := fun _ _ => rfl
  stays := fun _ _ => ⟨[], (List.append_nil _).symm, fun _ inside => by cases inside⟩
  leaves := fun _ inside dropped => absurd inside dropped

/-- The filter is silent on a first candidate. -/
theorem skip (others : Judges before later report final) (fresh : module ∉ before) :
    Judges (module :: before) (module :: later) report final where
  sublist := others.sublist.cons_cons module
  outside := fun other absent =>
    others.outside other fun inside => absent (List.mem_cons_of_mem module inside)
  stays := by
    intro other inside
    rcases List.mem_cons.mp inside with rfl | later
    · exact ⟨[], by rw [others.outside other fresh, List.append_nil], by simp⟩
    · exact others.stays other later
  leaves := by
    intro other inside dropped
    rw [List.mem_cons, not_or] at dropped
    exact others.leaves other ((List.mem_cons.mp inside).resolve_left dropped.1) dropped.2

/-- A finding on a first candidate is no finding on the others. -/
theorem findingsOn_other
    (others : Judges before later (report.record module condition verdict) final)
    (fresh : module ∉ before) :
    final.findingsOn module = report.findingsOn module ++ [⟨condition, verdict⟩] ∧
      ∀ other ∈ before,
        (report.record module condition verdict).findingsOn other = report.findingsOn other := by
  refine ⟨?_, ?_⟩
  · rw [others.outside module fresh, Report.findingsOn_record_self]
  · intro other inside
    refine Report.findingsOn_record_of_ne report ?_ condition verdict
    rintro rfl
    exact fresh inside

theorem outside_cons (others : Judges before later (report.record module condition verdict) final)
    {other : String} (absent : other ∉ module :: before) :
    final.findingsOn other = report.findingsOn other := by
  rw [List.mem_cons, not_or] at absent
  rw [others.outside other absent.2, Report.findingsOn_record_of_ne report absent.1]

/-- The filter is favourable to a first candidate. -/
theorem accept (others : Judges before later (report.record module condition verdict) final)
    (fresh : module ∉ before) (holds : verdict.holds = true) :
    Judges (module :: before) (module :: later) report final where
  sublist := others.sublist.cons_cons module
  outside := fun _ absent => others.outside_cons absent
  stays := by
    rcases others.findingsOn_other fresh with ⟨own, same⟩
    intro other inside
    rcases List.mem_cons.mp inside with rfl | inside
    · exact ⟨_, own, fun finding only => List.mem_singleton.mp only ▸ holds⟩
    · rw [← same other (others.sublist.mem inside)]
      exact others.stays other inside
  leaves := by
    rcases others.findingsOn_other fresh with ⟨_, same⟩
    intro other inside dropped
    rw [List.mem_cons, not_or] at dropped
    have member := (List.mem_cons.mp inside).resolve_left dropped.1
    rw [← same other member]
    exact others.leaves other member dropped.2

/-- The filter rejects a first candidate. -/
theorem reject (others : Judges before later (report.record module condition verdict) final)
    (fresh : module ∉ before) (holds : verdict.holds = false) :
    Judges (module :: before) later report final where
  sublist := others.sublist.cons module
  outside := fun _ absent => others.outside_cons absent
  stays := by
    rcases others.findingsOn_other fresh with ⟨_, same⟩
    intro other inside
    rw [← same other (others.sublist.mem inside)]
    exact others.stays other inside
  leaves := by
    rcases others.findingsOn_other fresh with ⟨own, same⟩
    intro other inside dropped
    rcases List.mem_cons.mp inside with rfl | member
    · exact ⟨_, own, holds⟩
    · rw [← same other member]
      exact others.leaves other member dropped

end Judges

theorem clear_nil (marks : List Bool) : clear [] marks = [] := by
  cases marks <;> rfl

/-- A filter whose verdicts are entered judges the candidates in the slots, however many
verdicts there are and on whichever slots. -/
theorem judges_enter (condition : String) (verdicts : List (Option Verdict))
    {slots : List (Option String)} (distinct : slots.reduceOption.Nodup) (report : Report) :
    Judges slots.reduceOption
      (clear slots (enter condition verdicts slots report).1).reduceOption
      report (enter condition verdicts slots report).2 := by
  induction verdicts generalizing slots report with
  | nil =>
      rw [enter, clear]
      exact Judges.refl _ report
  | cons said rest ih =>
      rcases slots with _ | ⟨_ | module, slots⟩
      · -- There are more verdicts than slots.
        have others := ih distinct report
        rw [clear_nil] at others ⊢
        cases said <;> exact others
      · rw [List.reduceOption_cons_of_none] at distinct ⊢
        have others := ih distinct report
        cases said <;> exact others
      · rw [List.reduceOption_cons_of_some] at distinct ⊢
        rcases List.nodup_cons.mp distinct with ⟨fresh, distinct⟩
        cases said with
        | none => exact (ih distinct report).skip fresh
        | some verdict =>
            have others := ih distinct (report.record module condition verdict)
            cases holds : verdict.holds with
            | true =>
                rw [enter, clear, holds]
                exact others.accept fresh holds
            | false =>
                rw [enter, clear, holds]
                exact others.reject fresh holds

/-! ## The pipeline -/

/-- What the filters so far made of distinct candidates, the report having been empty. -/
structure Judged (candidates kept : List String) (report : Report) : Prop where
  sublist : kept.Sublist candidates
  outside : ∀ module, module ∉ candidates → report.findingsOn module = []
  stayed : ∀ module ∈ kept, ∀ finding ∈ report.findingsOn module, finding.verdict.holds = true
  left : ∀ module ∈ candidates, module ∉ kept → ∃ earlier finding,
    report.findingsOn module = earlier ++ [finding] ∧
      (∀ previous ∈ earlier, previous.verdict.holds = true) ∧ finding.verdict.holds = false

theorem judged_empty (candidates : List String) : Judged candidates candidates Report.empty where
  sublist := List.Sublist.refl candidates
  outside := fun _ _ => rfl
  stayed := fun _ _ _ inside => by cases inside
  left := fun _ inside dropped => absurd inside dropped

/-- One more filter looks at what is left. -/
theorem Judged.step {candidates before later : List String} {report final : Report}
    (judged : Judged candidates before report) (judges : Judges before later report final) :
    Judged candidates later final where
  sublist := judges.sublist.trans judged.sublist
  outside := by
    intro module absent
    rw [judges.outside module fun inside => absent (judged.sublist.mem inside)]
    exact judged.outside module absent
  stayed := by
    intro module inside finding found
    rcases judges.stays module inside with ⟨more, grown, hold⟩
    rw [grown, List.mem_append] at found
    rcases found with earlier | new
    · exact judged.stayed module (judges.sublist.mem inside) finding earlier
    · exact hold finding new
  left := by
    intro module inside dropped
    by_cases waiting : module ∈ before
    · rcases judges.leaves module waiting dropped with ⟨finding, grown, rejected⟩
      exact ⟨_, finding, grown, judged.stayed module waiting, rejected⟩
    · -- Nothing is said any more on a candidate that was dropped earlier.
      rw [judges.outside module waiting]
      exact judged.left module inside waiting

theorem Judged.runSlots {candidates : List String} (filters : List Filter) (metadata : Metadata)
    {slots : List (Option String)} {report : Report} (distinct : slots.reduceOption.Nodup)
    (judged : Judged candidates slots.reduceOption report) :
    Judged candidates (Filter.runSlots metadata filters slots report).1.reduceOption
      (Filter.runSlots metadata filters slots report).2 := by
  induction filters generalizing slots report with
  | nil => exact judged
  | cons filter rest ih =>
      have judges := judges_enter filter.name (filter.verdicts slots metadata) distinct report
      exact ih (distinct.sublist judges.sublist) (judged.step judges)

/-- A pipeline keeps distinct candidates that have favourable findings only, and the findings on
the others end with the rejection for which they were dropped. -/
theorem judged_run (filters : List Filter) (metadata : Metadata) {candidates : List String}
    (distinct : candidates.Nodup) :
    Judged candidates (run filters metadata candidates Report.empty).1
      (run filters metadata candidates Report.empty).2 := by
  have all : (candidates.map some).reduceOption = candidates := by
    rw [List.reduceOption, List.filterMap_map]
    exact List.filterMap_some
  have apart : (candidates.map some).reduceOption.Nodup := by
    rw [all]
    exact distinct
  have start : Judged candidates (candidates.map some).reduceOption Report.empty := by
    rw [all]
    exact judged_empty candidates
  exact start.runSlots filters metadata apart

namespace Judged

variable {candidates kept : List String} {report : Report} {module : String}

/-- A candidate is kept exactly when all findings on it are favourable. -/
theorem mem_kept_iff (judged : Judged candidates kept report) (candidate : module ∈ candidates) :
    module ∈ kept ↔ report.isFullMatch module = true := by
  rw [Report.isFullMatch, List.all_eq_true]
  constructor
  · exact judged.stayed module
  · intro holds
    by_contra dropped
    rcases judged.left module candidate dropped with ⟨earlier, finding, findings, _, rejected⟩
    have held := holds finding (by rw [findings]; exact List.mem_append_right _ List.mem_cons_self)
    rw [rejected] at held
    cases held

/-- Nothing stands against what is no candidate. -/
theorem isFullMatch_of_not_mem (judged : Judged candidates kept report)
    (absent : module ∉ candidates) : report.isFullMatch module = true := by
  rw [Report.isFullMatch, judged.outside module absent, List.all_nil]

end Judged

end Filter
end Module
end LayeredConfig

import LayeredConfig.Module.Filter
import Mathlib

namespace LayeredConfig
namespace Module
namespace Filter

/-!
# What the built-in filters keep

A built-in filter looks at each slot by itself, whether it goes through the row
at once or in two halves.  So a pipeline of built-in filters keeps just the
candidates that meet the condition of each of them, in whatever order the
filters look, and a candidate that stands in several slots is kept in all of
them or in none.
-/

/-! ## Conditions on modules -/

/-- All capabilities that the module needs are present. -/
def HasCapabilities (present : String → Bool) (metadata : Metadata) (module : String) : Prop :=
  ∀ required ∈ metadata.read module Fact.capabilities,
    ∀ capability ∈ Text.commaList required, present capability = true

/-- An application of the kind serves a module that asks for one in these words; `any` stands for
all kinds that serve web requests. -/
def Serves (kind : ApplicationKind) (wanted : String) : Prop :=
  wanted = "any" ∧ kind ≠ .none ∨ wanted = "servlet" ∧ kind = .servlet ∨
    wanted = "reactive" ∧ kind = .reactive

/-- The kind of application that the module needs, if it needs one, is the kind at hand. -/
def SuitsKind (kind : ApplicationKind) (metadata : Metadata) (module : String) : Prop :=
  ∀ required ∈ metadata.read module Fact.applicationKind,
    Serves kind (Text.asciiLower (Text.trim required))

instance (present : String → Bool) (metadata : Metadata) (module : String) :
    Decidable (HasCapabilities present metadata module) :=
  inferInstanceAs (Decidable (∀ _ ∈ _, _))

instance (kind : ApplicationKind) (wanted : String) : Decidable (Serves kind wanted) :=
  inferInstanceAs (Decidable (_ ∨ _))

instance (kind : ApplicationKind) (metadata : Metadata) (module : String) :
    Decidable (SuitsKind kind metadata module) :=
  inferInstanceAs (Decidable (∀ _ ∈ _, _))

/-- The built-in filters. -/
inductive BuiltIn where
  | onCapability (present : String → Bool) (units : Nat)
  | onApplicationKind (kind : ApplicationKind)

namespace BuiltIn

def filter : BuiltIn → Filter
  | onCapability present units => Filter.onCapability present units
  | onApplicationKind kind => Filter.onApplicationKind kind

/-- The condition of a filter. -/
def Holds (metadata : Metadata) (module : String) : BuiltIn → Prop
  | onCapability present _ => HasCapabilities present metadata module
  | onApplicationKind kind => SuitsKind kind metadata module

instance (metadata : Metadata) (module : String) (builtIn : BuiltIn) :
    Decidable (builtIn.Holds metadata module) :=
  match builtIn with
  | onCapability present _ => inferInstanceAs (Decidable (HasCapabilities present _ _))
  | onApplicationKind kind => inferInstanceAs (Decidable (SuitsKind kind _ _))

/-- How a filter looks at one slot. -/
def look (metadata : Metadata) : BuiltIn → Option String → Option Verdict
  | onCapability present _ => onFact Fact.capabilities (capabilityVerdict present) metadata
  | onApplicationKind kind =>
      onFact Fact.applicationKind (fun required => some (kindVerdict kind required)) metadata

end BuiltIn

/-! ## Slot by slot -/

/-- In two halves or at once, the row gets the same verdicts. -/
theorem verdicts_onCapability (present : String → Bool) (units : Nat) (metadata : Metadata)
    (slots : List (Option String)) :
    (onCapability present units).verdicts slots metadata =
      slots.map (onFact Fact.capabilities (capabilityVerdict present) metadata) := by
  simp only [onCapability]
  split
  · rw [← List.map_append, List.take_append_drop]
  · rfl

theorem verdicts_builtIn (builtIn : BuiltIn) (metadata : Metadata)
    (slots : List (Option String)) :
    builtIn.filter.verdicts slots metadata = slots.map (builtIn.look metadata) := by
  cases builtIn with
  | onCapability present units => exact verdicts_onCapability present units metadata slots
  | onApplicationKind kind => rfl

/-- The first slot is emptied when the verdict on its candidate is a rejection. -/
theorem exists_clear_enter_cons (condition : String) (said : Option Verdict)
    (verdicts : List (Option Verdict)) (slot : Option String) (slots : List (Option String))
    (report : Report) :
    ∃ judged, clear (slot :: slots) (enter condition (said :: verdicts) (slot :: slots) report).1 =
      slot.filter (fun _ => said.all Verdict.holds) ::
        clear slots (enter condition verdicts slots judged).1 := by
  cases slot with
  | none => cases said <;> exact ⟨report, rfl⟩
  | some module =>
      cases said with
      | none => exact ⟨report, rfl⟩
      | some verdict => exact ⟨report.record module condition verdict, rfl⟩

theorem clear_enter_map (condition : String) (look : Option String → Option Verdict)
    (slots : List (Option String)) (report : Report) :
    clear slots (enter condition (slots.map look) slots report).1 =
      slots.map fun slot => slot.filter fun module => (look (some module)).all Verdict.holds := by
  induction slots generalizing report with
  | nil => rfl
  | cons slot rest ih =>
      rcases exists_clear_enter_cons condition (look slot) (rest.map look) slot rest report with
        ⟨judged, step⟩
      rw [List.map_cons, step, ih, List.map_cons]
      cases slot <;> rfl

/-! ## Verdicts and conditions -/

theorem all_onFact_iff (fact : String) (verdict : String → Option Verdict) (metadata : Metadata)
    (module : String) :
    (onFact fact verdict metadata (some module)).all Verdict.holds = true ↔
      ∀ required ∈ metadata.read module fact, (verdict required).all Verdict.holds = true := by
  rw [onFact]
  cases metadata.read module fact <;> simp

theorem all_capabilityVerdict_iff (present : String → Bool) (required : String) :
    (capabilityVerdict present required).all Verdict.holds = true ↔
      ∀ capability ∈ Text.commaList required, present capability = true := by
  rw [capabilityVerdict]
  cases missing : (Text.commaList required).find? fun capability => !present capability with
  | none => simpa using List.find?_eq_none.mp missing
  | some capability =>
      have absent := List.find?_some missing
      have member := List.mem_of_find?_eq_some missing
      constructor
      · intro rejected
        cases rejected
      · intro all
        rw [all capability member] at absent
        cases absent

theorem holds_kindVerdict_iff (kind : ApplicationKind) (required : String) :
    (kindVerdict kind required).holds = true ↔
      Serves kind (Text.asciiLower (Text.trim required)) := by
  rw [kindVerdict, Serves]
  generalize Text.asciiLower (Text.trim required) = wanted
  by_cases any : wanted = "any"
  · subst any
    cases kind <;> decide
  · by_cases servlet : wanted = "servlet"
    · subst servlet
      cases kind <;> decide
    · by_cases reactive : wanted = "reactive"
      · subst reactive
        cases kind <;> decide
      · simp [any, servlet, reactive, Verdict.reject]

/-- A built-in filter does not reject just the modules that meet its condition. -/
theorem all_look_iff (builtIn : BuiltIn) (metadata : Metadata) (module : String) :
    (builtIn.look metadata (some module)).all Verdict.holds = true ↔
      builtIn.Holds metadata module := by
  cases builtIn with
  | onCapability present units =>
      rw [BuiltIn.look, all_onFact_iff]
      simp only [all_capabilityVerdict_iff]
      rfl
  | onApplicationKind kind =>
      rw [BuiltIn.look, all_onFact_iff]
      simp only [Option.all_some, holds_kindVerdict_iff]
      rfl

/-! ## The pipeline -/

/-- Built-in filters leave the candidates that meet all their conditions where they are. -/
theorem runSlots_builtIn (conditions : List BuiltIn) (metadata : Metadata)
    (slots : List (Option String)) (report : Report) :
    (runSlots metadata (conditions.map BuiltIn.filter) slots report).1 =
      slots.map fun slot => slot.filter fun module =>
        ∀ builtIn ∈ conditions, builtIn.Holds metadata module := by
  induction conditions generalizing slots report with
  | nil =>
      have nothing : ∀ slot : Option String, slot.filter (fun _ => true) = slot := by
        intro slot
        cases slot <;> rfl
      simp [runSlots, nothing]
  | cons first rest ih =>
      rw [List.map_cons, runSlots]
      simp only [judge]
      rw [ih, verdicts_builtIn, clear_enter_map, List.map_map]
      apply List.map_congr_left
      intro slot _
      rw [Function.comp_apply, Option.filter_filter]
      congr 1
      funext module
      rw [Bool.eq_iff_iff, Bool.and_eq_true, all_look_iff, decide_eq_true_eq, decide_eq_true_eq,
        List.forall_mem_cons]

/-- Candidates that stand in slots of their own are kept in their order. -/
theorem filterMap_filter (keeps : String → Bool) (candidates : List String) :
    ((candidates.map some).map (Option.filter keeps)).filterMap id = candidates.filter keeps := by
  rw [List.map_map, List.filterMap_map, ← List.filterMap_eq_filter]
  rfl

theorem run_builtIn (conditions : List BuiltIn) (metadata : Metadata) (candidates : List String)
    (report : Report) :
    (run (conditions.map BuiltIn.filter) metadata candidates report).1 =
      candidates.filter fun module => ∀ builtIn ∈ conditions, builtIn.Holds metadata module := by
  rw [run]
  simp only [runSlots_builtIn]
  exact filterMap_filter _ candidates

/-! ## Main result -/

/-- A pipeline of built-in filters keeps, in their order and as often as they are given, the
candidates that meet the condition of each filter.  The order of the filters does not matter, nor
whether the filter of capabilities goes through the row at once or in two halves. -/
theorem builtIn_conditions_decide (conditions : List BuiltIn) (metadata : Metadata)
    (candidates : List String) (report : Report) :
    (run (conditions.map BuiltIn.filter) metadata candidates report).1 =
        candidates.filter (fun module =>
          ∀ builtIn ∈ conditions, builtIn.Holds metadata module) ∧
      (∀ permuted : List BuiltIn, permuted.Perm conditions →
        (run (permuted.map BuiltIn.filter) metadata candidates report).1 =
          (run (conditions.map BuiltIn.filter) metadata candidates report).1) ∧
      ∀ present units slots, (onCapability present units).verdicts slots metadata =
        (onCapability present 1).verdicts slots metadata := by
  refine ⟨run_builtIn conditions metadata candidates report, ?_, ?_⟩
  · intro permuted permutation
    rw [run_builtIn, run_builtIn]
    simp only [permutation.mem_iff]
  · intro present units slots
    rw [verdicts_onCapability, verdicts_onCapability]

/-- Of three modules `a` needs two capabilities and the others need one kind of application
each. -/
def demands : Metadata where
  table := KeyedList.ofList [("a", ""), ("a.ConditionalOnCapability", "x,y"), ("b", ""),
    ("b.ConditionalOnApplicationKind", "servlet"), ("c", ""),
    ("c.ConditionalOnApplicationKind", "reactive")]
  manifest := none

/-- The capability `x` is present, and the application is one that blocks. -/
def blockingWithX : List BuiltIn :=
  [.onCapability (fun capability => capability = "x") 2, .onApplicationKind .servlet]

/-- The filters look in the other order, and a candidate that is kept stands twice. -/
theorem builtIn_conditions_decide_swapped :
    blockingWithX.reverse.Perm blockingWithX ∧
      (run (blockingWithX.reverse.map BuiltIn.filter) demands ["b", "a", "c", "b"]
        Report.empty).1 = ["b", "b"] := by
  have swapped : blockingWithX.reverse.Perm blockingWithX := List.reverse_perm _
  have straight : (run (blockingWithX.map BuiltIn.filter) demands ["b", "a", "c", "b"]
      Report.empty).1 = ["b", "b"] := by cbv
  rcases builtIn_conditions_decide blockingWithX demands ["b", "a", "c", "b"] Report.empty with
    ⟨_, either, _⟩
  exact ⟨swapped, (either _ swapped).trans straight⟩

end Filter
end Module
end LayeredConfig

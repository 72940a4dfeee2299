import LayeredConfig.Module.ApplicationKind
import LayeredConfig.Module.Metadata
import LayeredConfig.Module.Report

namespace LayeredConfig
namespace Module

/-!
Filters of candidates.

A filter looks at a row of slots, of which a rejected candidate leaves its own
empty, and gives a verdict for each slot on which it has something to say.  The
pipeline lets filters look at the row one after the other.
-/

structure Filter where
  name : String
  verdicts : List (Option String) → Metadata → List (Option Verdict)

namespace Filter

/-- Enter the verdicts on the slots into the report; a slot is kept unless it holds a
candidate that the verdict rejects. -/
def enter (condition : String) : List (Option Verdict) → List (Option String) → Report →
    List Bool × Report
  | [], _, report => ([], report)
  | some verdict :: rest, some module :: slots, report =>
      let (kept, final) := enter condition rest slots (report.record module condition verdict)
      (verdict.holds :: kept, final)
  | _ :: rest, slots, report =>
      let (kept, final) := enter condition rest slots.tail report
      (true :: kept, final)

/-- Which slots the filter keeps, and the report with its verdicts. -/
def judge (filter : Filter) (metadata : Metadata) (slots : List (Option String))
    (report : Report) : List Bool × Report :=
  enter filter.name (filter.verdicts slots metadata) slots report

/-- Empty the slots that are not kept; slots without a mark are kept. -/
def clear : List (Option String) → List Bool → List (Option String)
  | slots, [] => slots
  | [], _ :: _ => []
  | slot :: slots, kept :: marks => (if kept then slot else none) :: clear slots marks

/-- Let the filters look at the slots one after the other. -/
def runSlots (metadata : Metadata) : List Filter → List (Option String) → Report →
    List (Option String) × Report
  | [], slots, report => (slots, report)
  | filter :: rest, slots, report =>
      let (kept, judged) := filter.judge metadata slots report
      runSlots metadata rest (clear slots kept) judged

/-- The candidates that every filter keeps, in order, and the report. -/
def run (filters : List Filter) (metadata : Metadata) (candidates : List String)
    (report : Report) : List String × Report :=
  let (slots, final) := runSlots metadata filters (candidates.map some) report
  (slots.filterMap id, final)

/-- Give verdicts slot by slot, from the text of one fact of the module in the slot. -/
def onFact (fact : String) (verdict : String → Option Verdict) (metadata : Metadata) :
    Option String → Option Verdict
  | none => none
  | some module => (metadata.read module fact).bind verdict

/-- Rejects when some of the capabilities listed is missing. -/
def capabilityVerdict (present : String → Bool) (required : String) : Option Verdict :=
  ((Text.commaList required).find? (fun capability => !present capability)).map fun missing =>
    .reject ("@ConditionalOnCapability did not find required capability '" ++ missing ++ "'")

/-- Rejects the modules that need a capability which is not present.  With more than one unit
at work the row is cut in two halves. -/
def onCapability (present : String → Bool) (units : Nat) : Filter where
  name := "OnCapabilityCondition"
  verdicts := fun slots metadata =>
    let look := onFact Fact.capabilities (capabilityVerdict present) metadata
    if 1 < slots.length && 1 < units then
      (slots.take (slots.length / 2)).map look ++ (slots.drop (slots.length / 2)).map look
    else slots.map look

/-- The verdict of an application of a kind on the kind that a module needs; `any` stands for
all kinds that serve web requests. -/
def kindVerdict (kind : ApplicationKind) (required : String) : Verdict :=
  let wanted := Text.asciiLower (Text.trim required)
  let found := "found " ++ kind.name ++ " application"
  if wanted = "any" then
    if kind = .none then .reject "did not find reactive or servlet application"
    else .accept found
  else if wanted = "servlet" ∨ wanted = "reactive" then
    if kind.name = wanted then .accept found
    else .reject ("did not find " ++ wanted ++ " application")
  else .reject ("unknown application kind '" ++ wanted ++ "'")

/-- Rejects the modules that need another kind of application. -/
def onApplicationKind (kind : ApplicationKind) : Filter where
  name := "OnApplicationKindCondition"
  verdicts := fun slots metadata =>
    slots.map (onFact Fact.applicationKind (fun required => some (kindVerdict kind required)) metadata)

end Filter
end Module
end LayeredConfig

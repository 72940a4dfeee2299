import LayeredConfig.KeyedList
import LayeredConfig.Names

namespace LayeredConfig
namespace Module

/-! What the conditions said about the modules, kept as a report. -/

/-- What a condition says about a module. -/
structure Verdict where
  holds : Bool
  message : String
  deriving DecidableEq, Repr

namespace Verdict

def accept (message : String) : Verdict where
  holds := true
  message := message

def reject (message : String) : Verdict where
  holds := false
  message := message

end Verdict

/-- A verdict with the name of the condition that gave it. -/
structure Finding where
  condition : String
  verdict : Verdict
  deriving DecidableEq, Repr

structure Report where
  /-- The findings on each module in the order in which they were made. -/
  findings : KeyedList String (List Finding)
  candidates : List String
  exclusions : List String

namespace Report

def empty : Report where
  findings := KeyedList.empty
  candidates := []
  exclusions := []

/-- Add a finding on a module. -/
def record (report : Report) (module condition : String) (verdict : Verdict) : Report :=
  { report with
    findings := report.findings.update module [] (fun earlier => earlier ++ [⟨condition, verdict⟩]) }

def addCandidates (report : Report) (modules : List String) : Report :=
  { report with candidates := Names.addAll report.candidates modules }

def addExclusions (report : Report) (modules : List String) : Report :=
  { report with exclusions := Names.addAll report.exclusions modules }

def findingsOn (report : Report) (module : String) : List Finding :=
  (report.findings.get? module).getD []

/-- Whether every condition that spoke of the module holds for it. -/
def isFullMatch (report : Report) (module : String) : Bool :=
  (report.findingsOn module).all (fun finding => finding.verdict.holds)

/-- The findings against modules. -/
def rejections (report : Report) : List (String × Finding) :=
  report.findings.entries.flatMap fun entry =>
    (entry.2.filter (fun finding => !finding.verdict.holds)).map fun finding => (entry.1, finding)

/-- The candidates that no condition spoke of and nothing excludes. -/
def unconditional (report : Report) : List String :=
  report.candidates.filter fun module =>
    !report.findings.contains module && !report.exclusions.contains module

end Report
end Module
end LayeredConfig

import LayeredConfig.Proofs.Module.Choosing
import LayeredConfig.Proofs.Module.Ranking

namespace LayeredConfig
namespace Module

/-!
# What listeners hear

A choice that cannot settle its exclusions fails before anything is recorded or
told.  Once they are settled the filters look, the report takes in what they keep
and what is excluded, and each listener is told just that, whether or not the
modules can then be put in order.
-/

/-! ## Errors of the order -/

theorem priority_ne_invalidExclusions (metadata : Metadata) (module : String)
    (modules : List String) : priority metadata module ≠ .error (.invalidExclusions modules) := by
  intro failed
  simp only [priority, Metadata.readInteger] at failed
  split at failed
  · cases failed
  · split at failed <;> cases failed

/-- Putting modules in order fails for a priority or for a cycle, not for exclusions. -/
theorem order_ne_invalidExclusions (metadata : Metadata) (modules strays : List String) :
    order metadata modules ≠ .error (.invalidExclusions strays) := by
  intro failed
  rw [order] at failed
  cases ranked : rank metadata modules with
  | error error =>
      simp only [ranked, Except.error.injEq] at failed
      rcases rank_eq_error_iff.mp ranked with ⟨module, unread⟩
      exact priority_ne_invalidExclusions metadata module strays (failed ▸ unread.unread)
  | ok ranked =>
      simp only [ranked] at failed
      have arranged := Traversal.map_eq_error_iff.mp failed
      rcases Graph.closesCycle_of_arrange arranged with ⟨first, second, cycle, _⟩
      cases cycle

namespace Selection

variable {catalog : Catalog} {filters : List Filter} {environment : Environment}
  {metadata : Metadata} {explicit resolved : List String} {report : Report}

/-! ## The exclusions -/

/-- The modules to leave out as they are mentioned, those given before those of the property. -/
def mentioned (explicit resolved : List String) : List String :=
  named explicit ++ named resolved

/-- The texts of the property, each with its placeholders resolved. -/
def excludedTexts (environment : Environment) : Except Error (List String) :=
  ((environment.list? Property.Keys.excludedModules).getD []).mapM environment.resolve

theorem mergeExclusions_eq (environment : Environment) (explicit : List String) :
    mergeExclusions environment explicit =
      (excludedTexts environment).map fun resolved => (mentioned explicit resolved).eraseDups := by
  simp only [mergeExclusions, excludedTexts, mentioned, Names.addAll_nil]

theorem mem_invalid_iff (catalog : Catalog) (metadata : Metadata) (exclusions : List String)
    (module : String) : module ∈ invalid catalog metadata exclusions ↔
      module ∈ exclusions ∧ metadata.knows module = true ∧ module ∉ catalog.modules := by
  rw [invalid, List.mem_filter, Bool.and_eq_true, Bool.not_eq_true', ← Bool.not_eq_true,
    List.contains_iff_mem]

theorem mem_invalid_mentioned_iff (catalog : Catalog) (metadata : Metadata)
    (explicit resolved : List String) (module : String) :
    module ∈ invalid catalog metadata (mentioned explicit resolved).eraseDups ↔
      module ∈ mentioned explicit resolved ∧
        metadata.knows module = true ∧ module ∉ catalog.modules := by
  rw [mem_invalid_iff, List.mem_eraseDups]

/-- A choice whose exclusions cannot be read. -/
theorem select_of_unread {error : Error}
    (enabled : environment.getBool Property.Keys.modulesEnabled true = true)
    (unread : excludedTexts environment = .error error) :
    select catalog filters environment metadata explicit report =
      { result := .error error, report, announced := none } := by
  rw [select, enabled, mergeExclusions_eq, unread]
  rfl

/-- A choice with exclusions that are known and not in the catalog. -/
theorem select_of_invalid {excluded : List String}
    (enabled : environment.getBool Property.Keys.modulesEnabled true = true)
    (merged : mergeExclusions environment explicit = .ok excluded)
    (strays : invalid catalog metadata excluded ≠ []) :
    select catalog filters environment metadata explicit report =
      { result := .error (.invalidExclusions (invalid catalog metadata excluded)), report,
        announced := none } := by
  rw [select, enabled, merged]
  simp only [Bool.not_true, Bool.false_eq_true, if_false, strays, ne_eq, not_false_eq_true, if_true]

/-- A choice whose exclusions are settled may fail, but not for them. -/
theorem not_refused_of_valid {excluded : List String}
    (enabled : environment.getBool Property.Keys.modulesEnabled true = true)
    (merged : mergeExclusions environment explicit = .ok excluded)
    (valid : invalid catalog metadata excluded = []) (filters : List Filter) (report : Report)
    (strays : List String) :
    (select catalog filters environment metadata explicit report).result ≠
      .error (.invalidExclusions strays) := by
  intro failed
  rw [select_of_valid enabled merged valid] at failed
  exact order_ne_invalidExclusions _ _ strays (Traversal.map_eq_error_iff.mp failed)

/-! ## What a choice leaves behind -/

/-- A choice that fails before anything is recorded or told. -/
structure Withheld {Listener : Type} (outcome : Outcome) (before : Report)
    (listeners : List Listener) : Prop where
  report : outcome.report = before
  calls : calls outcome.announced listeners = []

/-- A choice that adds to the report what the filters keep and what is excluded, and tells every
listener just that. -/
structure Told {Listener : Type} (outcome : Outcome) (before : Report) (listeners : List Listener)
    (kept excluded : List String) : Prop where
  candidates : outcome.report.candidates = Names.addAll before.candidates kept
  exclusions : outcome.report.exclusions = Names.addAll before.exclusions excluded
  onlyExclusions : before.exclusions = [] → outcome.report.exclusions = excluded
  calls : calls outcome.announced listeners =
    listeners.map fun listener => (listener, ⟨kept, excluded⟩)

/-- While the filters look the lists of the report stay as they are. -/
theorem lists_of_run (filters : List Filter) (metadata : Metadata) (candidates : List String)
    (report : Report) :
    (Filter.run filters metadata candidates report).2.candidates = report.candidates ∧
      (Filter.run filters metadata candidates report).2.exclusions = report.exclusions := by
  have recorded : ∀ judged module condition verdict,
      (judged.candidates = report.candidates ∧ judged.exclusions = report.exclusions) →
      (Report.record judged module condition verdict).candidates = report.candidates ∧
        (Report.record judged module condition verdict).exclusions = report.exclusions :=
    fun _ _ _ _ before => before
  exact Filter.keeps_run recorded filters metadata candidates ⟨rfl, rfl⟩

theorem told_of_valid {Listener : Type} {excluded : List String}
    (enabled : environment.getBool Property.Keys.modulesEnabled true = true)
    (merged : mergeExclusions environment explicit = .ok excluded) (distinct : excluded.Nodup)
    (valid : invalid catalog metadata excluded = []) (filters : List Filter) (report : Report)
    (listeners : List Listener) :
    Told (select catalog filters environment metadata explicit report) report listeners
      (filtered catalog filters metadata excluded report).1 excluded := by
  rcases lists_of_run filters metadata (remaining catalog excluded) report with
    ⟨candidates, exclusions⟩
  have taken := congrArg (Names.addAll · excluded) exclusions
  rw [select_of_valid enabled merged valid]
  exact {
    candidates := congrArg (Names.addAll · _) candidates
    exclusions := taken
    onlyExclusions := fun none => taken.trans (none ▸ Names.addAll_of_nodup distinct)
    calls := rfl }

/-! ## Main result -/

/-- A choice whose exclusions can be read is refused for them exactly when one that is mentioned
is known and not in the catalog, and the error lists those that are, each where it is first
mentioned.  A choice that fails on the exclusions leaves the report as it was and calls no
listener.  Any other calls each listener once with what the filters keep and what is excluded,
and the report takes in the same, whatever becomes of the order. -/
theorem strays_refused_or_listeners_told {Listener : Type} (catalog : Catalog)
    (filters : List Filter) (metadata : Metadata) (explicit : List String) (report : Report)
    (enabled : environment.getBool Property.Keys.modulesEnabled true = true)
    (listeners : List Listener) :
    let outcome := select catalog filters environment metadata explicit report
    (∀ error, excludedTexts environment = .error error →
      outcome.result = .error error ∧ Withheld outcome report listeners) ∧
    ∀ resolved, excludedTexts environment = .ok resolved →
      let excluded := (mentioned explicit resolved).eraseDups
      ((∃ strays, outcome.result = .error (.invalidExclusions strays)) ↔
        ∃ module ∈ mentioned explicit resolved,
          metadata.knows module = true ∧ module ∉ catalog.modules) ∧
      (∀ strays, outcome.result = .error (.invalidExclusions strays) →
        strays = excluded.filter (fun module =>
          metadata.knows module && !catalog.modules.contains module) ∧
        strays.Nodup ∧ Withheld outcome report listeners) ∧
      ((∀ strays, outcome.result ≠ .error (.invalidExclusions strays)) →
        ∃ kept judged,
          Filter.run filters metadata (remaining catalog excluded) report = (kept, judged) ∧
          outcome.result = (order metadata kept).map (fun modules => ⟨modules, excluded⟩) ∧
          (∀ module, outcome.report.findingsOn module = judged.findingsOn module) ∧
          Told outcome report listeners kept excluded) := by
  dsimp only
  constructor
  · intro error unread
    rw [select_of_unread enabled unread]
    exact ⟨rfl, rfl, rfl⟩
  · intro resolved read
    have merged : mergeExclusions environment explicit =
        .ok (mentioned explicit resolved).eraseDups := by
      rw [mergeExclusions_eq, read]
      rfl
    have distinct := Names.nodup_eraseDups (mentioned explicit resolved)
    have stray := mem_invalid_mentioned_iff catalog metadata explicit resolved
    cases strays : invalid catalog metadata (mentioned explicit resolved).eraseDups with
    | nil =>
        have accepted := not_refused_of_valid enabled merged strays filters report
        have told := told_of_valid enabled merged distinct strays filters report listeners
        refine ⟨⟨?_, ?_⟩, ?_, fun _ => ⟨_, _, rfl, ?_, ?_, told⟩⟩
        · rintro ⟨found, failed⟩
          exact absurd failed (accepted found)
        · rintro ⟨module, member⟩
          have inside := (stray module).mpr member
          rw [strays] at inside
          cases inside
        · intro found failed
          exact absurd failed (accepted found)
        · rw [select_of_valid enabled merged strays]
          rfl
        · intro module
          rw [select_of_valid enabled merged strays]
          rfl
    | cons first rest =>
        have invalid : invalid catalog metadata (mentioned explicit resolved).eraseDups ≠ [] := by
          rw [strays]
          exact List.cons_ne_nil _ _
        rw [select_of_invalid enabled merged invalid]
        refine ⟨⟨fun _ => ⟨first, (stray first).mp ?_⟩, fun _ => ⟨_, rfl⟩⟩, ?_, ?_⟩
        · rw [strays]
          exact List.mem_cons_self
        · intro found failed
          cases failed
          exact ⟨rfl, distinct.filter _, rfl, rfl⟩
        · intro others
          exact absurd rfl (others _)

/-- The property repeats a module that is given and goes on with another one. -/
def excluding : Environment :=
  Environment.initial.addFirst
    ⟨"given", KeyedList.ofList [("one", "x"), (Property.Keys.excludedModules, "${one}, y")]⟩

/-- Both modules of the catalog must follow each other; `x` and `y` are known besides. -/
def entangled : Metadata where
  table := KeyedList.ofList [("a.AutoConfigureBefore", "b"), ("a", ""),
    ("b.AutoConfigureBefore", "a"), ("b", ""), ("x", ""), ("y", "")]
  manifest := none

/-- A choice from `a`, `b` and what else is listed, with `x` and `y` excluded. -/
def choiceWith (others : List String) : Outcome :=
  select (Catalog.ofModules ("a" :: "b" :: others)) [] excluding entangled [" x "] Report.empty

/-- Two strays are listed once each, and nobody hears of that; without strays both listeners hear of
modules that cannot be put in order. -/
theorem strays_refused_or_listeners_told_entangled :
    excluding.getBool Property.Keys.modulesEnabled true = true ∧
      excludedTexts excluding = .ok ["x", "y"] ∧
      (choiceWith []).result = .error (.invalidExclusions ["x", "y"]) ∧
      Withheld (choiceWith []) Report.empty ["first", "second"] ∧
      (choiceWith ["x", "y"]).result = .error (.cycleDetected "b" "a") ∧
      Told (choiceWith ["x", "y"]) Report.empty ["first", "second"] ["a", "b"] ["x", "y"] := by
  have enabled : excluding.getBool Property.Keys.modulesEnabled true = true := by cbv
  have read : excludedTexts excluding = .ok ["x", "y"] := by cbv
  have few : (Catalog.ofModules ["a", "b"]).modules = ["a", "b"] := by cbv
  have all : (Catalog.ofModules ["a", "b", "x", "y"]).modules = ["a", "b", "x", "y"] := by cbv
  have excluded : mentioned [" x "] ["x", "y"] = ["x", "x", "y"] := by cbv
  have strays : (["x", "x", "y"].eraseDups).filter (fun module =>
      entangled.knows module && !List.contains ["a", "b"] module) = ["x", "y"] := by cbv
  have rest : remaining (Catalog.ofModules ["a", "b", "x", "y"]) ["x", "x", "y"].eraseDups =
      ["a", "b"] := by cbv
  have circular : order entangled ["a", "b"] = .error (.cycleDetected "b" "a") := by cbv
  rcases (strays_refused_or_listeners_told (Catalog.ofModules ["a", "b"]) [] entangled [" x "]
    Report.empty enabled ["first", "second"]).2 _ read with ⟨refused, listed, _⟩
  rcases (strays_refused_or_listeners_told (Catalog.ofModules ["a", "b", "x", "y"]) [] entangled
    [" x "] Report.empty enabled ["first", "second"]).2 _ read with ⟨settled, _, told⟩
  rw [few, excluded] at refused listed
  rw [all, excluded] at settled
  rw [excluded, rest] at told
  rcases refused.mpr ⟨"x", List.mem_cons_self, by cbv, by decide⟩ with ⟨found, failed⟩
  rcases listed found failed with ⟨whole, _, withheld⟩
  rw [strays] at whole
  rw [whole] at failed
  have valid : ∀ found, (choiceWith ["x", "y"]).result ≠ .error (.invalidExclusions found) := by
    intro found failed
    rcases settled.mp ⟨found, failed⟩ with ⟨module, member, _, outside⟩
    exact outside (List.cons_subset.mpr ⟨by decide, by decide⟩ member)
  rcases told valid with ⟨kept, judged, ran, ordered, _, told⟩
  have same : kept = ["a", "b"] := (congrArg Prod.fst ran).symm
  rw [same] at ordered told
  rw [circular] at ordered
  exact ⟨enabled, read, failed, withheld, ordered, told⟩

end Selection
end Module
end LayeredConfig

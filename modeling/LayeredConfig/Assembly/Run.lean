import LayeredConfig.Assembly.Library
import LayeredConfig.Assembly.Queue

namespace LayeredConfig
namespace Assembly

/-!
Running through the profiles.

The run takes the documents without scope, then those of each profile whose
turn comes, and last the documents with a scope that holds in the end though no
profile brought them in.  It keeps a log of the documents taken.
-/

/-- A document that a pass took for a profile, or for none. -/
structure Taken where
  pass : Document.Pass
  profile : Option String
  document : Document

/-- What a run starts from. -/
structure Setup where
  search : Search
  loaders : List Property.Loader
  environment : Environment
  library : Library

/-- How far a run has come; its environment has the sources that it had at the start. -/
structure Progress where
  environment : Environment
  queue : Queue
  log : List Taken

/-- An error with the environment in which it leaves matters. -/
structure Failure where
  error : Error
  environment : Environment

namespace Progress

/-- Enter what a pass took, resource by resource.  Later documents of a resource come first in
the log. -/
def collect (progress : Progress) (pass : Document.Pass) (profile : Option String)
    (groups : List (List Document)) : Progress :=
  { progress with
    queue := groups.flatten.foldl Queue.note progress.queue
    log := progress.log ++ groups.flatMap fun group => group.reverse.map (Taken.mk pass profile) }

/-- Give a profile its turn; it becomes active unless it is only a default. -/
def advance (progress : Progress) (profile : Profile) (others : List Profile) : Progress :=
  { progress with
    environment :=
      if profile.isDefault then progress.environment
      else progress.environment.activate profile.name
    queue := progress.queue.advance profile others }

end Progress

namespace Setup

/-- The documents that a probe finds and the pass takes in `environment`. -/
def examine (setup : Setup) (pass : Document.Pass) (environment : Environment)
    (step : Except Error Probe) : Except Error (List Document) :=
  step.bind fun probe =>
    (setup.library.documents probe).map fun documents =>
      documents.filter fun document => document.isTaken pass probe.scope environment

/-- What a pass takes, resource by resource. -/
def survey (setup : Setup) (pass : Document.Pass) (environment : Environment)
    (profile : Option String) (earlier : List String) : Except Error (List (List Document)) :=
  (setup.search.probes setup.loaders setup.environment profile earlier).mapM
    (setup.examine pass environment)

theorem included_subset_of_survey {setup : Setup} {pass : Document.Pass}
    {environment : Environment} {profile : Option String} {earlier : List String}
    {groups : List (List Document)}
    (surveyed : setup.survey pass environment profile earlier = .ok groups) :
    ∀ document ∈ groups.flatten, document.included ⊆ setup.library.names := by
  intro document member
  obtain ⟨group, inside, present⟩ := List.mem_flatten.1 member
  obtain ⟨step, _, examined⟩ := Traversal.exists_of_mem_mapM surveyed inside
  cases step with
  | error error => simp [examine, Except.bind] at examined
  | ok probe =>
      cases read : setup.library.documents probe with
      | error error => simp [examine, Except.bind, Except.map, read] at examined
      | ok documents =>
          simp only [examine, Except.bind, Except.map, read, Except.ok.injEq] at examined
          subst examined
          exact (Library.names_cover read (List.mem_filter.1 present).1).2

/-- Make a pass and enter what it takes. -/
def perform (setup : Setup) (progress : Progress) (pass : Document.Pass)
    (profile : Option String) (earlier : List String) : Except Failure Progress :=
  match setup.survey pass progress.environment profile earlier with
  | .error error => .error ⟨error, progress.environment⟩
  | .ok groups => .ok (progress.collect pass profile groups)

theorem reaches_of_perform {setup : Setup} {progress later : Progress} {pass : Document.Pass}
    {profile : Option String} {earlier : List String}
    (performed : setup.perform progress pass profile earlier = .ok later) :
    Queue.Reaches setup.library.names later.queue progress.queue := by
  unfold perform at performed
  split at performed
  · cases performed
  · next groups surveyed =>
      cases performed
      exact Queue.reaches_noteAll (included_subset_of_survey surveyed) _

/-- Let the profiles have their turns until none waits. -/
def drain (setup : Setup) (progress : Progress) : Except Failure Progress :=
  match waiting : progress.queue.waiting with
  | [] => .ok progress
  | profile :: others =>
      match performed : setup.perform (progress.advance profile others) .regular
          (some profile.name) progress.queue.earlier with
      | .error failure => .error failure
      | .ok later =>
          have := Queue.nearer_advance waiting (reaches_of_perform performed)
          drain setup later
termination_by progress.queue.distance setup.library.names
decreasing_by assumption

/-- The queue that the properties and the active profiles of the environment lead to. -/
def queue (setup : Setup) : Except Error Queue := do
  let activated ← setup.environment.resolveList Property.Keys.activeProfiles
  let included ← setup.environment.resolveList Property.Keys.includedProfiles
  return Queue.start setup.environment activated included

/-- The run from the start to the last pass. -/
def run (setup : Setup) : Except Failure Progress :=
  match setup.queue with
  | .error error => .error ⟨error, setup.environment⟩
  | .ok queue => do
      let first ← setup.perform ⟨setup.environment, queue, []⟩ .regular none []
      let last ← setup.drain first
      setup.perform last .leftover none []

end Setup
end Assembly
end LayeredConfig

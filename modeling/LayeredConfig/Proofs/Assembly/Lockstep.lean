import LayeredConfig.Proofs.Assembly.Evaluation
import LayeredConfig.Proofs.Traversal.Agreement

namespace LayeredConfig
namespace Assembly

open Traversal

/-!
# Two runs in step

Two runs whose queues are the same give the same profiles their turns in the
same order.  When each pass keeps them related, so do the whole runs: both fail,
or both end.
-/

namespace Setup

/-- A pass agrees with another one when what they survey does. -/
theorem agree_perform {left right : Setup} {progress other : Progress} {pass : Document.Pass}
    {profile : Option String} {earlier : List String} {failed : Failure → Failure → Prop}
    {related : Progress → Progress → Prop}
    (surveys : Agree
      (fun error fault => failed ⟨error, progress.environment⟩ ⟨fault, other.environment⟩)
      (fun groups others =>
        related (progress.collect pass profile groups) (other.collect pass profile others))
      (left.survey pass progress.environment profile earlier)
      (right.survey pass other.environment profile earlier)) :
    Agree failed related (left.perform progress pass profile earlier)
      (right.perform other pass profile earlier) := by
  unfold perform
  generalize left.survey pass progress.environment profile earlier = surveyed at surveys
  generalize right.survey pass other.environment profile earlier = surveyedToo at surveys
  cases surveys with
  | error faults => exact .error faults
  | ok collected => exact .ok collected

/-- What two runs are related in after each pass, and what they are related in when they end. -/
structure InStep (left right : Setup) (failed : Failure → Failure → Prop)
    (related ended : Progress → Progress → Prop) : Prop where
  /-- The runs start with a queue, or fail both, and keep in step in the first pass. -/
  first : Agree
    (fun error fault => failed ⟨error, left.environment⟩ ⟨fault, right.environment⟩)
    (fun queue others => Agree failed related
      (left.perform ⟨left.environment, queue, []⟩ .regular none [])
      (right.perform ⟨right.environment, others, []⟩ .regular none []))
    left.queue right.queue
  queue : ∀ {progress other : Progress}, related progress other → other.queue = progress.queue
  turn : ∀ {progress other : Progress} {profile : Profile} {others : List Profile},
    related progress other → progress.queue.waiting = profile :: others →
    Agree failed related
      (left.perform (progress.advance profile others) .regular (some profile.name)
        progress.queue.earlier)
      (right.perform (other.advance profile others) .regular (some profile.name)
        progress.queue.earlier)
  last : ∀ {progress other : Progress}, related progress other →
    progress.queue.waiting = [] →
    Agree failed ended (left.perform progress .leftover none [])
      (right.perform other .leftover none [])

variable {left right : Setup} {failed : Failure → Failure → Prop}
variable {related ended : Progress → Progress → Prop}

/-- Two drains in step take the same turns. -/
theorem InStep.drain (inStep : InStep left right failed related ended)
    {progress other : Progress} (start : related progress other) :
    Agree failed
      (fun last final => related last final ∧ last.queue.waiting = [])
      (left.drain progress) (right.drain other) := by
  fun_induction Setup.drain left progress generalizing other with
  | case1 progress idle =>
      have idleToo : other.queue.waiting = [] := by rw [inStep.queue start, idle]
      rw [drain_of_idle idleToo]
      exact .ok ⟨start, idle⟩
  | case2 progress profile others waiting failure performed =>
      have waitingToo : other.queue.waiting = profile :: others := by
        rw [inStep.queue start, waiting]
      rcases (inStep.turn start waiting).exists_of_error performed with ⟨fault, failedToo, faults⟩
      rw [drain_of_turn waitingToo, inStep.queue start, failedToo]
      exact .error faults
  | case3 progress profile others waiting later performed _ ih =>
      have waitingToo : other.queue.waiting = profile :: others := by
        rw [inStep.queue start, waiting]
      rcases (inStep.turn start waiting).exists_of_ok performed with ⟨next, performedToo, kept⟩
      rw [drain_of_turn waitingToo, inStep.queue start, performedToo]
      exact ih kept

/-- Two runs in step fail both or end related. -/
theorem InStep.run (inStep : InStep left right failed related ended) :
    Agree failed ended left.run right.run := by
  have first := inStep.first
  unfold Setup.run
  generalize left.queue = queue at first
  generalize right.queue = others at first
  cases first with
  | error faults => exact .error faults
  | ok performed =>
      apply performed.bind
      intro progress other kept
      apply (inStep.drain kept).bind
      rintro last final ⟨keptToo, idle⟩
      exact inStep.last keptToo idle

end Setup
end Assembly
end LayeredConfig

import LayeredConfig.Proofs.Assembly.Outcome

namespace LayeredConfig

/-!
# Runs with a number of turns

A drain ends because the end of its queue comes nearer, which evaluation cannot
follow.  With a number of turns given in advance it is a recursion on that
number.  Where the turns suffice the two agree, so that a closed run can be
evaluated with numbered turns.
-/

namespace Assembly
namespace Setup

theorem drain_of_idle {setup : Setup} {progress : Progress}
    (idle : progress.queue.waiting = []) : setup.drain progress = .ok progress := by
  unfold drain
  split
  · rfl
  · next waiting =>
      rw [idle] at waiting
      cases waiting

theorem drain_of_turn {setup : Setup} {progress : Progress} {profile : Profile}
    {others : List Profile} (waiting : progress.queue.waiting = profile :: others) :
    setup.drain progress =
      (setup.perform (progress.advance profile others) .regular (some profile.name)
        progress.queue.earlier).bind setup.drain := by
  rw [drain]
  split
  · next idle =>
      rw [idle] at waiting
      cases waiting
  · next first rest found =>
      rw [found] at waiting
      cases waiting
      split
      · next failure failed =>
          rw [failed]
          rfl
      · next later performed =>
          simp only [performed, Except.bind]

/-- Drain in at most the given number of turns. -/
def drainWithin (setup : Setup) : (turns : Nat) → Progress → Option (Except Failure Progress)
  | 0, progress =>
      match progress.queue.waiting with
      | [] => some (.ok progress)
      | _ :: _ => none
  | turns + 1, progress =>
      match progress.queue.waiting with
      | [] => some (.ok progress)
      | profile :: others =>
          match setup.perform (progress.advance profile others) .regular (some profile.name)
              progress.queue.earlier with
          | .error failure => some (.error failure)
          | .ok later => drainWithin setup turns later

theorem drain_eq_of_within {setup : Setup} {turns : Nat} {progress : Progress}
    {drained : Except Failure Progress}
    (within : setup.drainWithin turns progress = some drained) :
    setup.drain progress = drained := by
  induction turns generalizing progress with
  | zero =>
      unfold drainWithin at within
      split at within
      · next idle =>
          cases within
          exact drain_of_idle idle
      · cases within
  | succ turns ih =>
      unfold drainWithin at within
      split at within
      · next idle =>
          cases within
          exact drain_of_idle idle
      · next profile others waiting =>
          rw [drain_of_turn waiting]
          split at within
          · next failure failed =>
              cases within
              rw [failed]
              rfl
          · next later performed =>
              rw [performed]
              exact ih within

/-- Run with at most the given number of turns. -/
def runWithin (setup : Setup) (turns : Nat) : Option (Except Failure Progress) :=
  match setup.queue with
  | .error error => some (.error ⟨error, setup.environment⟩)
  | .ok queue =>
      match setup.perform ⟨setup.environment, queue, []⟩ .regular none [] with
      | .error failure => some (.error failure)
      | .ok first =>
          (setup.drainWithin turns first).map fun drained =>
            drained.bind fun last => setup.perform last .leftover none []

theorem run_eq_of_within {setup : Setup} {turns : Nat} {ran : Except Failure Progress}
    (within : setup.runWithin turns = some ran) : setup.run = ran := by
  unfold runWithin at within
  unfold run
  cases queued : setup.queue with
  | error error =>
      rw [queued] at within
      exact Option.some.inj within
  | ok queue =>
      rw [queued] at within
      cases performed : setup.perform ⟨setup.environment, queue, []⟩ .regular none [] with
      | error failure =>
          simp only [performed, Option.some.injEq] at within
          simp only [performed, bind, Except.bind]
          exact within
      | ok first =>
          simp only [performed] at within
          rcases Option.map_eq_some_iff.mp within with ⟨drained, inside, ended⟩
          simp only [performed, bind, Except.bind, drain_eq_of_within inside]
          exact ended

end Setup
end Assembly

namespace Assembler

/-- Whether a run and its result pass a test when they are evaluated with numbered turns. -/
def passesWithin (assembler : Assembler) (environment : Environment) (turns : Nat)
    (test : Assembly.Progress → Environment → Bool) : Bool :=
  match (assembler.setup (reading environment)).runWithin turns with
  | some (.ok progress) =>
      match Assembly.finish progress
          (environment.sources.find? Property.Keys.defaultProperties) with
      | .ok loaded => test progress (restored environment loaded)
      | .error _ => false
  | _ => false

theorem exists_progress_of_runWithin (assembler : Assembler) (environment : Environment)
    (turns : Nat) (test : Assembly.Progress → Environment → Bool)
    (passed : assembler.passesWithin environment turns test = true) :
    ∃ progress assembled, (assembler.setup (reading environment)).run = .ok progress ∧
      assembler.assemble environment = .ok assembled ∧ test progress assembled = true := by
  unfold passesWithin at passed
  split at passed
  · next progress within =>
      have ran := Assembly.Setup.run_eq_of_within within
      split at passed
      · next loaded finished =>
          refine ⟨progress, restored environment loaded, ran,
            assemble_eq_ok_iff.mpr ⟨loaded, ?_, rfl⟩, passed⟩
          rw [load, ran]
          exact finished
      · cases passed
  · cases passed

theorem exists_of_runWithin (assembler : Assembler) (environment : Environment) (turns : Nat)
    (test : Environment → Bool)
    (passed : assembler.passesWithin environment turns (fun _ => test) = true) :
    ∃ assembled, assembler.assemble environment = .ok assembled ∧ test assembled = true := by
  rcases exists_progress_of_runWithin assembler environment turns (fun _ => test) passed with
    ⟨_, assembled, _, done, held⟩
  exact ⟨assembled, done, held⟩

/-- Whether a run passes a test when it is evaluated with numbered turns. -/
def ranWithin (assembler : Assembler) (environment : Environment) (turns : Nat)
    (test : Assembly.Progress → Bool) : Bool :=
  match (assembler.setup (reading environment)).runWithin turns with
  | some (.ok progress) => test progress
  | _ => false

theorem exists_of_ranWithin (assembler : Assembler) (environment : Environment) (turns : Nat)
    (test : Assembly.Progress → Bool)
    (passed : assembler.ranWithin environment turns test = true) :
    ∃ progress, (assembler.setup (reading environment)).run = .ok progress ∧
      test progress = true := by
  unfold ranWithin at passed
  split at passed
  · next progress within => exact ⟨progress, Assembly.Setup.run_eq_of_within within, passed⟩
  · cases passed

/-- Whether a run fails when it is evaluated with numbered turns. -/
def failsWithin (assembler : Assembler) (environment : Environment) (turns : Nat) : Bool :=
  match (assembler.setup (reading environment)).runWithin turns with
  | some (.error _) => true
  | _ => false

theorem exists_failure_of_failsWithin (assembler : Assembler) (environment : Environment)
    (turns : Nat) (failed : assembler.failsWithin environment turns = true) :
    ∃ raised, (assembler.setup (reading environment)).run = .error raised := by
  unfold failsWithin at failed
  split at failed
  · next raised within => exact ⟨raised, Assembly.Setup.run_eq_of_within within⟩
  · cases failed

/-- An assembler over files in memory, with one directory and one base name. -/
def ofFiles (files : List (String × String)) : Assembler where
  store := .memory (KeyedList.ofList files)
  loaders := Property.Loader.standard
  search := { locations := some "conf/", names := some "app" }

end Assembler
end LayeredConfig

import LayeredConfig.Proofs.Assembly.Documents
import LayeredConfig.Proofs.Assembly.Lockstep
import LayeredConfig.Proofs.Assembly.MergedPairs
import Mathlib

namespace LayeredConfig

open Property Traversal

/-!
# Profiles that files cannot displace

When an environment lists profiles to activate, its queue is settled before any
file is read, and a settled queue ignores what documents ask to activate.  Two
libraries whose documents differ in that alone lead to the same run: the same
profiles have their turns, and sources of the same names are taken and merged.
-/

/-- Two documents that count under the same conditions, include the same profiles and have sources
of one name.  They may differ in the profiles that they activate and in other properties. -/
structure Document.SameButActive (document other : Document) : Prop where
  name : document.source.name = other.source.name
  scope : document.scope = other.scope
  expressions : document.expressions = other.expressions
  included : document.included = other.included

theorem Document.SameButActive.refl (document : Document) : document.SameButActive document :=
  ⟨rfl, rfl, rfl, rfl⟩

theorem Document.SameButActive.isTaken {document other : Document}
    (same : document.SameButActive other) (pass : Document.Pass) (profile : Option String)
    (environment : Environment) :
    document.isTaken pass profile environment = other.isTaken pass profile environment := by
  unfold Document.isTaken Document.isAccepted
  rw [same.scope, same.expressions]

namespace Assembly
namespace Queue

/-- A settled queue takes from a document only what it includes. -/
theorem note_of_settled {queue : Queue} (settled : queue.settled = true) (document : Document) :
    queue.note document = queue.enterAll document.included := by
  unfold note activate
  rw [settled, Bool.or_true, if_pos rfl]

theorem noteAll_congr {queue : Queue} (settled : queue.settled = true)
    {documents others : List Document}
    (same : List.Forall₂ Document.SameButActive documents others) :
    documents.foldl note queue = others.foldl note queue := by
  induction same generalizing queue with
  | nil => rfl
  | cons first _ ih =>
      rw [List.foldl_cons, List.foldl_cons, note_of_settled settled, note_of_settled settled,
        first.included]
      apply ih
      rw [settled_enterAll, settled]

end Queue

/-- Two entries of a log for the same pass and profile, with documents that are the same but for
what they activate. -/
structure Taken.SameButActive (taken other : Taken) : Prop where
  pass : taken.pass = other.pass
  profile : taken.profile = other.profile
  document : taken.document.SameButActive other.document

namespace Progress

/-- Two runs have come the same way: the same profiles wait and have begun, and what was taken
differs only in what it activates. -/
structure SameCourse (progress other : Progress) : Prop where
  environment : other.environment = progress.environment
  queue : other.queue = progress.queue
  log : List.Forall₂ Taken.SameButActive progress.log other.log

theorem SameCourse.advance {progress other : Progress} (same : SameCourse progress other)
    (profile : Profile) (others : List Profile) :
    SameCourse (progress.advance profile others) (other.advance profile others) where
  environment := by simp only [Progress.advance, same.environment]
  queue := by simp only [Progress.advance, same.queue]
  log := same.log

theorem SameCourse.collect {progress other : Progress} (same : SameCourse progress other)
    (settled : progress.queue.settled = true) (pass : Document.Pass) (profile : Option String)
    {groups others : List (List Document)}
    (surveyed : List.Forall₂ (List.Forall₂ Document.SameButActive) groups others) :
    SameCourse (progress.collect pass profile groups) (other.collect pass profile others) where
  environment := same.environment
  queue := by
    have noted := Queue.noteAll_congr settled (List.rel_flatten surveyed)
    simp only [Progress.collect, same.queue, noted]
  log := by
    apply List.rel_append same.log
    apply List.rel_flatMap surveyed
    intro group documents paired
    apply List.rel_map _ (List.forall₂_reverse_iff.mpr paired)
    intro document otherDocument both
    exact ⟨rfl, rfl, both⟩

/-- Runs of the same course merge sources of the same names. -/
theorem SameCourse.names_merge {progress other : Progress} (same : SameCourse progress other) :
    progress.merge.sources.names = other.merge.sources.names := by
  have start : Sources.Paired (fun source other => source.name = other.name)
      progress.environment.sources other.environment.sources := by
    rw [same.environment]
    exact List.forall₂_same.mpr fun _ _ => rfl
  have merged := paired_merge (fun _ _ named => named) start
    (same.log.imp fun _ _ both => ⟨both.pass, both.profile, both.document.name⟩)
  exact merged.names fun _ _ named => named

end Progress

namespace Setup

variable {setup : Setup} {library : Library}

/-- The documents behind every probe differ only in what they activate. -/
def DiffersInActive (setup : Setup) (library : Library) : Prop :=
  ∀ probe, Agree Eq (List.Forall₂ Document.SameButActive) (setup.library.documents probe)
    (library.documents probe)

theorem agree_survey (differs : DiffersInActive setup library) (pass : Document.Pass)
    (environment : Environment) (profile : Option String) (earlier : List String) :
    Agree Eq (List.Forall₂ (List.Forall₂ Document.SameButActive))
      (setup.survey pass environment profile earlier)
      ({ setup with library := library }.survey pass environment profile earlier) := by
  apply Agree.mapM
  apply List.forall₂_same.mpr
  intro step _
  cases step with
  | error error => exact .error rfl
  | ok probe =>
      apply (differs probe).map
      intro documents others same
      apply List.rel_filter _ same
      intro document other both
      simp only [both.isTaken]

theorem agree_perform_of_settled (differs : DiffersInActive setup library)
    {progress other : Progress} (same : progress.SameCourse other)
    (settled : progress.queue.settled = true) (pass : Document.Pass) (profile : Option String)
    (earlier : List String) :
    Agree Eq (fun later next => later.SameCourse next ∧ later.queue.settled = true)
      (setup.perform progress pass profile earlier)
      ({ setup with library := library }.perform other pass profile earlier) := by
  apply agree_perform
  rw [same.environment]
  apply (agree_survey differs pass progress.environment profile earlier).mono
  · rintro error _ rfl
    rfl
  · intro groups others surveyed
    refine ⟨same.collect settled pass profile surveyed, ?_⟩
    simp only [Progress.collect, Queue.settled_noteAll, settled, Bool.true_or]

/-- A list of profiles to activate that is not empty settles the queue. -/
theorem settled_of_listed {items : List String}
    (listed : setup.environment.list? Keys.activeProfiles = some items) (some : items ≠ [])
    {queue : Queue} (queued : setup.queue = .ok queue) : queue.settled = true := by
  rcases queue_eq_ok_iff.mp queued with ⟨activated, included, resolved, _, rfl⟩
  rw [Queue.settled_start, Bool.not_eq_true', List.isEmpty_eq_false_iff]
  rintro rfl
  unfold Environment.resolveList Environment.resolveItems at resolved
  rw [listed, Option.getD_some, mapM_eq_ok_iff, List.forall₂_nil_right_iff] at resolved
  exact some resolved

theorem inStep_of_settled (differs : DiffersInActive setup library)
    (settles : ∀ queue, setup.queue = .ok queue → queue.settled = true) :
    InStep setup { setup with library := library } Eq
      (fun progress other => progress.SameCourse other ∧ progress.queue.settled = true)
      Progress.SameCourse where
  first := by
    refine Agree.of_eq rfl (fun _ _ => rfl) ?_
    intro queue queued
    exact agree_perform_of_settled differs ⟨rfl, rfl, .nil⟩ (settles queue queued) _ _ _
  queue := fun ⟨same, _⟩ => same.queue
  turn := by
    rintro progress other profile others ⟨same, settled⟩ _
    exact agree_perform_of_settled differs (same.advance profile others) settled _ _ _
  last := by
    rintro progress other ⟨same, settled⟩ _
    exact (agree_perform_of_settled differs same settled _ _ _).mono (fun _ _ => id)
      fun _ _ kept => kept.1

/-- Profiles that an environment lists for activation are not displaced by what files activate.
Two runs over documents that differ in that alone give the same profiles their turns and take
sources of the same names, in the same order.  Without default properties an assembly is a run
that is finished: it yields sources of the same names in the same order and the same active
profiles.  Where one fails, so does the other, with the same error. -/
theorem listed_profiles_stand {items : List String}
    (listed : setup.environment.list? Keys.activeProfiles = some items) (some : items ≠ [])
    (differs : DiffersInActive setup library) :
    Agree Eq Progress.SameCourse setup.run { setup with library := library }.run ∧
      Agree Eq
        (fun assembled other => assembled.sources.names = other.sources.names ∧
          assembled.active = other.active)
        (setup.run.bind fun progress => finish progress none)
        ({ setup with library := library }.run.bind fun progress => finish progress none) := by
  have runs : Agree Eq Progress.SameCourse setup.run { setup with library := library }.run :=
    (inStep_of_settled differs fun _ queued => settled_of_listed listed some queued).run
  refine ⟨runs, runs.bind ?_⟩
  intro progress other same
  refine .ok ⟨same.names_merge, ?_⟩
  rw [same.queue]
  rfl

end Setup
end Assembly

namespace Assembler

/-- The base file activates a profile, and there is a file of another one. -/
def naming (profile : String) : Assembler :=
  ofFiles [("conf/app.yml", "\"autowire.profiles.active\": \"" ++ profile ++ "\""),
    ("conf/app-prod.properties", "port=80")]

/-- A source asks for a profile. -/
def asking (profile : String) : Environment :=
  Environment.initial.addLast ⟨"args", KeyedList.empty.insert Keys.activeProfiles profile⟩

theorem differsInActive_naming :
    ((naming "a").setup (asking "prod")).DiffersInActive
      (Assembly.Library.ofStore (naming "b").store (asking "prod")) := by
  rintro ⟨loader, location, scope⟩
  change Agree Eq (List.Forall₂ Document.SameButActive)
    (Assembly.Library.read (naming "a").store (asking "prod") ⟨loader, location, scope⟩)
    (Assembly.Library.read (naming "b").store (asking "prod") ⟨loader, location, scope⟩)
  by_cases base : location = "conf/app.yml"
  · subst base
    -- Read line by line the file activates nothing, as its keys then begin with a quote.
    rcases loader with ⟨extensions, lines | yaml⟩ <;>
      (cbv; exact .ok (.cons ⟨rfl, rfl, rfl, rfl⟩ .nil))
  · have same : (naming "a").store.find location = (naming "b").store.find location := by
      simp [naming, ofFiles, Resource.Store.find, KeyedList.ofList, KeyedList.insertAll,
        KeyedList.get?_insert, base]
    refine Agree.of_eq (Assembly.Library.read_congr same _) (fun _ _ => rfl) ?_
    intro documents _
    exact List.forall₂_same.mpr fun document _ => .refl document

/-- The assembly is the same, whichever profile the file activates. -/
theorem listed_profiles_stand_prod :
    (asking "prod").list? Keys.activeProfiles = some ["prod"] ∧ ["prod"] ≠ [] ∧
      ((naming "a").setup (asking "prod")).DiffersInActive
        (Assembly.Library.ofStore (naming "b").store (asking "prod")) ∧
      Agree Eq
        (fun assembled other => assembled.sources.names = other.sources.names ∧
          assembled.active = other.active)
        ((naming "a").assemble (asking "prod")) ((naming "b").assemble (asking "prod")) := by
  have listed : (asking "prod").list? Keys.activeProfiles = some ["prod"] := by cbv
  have some : ["prod"] ≠ [] := List.cons_ne_nil _ _
  have plain : (asking "prod").sources.contains Keys.defaultProperties = false := by decide
  refine ⟨listed, some, differsInActive_naming, ?_⟩
  rw [assemble_eq_load plain, assemble_eq_load plain]
  exact (@Assembly.Setup.listed_profiles_stand ((naming "a").setup (asking "prod")) _ _ listed
    some differsInActive_naming).2

end Assembler
end LayeredConfig

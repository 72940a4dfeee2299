import LayeredConfig.Proofs.Assembly.Evaluation
import Mathlib

namespace LayeredConfig

open Property

/-!
# Every profile has one turn, and a run ends

A name enters a queue only when no profile of that name waits or has had its
turn, and no operation repeats a name.  Each turn therefore takes another one of
the finitely many names that the environment and the texts of the store mention.
Their number bounds the turns, in whatever circles the documents refer to one
another.
-/

namespace Assembly
namespace Queue

/-! ## Distinct names -/

/-- No two profiles that wait or have had their turn share a name. -/
def Distinct (queue : Queue) : Prop :=
  queue.names.Nodup

theorem names_enter_perm {queue : Queue} {name : String} (fresh : name ∉ queue.names) :
    (queue.enter name).names.Perm (name :: queue.names) := by
  unfold enter
  rw [if_neg fresh, names, List.append_assoc]
  exact List.perm_middle.map Profile.name

theorem Distinct.enter {queue : Queue} (distinct : Distinct queue) (name : String) :
    Distinct (queue.enter name) := by
  by_cases present : name ∈ queue.names
  · rw [Queue.enter, if_pos present]
    exact distinct
  · exact (names_enter_perm present).nodup_iff.mpr (List.nodup_cons.mpr ⟨present, distinct⟩)

theorem Distinct.enterAll {queue : Queue} (distinct : Distinct queue) (names : List String) :
    Distinct (queue.enterAll names) := by
  induction names generalizing queue with
  | nil => exact distinct
  | cons head tail ih => exact ih (distinct.enter head)

theorem names_dropDefaults_sublist (queue : Queue) :
    queue.dropDefaults.names.Sublist queue.names :=
  (List.filter_sublist.append_right queue.begun).map Profile.name

theorem Distinct.activate {queue : Queue} (distinct : Distinct queue) (names : List String) :
    Distinct (queue.activate names) := by
  unfold Queue.activate
  split
  · exact distinct
  · exact (distinct.enterAll names).sublist (names_dropDefaults_sublist _)

theorem Distinct.note {queue : Queue} (distinct : Distinct queue) (document : Document) :
    Distinct (queue.note document) :=
  (distinct.activate document.active).enterAll document.included

theorem Distinct.noteAll {queue : Queue} (distinct : Distinct queue) (documents : List Document) :
    Distinct (documents.foldl Queue.note queue) := by
  induction documents generalizing queue with
  | nil => exact distinct
  | cons head tail ih => exact ih (distinct.note head)

theorem names_advance_perm {queue : Queue} {profile : Profile} {others : List Profile}
    (waiting : queue.waiting = profile :: others) :
    (queue.advance profile others).names.Perm queue.names := by
  rw [names, names, waiting, Queue.advance, ← List.append_assoc]
  exact (List.perm_append_singleton profile (others ++ queue.begun)).map Profile.name

theorem Distinct.advance {queue : Queue} (distinct : Distinct queue) {profile : Profile}
    {others : List Profile} (waiting : queue.waiting = profile :: others) :
    Distinct (queue.advance profile others) :=
  (names_advance_perm waiting).nodup_iff.mpr distinct

theorem Distinct.nodup_earlier {queue : Queue} (distinct : Distinct queue) :
    queue.earlier.Nodup :=
  distinct.sublist ((List.sublist_append_right queue.waiting queue.begun).map Profile.name)

/-- A profile whose turn comes has not had one. -/
theorem Distinct.not_mem_earlier {queue : Queue} (distinct : Distinct queue) {profile : Profile}
    {others : List Profile} (waiting : queue.waiting = profile :: others) :
    profile.name ∉ queue.earlier := by
  rw [Distinct, names, waiting, List.map_append, List.map_cons, List.cons_append,
    List.nodup_cons, List.mem_append, not_or] at distinct
  exact distinct.1.2

theorem Distinct.mem_missing {queue : Queue} (distinct : Distinct queue) {known : List String}
    (inside : queue.names ⊆ known) {profile : Profile} {others : List Profile}
    (waiting : queue.waiting = profile :: others) :
    profile.name ∈ Names.missing known queue.earlier := by
  have member : profile.name ∈ queue.names := by
    rw [names, waiting]
    exact List.mem_cons_self
  exact List.mem_filter.mpr ⟨inside member, decide_eq_true (distinct.not_mem_earlier waiting)⟩

theorem distinct_start (environment : Environment) (activated included : List String) :
    Distinct (start environment activated included) := by
  have none : Distinct empty := List.nodup_nil
  rw [start_eq]
  split
  · rw [Distinct, names, begun_requests, List.append_nil, List.map_map]
    have same : Profile.name ∘ Profile.fallback = id := rfl
    rw [same, List.map_id]
    exact environment.defaults_nodup
  · exact (none.enterAll _).activate activated

/-! ## Which names there are -/

theorem names_enter_subset {queue : Queue} {known : List String} {name : String}
    (inside : queue.names ⊆ known) (member : name ∈ known) : (queue.enter name).names ⊆ known := by
  by_cases present : name ∈ queue.names
  · rw [enter, if_pos present]
    exact inside
  · exact List.Subset.trans (names_enter_perm present).subset
      (List.cons_subset.mpr ⟨member, inside⟩)

theorem names_enterAll_subset {queue : Queue} {known more : List String}
    (inside : queue.names ⊆ known) (members : more ⊆ known) :
    (queue.enterAll more).names ⊆ known := by
  induction more generalizing queue with
  | nil => exact inside
  | cons head tail ih =>
      rcases List.cons_subset.mp members with ⟨first, rest⟩
      exact ih (names_enter_subset inside first) rest

theorem names_activate_subset {queue : Queue} {known more : List String}
    (inside : queue.names ⊆ known) (members : more ⊆ known) :
    (queue.activate more).names ⊆ known := by
  unfold activate
  split
  · exact inside
  · have entered := names_enterAll_subset inside members
    exact List.Subset.trans (names_dropDefaults_sublist _).subset entered

theorem names_noteAll_subset {queue : Queue} {known : List String} {documents : List Document}
    (inside : queue.names ⊆ known)
    (members : ∀ document ∈ documents, document.active ⊆ known ∧ document.included ⊆ known) :
    (documents.foldl note queue).names ⊆ known := by
  induction documents generalizing queue with
  | nil => exact inside
  | cons head tail ih =>
      rcases members head List.mem_cons_self with ⟨active, included⟩
      exact ih (names_enterAll_subset (names_activate_subset inside active) included)
        fun document later => members document (List.mem_cons_of_mem _ later)

theorem names_start_subset (environment : Environment) (activated included : List String) :
    (start environment activated included).names ⊆
      environment.active ++ environment.defaults ++ activated ++ included := by
  rw [start_eq]
  split
  · rw [names, begun_requests, List.append_nil, List.map_map]
    intro name member
    rcases List.mem_map.mp member with ⟨default, listed, rfl⟩
    simp [Profile.fallback, listed]
  · refine names_activate_subset (names_enterAll_subset (List.nil_subset _) ?_) ?_
    · intro name member
      rcases List.mem_append.mp member with other | listed
      · simp [(List.mem_filter.mp other).1]
      · simp [listed]
    · intro name listed
      simp [listed]

end Queue

namespace Setup

/-! ## The queues of a run -/

/-- A queue that a run may have at some moment: a pass is under way and has noted some
documents. -/
inductive Occurs (setup : Setup) : Queue → Prop where
  | first {queue : Queue} (queued : setup.queue = .ok queue) (noted : List Document) :
      Occurs setup (noted.foldl Queue.note queue)
  | turn {progress : Progress} {profile : Profile} {others : List Profile}
      (reached : Reached setup progress) (waiting : progress.queue.waiting = profile :: others)
      (noted : List Document) :
      Occurs setup (noted.foldl Queue.note (progress.queue.advance profile others))
  | last {progress : Progress} (reached : Reached setup progress)
      (idle : progress.queue.waiting = []) (noted : List Document) :
      Occurs setup (noted.foldl Queue.note progress.queue)

theorem distinct_of_queue {setup : Setup} {queue : Queue} (queued : setup.queue = .ok queue) :
    queue.Distinct := by
  rcases queue_eq_ok_iff.mp queued with ⟨activated, included, _, _, rfl⟩
  exact Queue.distinct_start _ _ _

theorem distinct_of_reached {setup : Setup} {progress : Progress}
    (reached : Reached setup progress) : progress.queue.Distinct := by
  induction reached with
  | start queued performed =>
      rcases perform_eq_ok_iff.mp performed with ⟨groups, _, rfl⟩
      exact (distinct_of_queue queued).noteAll _
  | turn _ waiting performed ih =>
      rcases perform_eq_ok_iff.mp performed with ⟨groups, _, rfl⟩
      exact (ih.advance waiting).noteAll _

theorem distinct_of_occurs {setup : Setup} {queue : Queue} (occurs : Occurs setup queue) :
    queue.Distinct := by
  cases occurs with
  | first queued noted => exact (distinct_of_queue queued).noteAll noted
  | turn reached waiting noted => exact ((distinct_of_reached reached).advance waiting).noteAll noted
  | last reached _ noted => exact (distinct_of_reached reached).noteAll noted

/-! ## How many turns there are -/

/-- The names of the profiles that the documents of a library activate or include. -/
def Covers (setup : Setup) (known : List String) : Prop :=
  ∀ probe documents, setup.library.documents probe = .ok documents →
    ∀ document ∈ documents, document.active ⊆ known ∧ document.included ⊆ known

theorem names_subset_of_perform {setup : Setup} {known : List String} (covers : setup.Covers known)
    {progress later : Progress} {pass : Document.Pass} {profile : Option String}
    {earlier : List String}
    (performed : setup.perform progress pass profile earlier = .ok later)
    (inside : progress.queue.names ⊆ known) : later.queue.names ⊆ known := by
  rcases perform_eq_ok_iff.mp performed with ⟨groups, surveyed, rfl⟩
  refine Queue.names_noteAll_subset inside ?_
  intro document member
  rcases (mem_survey_iff surveyed document).mp member with ⟨probe, found⟩
  rcases found.read with ⟨documents, read, present⟩
  exact covers probe documents read document present

/-- There are enough turns when there is one for each known name that has not had any. -/
theorem drainWithin_isSome {setup : Setup} {known : List String} (covers : setup.Covers known)
    {turns : Nat} {progress : Progress} (distinct : progress.queue.Distinct)
    (inside : progress.queue.names ⊆ known)
    (enough : (Names.missing known progress.queue.earlier).length ≤ turns) :
    (setup.drainWithin turns progress).isSome = true := by
  induction turns generalizing progress with
  | zero =>
      unfold drainWithin
      split
      · rfl
      · next profile others waiting =>
          have positive := List.length_pos_of_mem (distinct.mem_missing inside waiting)
          omega
  | succ turns ih =>
      unfold drainWithin
      split
      · rfl
      · next profile others waiting =>
          split
          · rfl
          · next later performed =>
              have advanced := List.Subset.trans (Queue.names_advance_perm waiting).subset inside
              have still := names_subset_of_perform covers performed advanced
              rcases perform_eq_ok_iff.mp performed with ⟨groups, _, rfl⟩
              refine ih ((distinct.advance waiting).noteAll _) still ?_
              have had : ((progress.advance profile others).collect .regular (some profile.name)
                  groups).queue.earlier = progress.queue.earlier ++ [profile.name] := by
                rw [Queue.earlier, begun_collect]
                exact List.map_append
              have missing := List.mem_filter.mp (distinct.mem_missing inside waiting)
              have fewer := Names.length_missing_lt missing.1 (of_decide_eq_true missing.2)
                (List.mem_append_right _ (List.mem_singleton.mpr rfl))
                (List.subset_append_left progress.queue.earlier [profile.name])
              rw [had]
              omega

theorem runWithin_isSome {setup : Setup} {known : List String} (covers : setup.Covers known)
    (start : ∀ queue, setup.queue = .ok queue → queue.names ⊆ known) :
    (setup.runWithin known.length).isSome = true := by
  unfold runWithin
  split
  · rfl
  · next queue queued =>
      split
      · rfl
      · next first performed =>
          have inside := names_subset_of_perform covers performed (start queue queued)
          have distinct := distinct_of_reached (.start queued performed)
          rw [Option.isSome_map]
          exact drainWithin_isSome covers distinct inside (List.length_filter_le _ known)

end Setup
end Assembly

namespace Assembler

/-- The names of profiles that an environment and the texts of a store mention. -/
def mentioned (assembler : Assembler) (environment : Environment) : List String :=
  environment.active ++ environment.defaults ++
    (environment.resolveList Keys.activeProfiles).toOption.getD [] ++
    (environment.resolveList Keys.includedProfiles).toOption.getD [] ++
    Assembly.Library.namesIn assembler.store environment

theorem covers_mentioned (assembler : Assembler) (environment : Environment) :
    (assembler.setup environment).Covers (assembler.mentioned environment) := by
  intro probe documents read document member
  have named := Assembly.Library.subset_namesIn read member
  have listed : document.active ++ document.included ⊆ assembler.mentioned environment :=
    List.Subset.trans named (List.subset_append_right _ _)
  exact List.append_subset.mp listed

theorem names_subset_mentioned {assembler : Assembler} {environment : Environment}
    {queue : Assembly.Queue} (queued : (assembler.setup environment).queue = .ok queue) :
    queue.names ⊆ assembler.mentioned environment := by
  rcases Assembly.Setup.queue_eq_ok_iff.mp queued with ⟨activated, included, first, second, rfl⟩
  have atStart := Assembly.Queue.names_start_subset environment activated included
  refine List.Subset.trans atStart ?_
  unfold mentioned
  simp only [setup] at first second
  rw [first, second]
  exact List.subset_append_left _ _

/-- Whatever moment of a run one looks at, the profiles that wait, the one whose turn it is and
those that had theirs bear different names, so that no name has a second turn.  A run has no
more turns than there are names mentioned. -/
theorem one_turn_for_each_name (assembler : Assembler) (environment : Environment) :
    (∀ queue, (assembler.setup environment).Occurs queue →
      ((queue.waiting ++ queue.begun).map Profile.name).Nodup) ∧
    (∀ progress profile others, (assembler.setup environment).Reached progress →
      progress.queue.waiting = profile :: others → profile.name ∉ progress.queue.earlier) ∧
    (assembler.setup environment).runWithin (assembler.mentioned environment).length =
      some (assembler.setup environment).run := by
  refine ⟨fun queue occurs => Assembly.Setup.distinct_of_occurs occurs, ?_, ?_⟩
  · intro progress profile others reached waiting
    exact (Assembly.Setup.distinct_of_reached reached).not_mem_earlier waiting
  · have ends := Assembly.Setup.runWithin_isSome (covers_mentioned assembler environment)
      fun queue queued => names_subset_mentioned queued
    rcases Option.isSome_iff_exists.mp ends with ⟨ran, within⟩
    rw [within, Assembly.Setup.run_eq_of_within within]

/-- Files whose profiles ask for one another in a circle. -/
def circular : Assembler :=
  ofFiles [("conf/app.properties", "autowire.profiles.active=a"),
    ("conf/app-a.properties", "autowire.profiles.include=b"),
    ("conf/app-b.properties", "autowire.profiles.include=a")]

theorem one_turn_for_each_name_circular :
    ∃ progress, (circular.setup Environment.initial).runWithin
        (circular.mentioned Environment.initial).length = some (.ok progress) ∧
      progress.queue.earlier = ["a", "b"] := by
  rcases exists_progress_of_runWithin circular Environment.initial 2
    (fun progress _ => decide (progress.queue.earlier = ["a", "b"])) (by cbv) with
    ⟨progress, _, ran, _, turns⟩
  refine ⟨progress, ?_, of_decide_eq_true turns⟩
  rw [← ran]
  exact (one_turn_for_each_name circular Environment.initial).2.2

end Assembler
end LayeredConfig

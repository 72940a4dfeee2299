import LayeredConfig.Assembly.Queue

namespace LayeredConfig
namespace Assembly
namespace Queue

/-!
# What a document can do to the queue

Whatever a document says about profiles, the profiles whose turn has come stay
as they are, requested profiles that wait go on waiting, no default joins them,
and defaults stay ahead of requested profiles.  These four facts are proved once
for each operation, and what the run needs of the queue follows from them.
-/

/-- Defaults wait ahead of requested profiles. -/
def DefaultsFirst (queue : Queue) : Prop :=
  queue.waiting.Pairwise fun sooner later => later.isDefault = true → sooner.isDefault = true

/-- What the operations on a queue keep while no profile has its turn. -/
structure Grows (queue later : Queue) : Prop where
  begun : later.begun = queue.begun
  kept : ∀ profile ∈ queue.waiting, profile.isDefault = false → profile ∈ later.waiting
  defaults : ∀ profile ∈ later.waiting, profile.isDefault = true → profile ∈ queue.waiting
  sorted : DefaultsFirst queue → DefaultsFirst later

theorem Grows.refl (queue : Queue) : Grows queue queue where
  begun := rfl
  kept := fun _ member _ => member
  defaults := fun _ member _ => member
  sorted := id

theorem Grows.trans {first second third : Queue} (sooner : Grows first second)
    (later : Grows second third) : Grows first third where
  begun := later.begun.trans sooner.begun
  kept := fun profile member requested =>
    later.kept profile (sooner.kept profile member requested) requested
  defaults := fun profile member default =>
    sooner.defaults profile (later.defaults profile member default) default
  sorted := fun first => later.sorted (sooner.sorted first)

theorem grows_enter (queue : Queue) (name : String) : Grows queue (queue.enter name) := by
  unfold enter
  split
  · exact Grows.refl queue
  · constructor
    · rfl
    · intro profile member _
      exact List.mem_append_left _ member
    · intro profile member default
      rcases List.mem_append.mp member with before | new
      · exact before
      · rw [List.mem_singleton.mp new] at default
        cases default
    · intro sorted
      refine List.pairwise_append.mpr ⟨sorted, List.pairwise_singleton _ _, ?_⟩
      intro sooner _ later new default
      rw [List.mem_singleton.mp new] at default
      cases default

theorem grows_enterAll (queue : Queue) (names : List String) :
    Grows queue (queue.enterAll names) := by
  induction names generalizing queue with
  | nil => exact Grows.refl queue
  | cons head tail ih => exact (grows_enter queue head).trans (ih (queue.enter head))

theorem grows_dropDefaults (queue : Queue) : Grows queue queue.dropDefaults where
  begun := rfl
  kept := by
    intro profile member requested
    exact List.mem_filter.mpr ⟨member, by rw [requested]; rfl⟩
  defaults := fun _ member _ => (List.mem_filter.mp member).1
  sorted := fun sorted => sorted.filter _

theorem grows_activate (queue : Queue) (names : List String) :
    Grows queue (queue.activate names) := by
  unfold activate
  split
  · exact Grows.refl queue
  · have entered := (grows_enterAll queue names).trans (grows_dropDefaults _)
    exact ⟨entered.begun, entered.kept, entered.defaults, entered.sorted⟩

theorem grows_note (queue : Queue) (document : Document) : Grows queue (queue.note document) :=
  (grows_activate queue document.active).trans (grows_enterAll _ document.included)

theorem grows_noteAll (queue : Queue) (documents : List Document) :
    Grows queue (documents.foldl note queue) := by
  induction documents generalizing queue with
  | nil => exact Grows.refl queue
  | cons head tail ih => exact (grows_note queue head).trans (ih (queue.note head))

/-! ## Requested profiles -/

/-- A profile of this name was requested: it waits or has had its turn. -/
def Asked (queue : Queue) (name : String) : Prop :=
  ∃ profile ∈ queue.waiting ++ queue.begun, profile.isDefault = false ∧ profile.name = name

theorem Asked.grows {queue later : Queue} {name : String} (asked : Asked queue name)
    (grows : Grows queue later) : Asked later name := by
  rcases asked with ⟨profile, member, requested, named⟩
  refine ⟨profile, ?_, requested, named⟩
  rcases List.mem_append.mp member with waiting | begun
  · exact List.mem_append_left _ (grows.kept profile waiting requested)
  · exact List.mem_append_right _ (grows.begun ▸ begun)

theorem Asked.advance {queue : Queue} {name : String} {profile : Profile} {others : List Profile}
    (asked : Asked queue name) (waiting : queue.waiting = profile :: others) :
    Asked (queue.advance profile others) name := by
  rcases asked with ⟨found, member, requested, named⟩
  refine ⟨found, ?_, requested, named⟩
  rw [waiting] at member
  simp only [Queue.advance, List.mem_append, List.mem_cons, List.not_mem_nil, or_false]
    at member ⊢
  rcases member with (head | tail) | begun
  · exact Or.inr (Or.inr head)
  · exact Or.inl tail
  · exact Or.inr (Or.inl begun)

/-- No default of this name waits or has had its turn. -/
def Free (queue : Queue) (name : String) : Prop :=
  ∀ profile ∈ queue.waiting ++ queue.begun, profile.isDefault = true → profile.name ≠ name

theorem free_empty (name : String) : Free empty name := by
  intro profile member
  cases member

theorem Free.grows {queue later : Queue} {name : String} (free : Free queue name)
    (grows : Grows queue later) : Free later name := by
  intro profile member default
  rcases List.mem_append.mp member with waiting | begun
  · exact free profile (List.mem_append_left _ (grows.defaults profile waiting default)) default
  · exact free profile (List.mem_append_right _ (grows.begun ▸ begun)) default

/-- A name that enters is requested, unless there is a default of that name. -/
theorem asked_enter {queue : Queue} {name : String} (free : Free queue name) :
    Asked (queue.enter name) name := by
  unfold enter
  split
  · next present =>
      rcases List.mem_map.mp present with ⟨profile, member, named⟩
      refine ⟨profile, member, ?_, named⟩
      rcases Bool.eq_false_or_eq_true profile.isDefault with default | requested
      · exact absurd named (free profile member default)
      · exact requested
  · exact ⟨Profile.requested name, by simp, rfl, rfl⟩

theorem asked_enterAll {queue : Queue} {names : List String} {name : String}
    (free : Free queue name) (member : name ∈ names) : Asked (queue.enterAll names) name := by
  induction names generalizing queue with
  | nil => cases member
  | cons head tail ih =>
      rcases List.mem_cons.mp member with rfl | later
      · exact (asked_enter free).grows (grows_enterAll (queue.enter name) tail)
      · exact ih (free.grows (grows_enter queue head)) later

theorem asked_activate {queue : Queue} {names : List String} {name : String}
    (free : Free queue name) (unsettled : queue.settled = false) (member : name ∈ names) :
    Asked (queue.activate names) name := by
  have some : names.isEmpty = false := List.isEmpty_eq_false_iff.mpr (List.ne_nil_of_mem member)
  unfold activate
  rw [some, unsettled]
  have dropped : Asked (queue.enterAll names).dropDefaults name :=
    (asked_enterAll free member).grows (grows_dropDefaults _)
  exact dropped

/-! ## Settling -/

theorem settled_enterAll (queue : Queue) (names : List String) :
    (queue.enterAll names).settled = queue.settled := by
  induction names generalizing queue with
  | nil => rfl
  | cons head tail ih =>
      apply (ih (queue.enter head)).trans
      unfold enter
      split <;> rfl

/-- The first list of profiles to activate that is not empty settles the queue. -/
theorem settled_activate (queue : Queue) (names : List String) :
    (queue.activate names).settled = (queue.settled || !names.isEmpty) := by
  unfold activate
  cases settled : queue.settled <;> cases names <;> simp [settled]

theorem settled_note (queue : Queue) (document : Document) :
    (queue.note document).settled = (queue.settled || !document.active.isEmpty) := by
  rw [note, settled_enterAll, settled_activate]

theorem settled_noteAll (queue : Queue) (documents : List Document) :
    (documents.foldl note queue).settled =
      (queue.settled || documents.any fun document => !document.active.isEmpty) := by
  induction documents generalizing queue with
  | nil => exact (Bool.or_false _).symm
  | cons head tail ih =>
      rw [List.foldl_cons, ih, settled_note, List.any_cons, Bool.or_assoc]

/-- Once a list of profiles to activate has taken effect, no default waits. -/
def Cleared (queue : Queue) : Prop :=
  queue.settled = true → ∀ profile ∈ queue.waiting, profile.isDefault = false

theorem Cleared.grows {queue later : Queue} (cleared : Cleared queue) (grows : Grows queue later)
    (same : later.settled = queue.settled) : Cleared later := by
  intro settled profile waiting
  rcases Bool.eq_false_or_eq_true profile.isDefault with default | requested
  · exact cleared (same ▸ settled) profile (grows.defaults profile waiting default)
  · exact requested

theorem Cleared.activate {queue : Queue} (cleared : Cleared queue) (names : List String) :
    Cleared (queue.activate names) := by
  unfold Queue.activate
  split
  · exact cleared
  · intro _ profile waiting
    have kept := (List.mem_filter.mp waiting).2
    exact (Bool.not_eq_true' _).mp kept

theorem Cleared.note {queue : Queue} (cleared : Cleared queue) (document : Document) :
    Cleared (queue.note document) :=
  (cleared.activate document.active).grows (grows_enterAll _ _) (settled_enterAll _ _)

theorem Cleared.noteAll {queue : Queue} (cleared : Cleared queue) (documents : List Document) :
    Cleared (documents.foldl Queue.note queue) := by
  induction documents generalizing queue with
  | nil => exact cleared
  | cons head tail ih => exact ih (cleared.note head)

theorem Cleared.advance {queue : Queue} (cleared : Cleared queue) {profile : Profile}
    {others : List Profile} (waiting : queue.waiting = profile :: others) :
    Cleared (queue.advance profile others) := by
  intro settled other inside
  exact cleared settled other (waiting ▸ List.mem_cons_of_mem _ inside)

/-! ## The queue at the start -/

/-- What waits before the defaults are considered. -/
def requests (environment : Environment) (activated included : List String) : Queue :=
  let others := environment.active.filter fun name =>
    !activated.contains name && !included.contains name
  (empty.enterAll (others ++ included)).activate activated

theorem start_eq (environment : Environment) (activated included : List String) :
    start environment activated included =
      if (requests environment activated included).waiting.isEmpty then
        { requests environment activated included with
          waiting := environment.defaults.map Profile.fallback }
      else requests environment activated included := rfl

theorem grows_requests (environment : Environment) (activated included : List String) :
    Grows empty (requests environment activated included) :=
  (grows_enterAll empty _).trans (grows_activate _ activated)

theorem begun_requests (environment : Environment) (activated included : List String) :
    (requests environment activated included).begun = [] :=
  (grows_requests environment activated included).begun

theorem plain_requests (environment : Environment) (activated included : List String) :
    ∀ profile ∈ (requests environment activated included).waiting,
      profile.isDefault = false := by
  intro profile member
  rcases Bool.eq_false_or_eq_true profile.isDefault with default | requested
  · have none := (grows_requests environment activated included).defaults profile member default
    cases none
  · exact requested

/-- Every profile that is active or on a list waits as a requested one. -/
theorem asked_requests {environment : Environment} {activated included : List String}
    {name : String} (listed : name ∈ environment.active ∨ name ∈ activated ∨ name ∈ included) :
    Asked (requests environment activated included) name := by
  unfold requests
  by_cases activates : name ∈ activated
  · exact asked_activate ((free_empty name).grows (grows_enterAll empty _))
      (settled_enterAll empty _) activates
  · refine (asked_enterAll (free_empty name) ?_).grows (grows_activate _ activated)
    by_cases includes : name ∈ included
    · exact List.mem_append_right _ includes
    · rcases listed with active | listed | listed
      · refine List.mem_append_left _ (List.mem_filter.mpr ⟨active, ?_⟩)
        simp [activates, includes]
      · exact absurd listed activates
      · exact absurd listed includes

theorem begun_start (environment : Environment) (activated included : List String) :
    (start environment activated included).begun = [] := by
  rw [start_eq]
  split <;> exact begun_requests environment activated included

/-- When nobody waits, no profile is active and both lists are empty. -/
theorem not_listed_of_requests {environment : Environment} {activated included : List String}
    (nobody : (requests environment activated included).waiting.isEmpty = true) (name : String) :
    ¬ (name ∈ environment.active ∨ name ∈ activated ∨ name ∈ included) := by
  intro listed
  have asked : Asked (requests environment activated included) name := asked_requests listed
  rcases asked with ⟨profile, member, _⟩
  rw [begun_requests, List.isEmpty_iff.mp nobody] at member
  cases member

theorem asked_start {environment : Environment} {activated included : List String}
    {name : String} (listed : name ∈ environment.active ∨ name ∈ activated ∨ name ∈ included) :
    Asked (start environment activated included) name := by
  rw [start_eq]
  split
  · next nobody => exact absurd listed (not_listed_of_requests nobody name)
  · exact asked_requests listed

theorem settled_requests (environment : Environment) (activated included : List String) :
    (requests environment activated included).settled = !activated.isEmpty := by
  rw [requests, settled_activate, settled_enterAll]
  rfl

theorem settled_start (environment : Environment) (activated included : List String) :
    (start environment activated included).settled = !activated.isEmpty := by
  rw [start_eq]
  split <;> exact settled_requests environment activated included

/-- The defaults wait at the start only when there is nothing to activate. -/
theorem cleared_start (environment : Environment) (activated included : List String) :
    Cleared (start environment activated included) := by
  intro settled profile waiting
  rw [start_eq] at waiting
  split at waiting
  · next nobody =>
      rw [settled_start, Bool.not_eq_true', List.isEmpty_eq_false_iff] at settled
      rcases List.exists_mem_of_ne_nil activated settled with ⟨name, listed⟩
      exact absurd (Or.inr (Or.inl listed)) (not_listed_of_requests nobody name)
  · exact plain_requests _ _ _ _ waiting

theorem defaultsFirst_start (environment : Environment) (activated included : List String) :
    DefaultsFirst (start environment activated included) := by
  rw [start_eq]
  split
  · exact List.pairwise_map.mpr (List.pairwise_of_forall fun _ _ _ => rfl)
  · exact (grows_requests environment activated included).sorted List.Pairwise.nil

/-- A default that waits at the start is one of the environment, where no profile is active and
both lists are empty. -/
theorem fallback_of_start {environment : Environment} {activated included : List String}
    {profile : Profile} (waiting : profile ∈ (start environment activated included).waiting)
    (default : profile.isDefault = true) :
    profile.name ∈ environment.defaults ∧
      ∀ name, ¬ (name ∈ environment.active ∨ name ∈ activated ∨ name ∈ included) := by
  rw [start_eq] at waiting
  split at waiting
  · next nobody =>
      rcases List.mem_map.mp waiting with ⟨name, listed, rfl⟩
      exact ⟨listed, not_listed_of_requests nobody⟩
  · rw [plain_requests _ _ _ _ waiting] at default
    cases default

end Queue
end Assembly
end LayeredConfig

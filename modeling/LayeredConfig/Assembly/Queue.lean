import LayeredConfig.Document
import LayeredConfig.Names
import LayeredConfig.Profile.Basic

namespace LayeredConfig
namespace Assembly

/-!
The queue of profiles whose documents are to be looked for.

A profile enters the queue once: a name that waits or whose turn has come does
not enter again.  The first list of profiles to activate settles what is
activated; from then on defaults wait no longer and later lists do not count.
-/

structure Queue where
  /-- The profiles whose turn is to come. -/
  waiting : List Profile
  /-- The profiles whose turn has come, in order. -/
  begun : List Profile
  /-- Whether a list of profiles to activate has taken effect. -/
  settled : Bool

namespace Queue

def empty : Queue where
  waiting := []
  begun := []
  settled := false

/-- The names that do not enter again. -/
def names (queue : Queue) : List String :=
  (queue.waiting ++ queue.begun).map Profile.name

/-- The names of the profiles whose turn has come. -/
def earlier (queue : Queue) : List String :=
  queue.begun.map Profile.name

/-- Let a profile wait that is requested by name. -/
def enter (queue : Queue) (name : String) : Queue :=
  if name ∈ queue.names then queue
  else { queue with waiting := queue.waiting ++ [Profile.requested name] }

def enterAll (queue : Queue) (names : List String) : Queue :=
  names.foldl enter queue

/-- The queue without the defaults that wait. -/
def dropDefaults (queue : Queue) : Queue :=
  { queue with waiting := queue.waiting.filter (fun profile => !profile.isDefault) }

/-- Activate profiles, unless there are none or others have been activated. -/
def activate (queue : Queue) (names : List String) : Queue :=
  if names.isEmpty || queue.settled then queue
  else { (queue.enterAll names).dropDefaults with settled := true }

/-- Follow what a document says about profiles. -/
def note (queue : Queue) (document : Document) : Queue :=
  (queue.activate document.active).enterAll document.included

/-- Let a profile have its turn, the others go on waiting. -/
def advance (queue : Queue) (profile : Profile) (others : List Profile) : Queue :=
  { queue with waiting := others, begun := queue.begun ++ [profile] }

/-- The queue at the start.  The profiles that are active and are on neither list come first,
then those to include and those to activate; the defaults come only when there are no others. -/
def start (environment : Environment) (activated included : List String) : Queue :=
  let others := environment.active.filter fun name =>
    !activated.contains name && !included.contains name
  let queue := (empty.enterAll (others ++ included)).activate activated
  if queue.waiting.isEmpty then
    { queue with waiting := environment.defaults.map Profile.fallback }
  else queue

/-- How far a queue is from its end, given the names that may still enter. -/
def distance (known : List String) (queue : Queue) : Nat × Nat × Nat :=
  (if queue.settled then 0 else 1, (Names.missing known queue.names).length,
    queue.waiting.length)

/-- One distance is less than another: settling comes first, then the names that may still
enter, then the profiles that wait. -/
abbrev Nearer : Nat × Nat × Nat → Nat × Nat × Nat → Prop :=
  Prod.Lex (· < ·) (Prod.Lex (· < ·) (· < ·))

theorem Nearer.trans {first second third : Nat × Nat × Nat} (near : Nearer first second)
    (far : Nearer second third) : Nearer first third := by
  simp only [Nearer, Prod.lex_def] at near far ⊢
  omega

/-- A queue that is the other one or nearer to its end. -/
def Reaches (known : List String) (later queue : Queue) : Prop :=
  later = queue ∨ Nearer (distance known later) (distance known queue)

theorem Reaches.trans {known : List String} {third second first : Queue}
    (later : Reaches known third second) (sooner : Reaches known second first) :
    Reaches known third first := by
  rcases later with rfl | nearer
  · exact sooner
  · rcases sooner with rfl | closer
    · exact .inr nearer
    · exact .inr (nearer.trans closer)

theorem reaches_enter {known : List String} {name : String} (member : name ∈ known)
    (queue : Queue) : Reaches known (queue.enter name) queue := by
  unfold enter
  split
  · exact .inl rfl
  · next fresh =>
      refine .inr (Prod.Lex.right _ (Prod.Lex.left _ _ ?_))
      refine Names.length_missing_lt member fresh ?_ ?_
      · simp [names, Profile.requested]
      · intro other present
        simp only [names, List.map_append, List.mem_append] at present ⊢
        exact present.imp .inl id

theorem reaches_enterAll {known more : List String} (members : more ⊆ known) (queue : Queue) :
    Reaches known (queue.enterAll more) queue := by
  induction more generalizing queue with
  | nil => exact .inl rfl
  | cons head tail ih =>
      have known := List.cons_subset.1 members
      exact (ih known.2 (queue.enter head)).trans (reaches_enter known.1 queue)

theorem reaches_activate (known more : List String) (queue : Queue) :
    Reaches known (queue.activate more) queue := by
  unfold activate
  split
  · exact .inl rfl
  · next effective =>
      have unsettled : queue.settled = false := by simp_all
      refine .inr (Prod.Lex.left _ _ ?_)
      simp [unsettled]

theorem reaches_note {known : List String} {document : Document}
    (members : document.included ⊆ known) (queue : Queue) :
    Reaches known (queue.note document) queue :=
  (reaches_enterAll members _).trans (reaches_activate known document.active queue)

theorem reaches_noteAll {known : List String} {documents : List Document}
    (members : ∀ document ∈ documents, document.included ⊆ known) (queue : Queue) :
    Reaches known (documents.foldl note queue) queue := by
  induction documents generalizing queue with
  | nil => exact .inl rfl
  | cons head tail ih =>
      refine (ih (fun document inside => members document (List.mem_cons_of_mem _ inside)) _).trans ?_
      exact reaches_note (members head (by simp)) queue

/-- When a profile has its turn, the end comes nearer. -/
theorem nearer_advance {known : List String} {queue later : Queue} {profile : Profile}
    {others : List Profile} (waiting : queue.waiting = profile :: others)
    (reaches : Reaches known later (queue.advance profile others)) :
    Nearer (distance known later) (distance known queue) := by
  have same : ∀ name, name ∈ (queue.advance profile others).names ↔ name ∈ queue.names := by
    intro name
    simp only [names, advance, waiting, List.map_append, List.map_cons, List.map_nil,
      List.mem_append, List.mem_cons, List.not_mem_nil, or_false]
    constructor
    · rintro (inside | inside | inside)
      · exact .inl (.inr inside)
      · exact .inr inside
      · exact .inl (.inl inside)
    · rintro ((inside | inside) | inside)
      · exact .inr (.inr inside)
      · exact .inl inside
      · exact .inr (.inl inside)
  have step : Nearer (distance known (queue.advance profile others)) (distance known queue) := by
    unfold distance
    rw [Names.missing_congr same]
    refine Prod.Lex.right _ (Prod.Lex.right _ ?_)
    simp [advance, waiting]
  rcases reaches with rfl | nearer
  · exact step
  · exact nearer.trans step

end Queue
end Assembly
end LayeredConfig

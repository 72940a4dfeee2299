import LayeredConfig.Proofs.Traversal

namespace LayeredConfig
namespace Traversal

/-!
# Two computations side by side

Two computations that may fail agree when both fail, with related failures, or
both succeed, with related results.  Agreement is kept by sequencing and by
walks over lists whose items are taken in pairs.
-/

/-- Both fail with related failures, or both succeed with related results. -/
inductive Agree {Fault OtherFault Result OtherResult : Type} (failed : Fault → OtherFault → Prop)
    (done : Result → OtherResult → Prop) :
    Except Fault Result → Except OtherFault OtherResult → Prop where
  | error {fault : Fault} {other : OtherFault} (related : failed fault other) :
      Agree failed done (.error fault) (.error other)
  | ok {result : Result} {other : OtherResult} (related : done result other) :
      Agree failed done (.ok result) (.ok other)

namespace Agree

variable {Fault OtherFault Result OtherResult Next OtherNext : Type}
variable {failed : Fault → OtherFault → Prop} {done : Result → OtherResult → Prop}
variable {left : Except Fault Result} {right : Except OtherFault OtherResult}

theorem mono {failedToo : Fault → OtherFault → Prop} {doneToo : Result → OtherResult → Prop}
    (agree : Agree failed done left right)
    (failures : ∀ fault other, failed fault other → failedToo fault other)
    (results : ∀ result other, done result other → doneToo result other) :
    Agree failedToo doneToo left right := by
  cases agree with
  | error related => exact .error (failures _ _ related)
  | ok related => exact .ok (results _ _ related)

theorem bind {next : Next → OtherNext → Prop} {first : Result → Except Fault Next}
    {second : OtherResult → Except OtherFault OtherNext} (agree : Agree failed done left right)
    (follow : ∀ result other, done result other →
      Agree failed next (first result) (second other)) :
    Agree failed next (left.bind first) (right.bind second) := by
  cases agree with
  | error related => exact .error related
  | ok related => exact follow _ _ related

theorem map {next : Next → OtherNext → Prop} {first : Result → Next}
    {second : OtherResult → OtherNext} (agree : Agree failed done left right)
    (follow : ∀ result other, done result other → next (first result) (second other)) :
    Agree failed next (left.map first) (right.map second) := by
  cases agree with
  | error related => exact .error related
  | ok related => exact .ok (follow _ _ related)

/-- When one of the two succeeds so does the other. -/
theorem exists_of_ok (agree : Agree failed done left right) {result : Result}
    (succeeds : left = .ok result) : ∃ other, right = .ok other ∧ done result other := by
  cases agree with
  | error related => cases succeeds
  | ok related =>
      cases succeeds
      exact ⟨_, rfl, related⟩

/-- When one of the two fails so does the other. -/
theorem exists_of_error (agree : Agree failed done left right) {fault : Fault}
    (fails : left = .error fault) : ∃ other, right = .error other ∧ failed fault other := by
  cases agree with
  | error related =>
      cases fails
      exact ⟨_, rfl, related⟩
  | ok related => cases fails

/-- A computation agrees with itself in whatever holds of its outcome. -/
theorem of_eq {outcome other : Except Fault Result} {fails : Fault → Fault → Prop}
    {holds : Result → Result → Prop} (same : outcome = other)
    (failing : ∀ fault, outcome = .error fault → fails fault fault)
    (held : ∀ result, outcome = .ok result → holds result result) :
    Agree fails holds outcome other := by
  subst same
  cases outcome with
  | error fault => exact .error (failing fault rfl)
  | ok result => exact .ok (held result rfl)

theorem eq {outcome other : Except Fault Result} (agree : Agree Eq Eq outcome other) :
    outcome = other := by
  cases agree with
  | error related => rw [related]
  | ok related => rw [related]

/-- Two walks over lists agree when their steps do, item by item. -/
theorem mapM {Item OtherItem : Type} {step : Item → Except Fault Result}
    {otherStep : OtherItem → Except OtherFault OtherResult} {items : List Item}
    {others : List OtherItem}
    (steps : List.Forall₂ (fun item other => Agree failed done (step item) (otherStep other))
      items others) :
    Agree failed (List.Forall₂ done) (items.mapM step) (others.mapM otherStep) := by
  induction steps with
  | nil => exact .ok .nil
  | cons first _ ih =>
      rw [List.mapM_cons, List.mapM_cons]
      apply first.bind
      intro result other related
      apply ih.bind
      intro results otherResults relatedToo
      exact .ok (.cons related relatedToo)

end Agree
end Traversal
end LayeredConfig

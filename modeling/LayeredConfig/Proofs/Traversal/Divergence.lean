import LayeredConfig.Proofs.Traversal

namespace LayeredConfig
namespace Traversal

/-!
# Computations that part where one is stopped

Of two computations that may fail, the first may have further reasons to stop.
Its outcome is that of the second unless it was stopped for one of them.  This is
kept by sequencing, and by walks over one list, for which only the items matter
that the second walk comes to.
-/

variable {Item Result Next Failure : Type}

/-! ## Items that a walk comes to -/

/-- The walk comes to the item: the step succeeds on all that stand before it. -/
inductive Reached (step : Item → Except Failure Result) : List Item → Item → Prop where
  | here {item : Item} {after : List Item} : Reached step (item :: after) item
  | later {head item : Item} {tail : List Item} {result : Result}
      (passes : step head = .ok result) (reached : Reached step tail item) :
      Reached step (head :: tail) item

theorem Reached.mem {step : Item → Except Failure Result} {items : List Item} {item : Item}
    (reached : Reached step items item) : item ∈ items := by
  induction reached with
  | here => exact List.mem_cons_self
  | later _ _ ih => exact List.mem_cons_of_mem _ ih

/-- A walk fails where the step fails on an item that it comes to. -/
theorem Reached.mapM_eq_error {step : Item → Except Failure Result} {items : List Item}
    {item : Item} (reached : Reached step items item) {failure : Failure}
    (fails : step item = .error failure) : items.mapM step = .error failure := by
  induction reached with
  | here =>
      rw [List.mapM_cons, fails]
      rfl
  | later passes _ ih =>
      rw [List.mapM_cons, passes, ih fails]
      rfl

/-! ## Outcomes that differ only where the first is stopped -/

/-- The outcomes are the same, unless the first is a failure that stops it. -/
def SameUnless (stops : Failure → Prop) (first second : Except Failure Result) : Prop :=
  first = second ∨ ∃ failure, stops failure ∧ first = .error failure

namespace SameUnless

variable {stops : Failure → Prop} {first second : Except Failure Result}

theorem refl (outcome : Except Failure Result) : SameUnless stops outcome outcome :=
  .inl rfl

theorem mono {more : Failure → Prop} (same : SameUnless stops first second)
    (implies : ∀ failure, stops failure → more failure) : SameUnless more first second := by
  rcases same with equal | ⟨failure, stopped, fails⟩
  · exact .inl equal
  · exact .inr ⟨failure, implies failure stopped, fails⟩

theorem eq_ok (same : SameUnless stops first second) {result : Result}
    (succeeds : first = .ok result) : second = .ok result := by
  rcases same with equal | ⟨failure, _, fails⟩
  · exact equal ▸ succeeds
  · cases succeeds.symm.trans fails

theorem bind {next follow : Result → Except Failure Next} (same : SameUnless stops first second)
    (after : ∀ result, second = .ok result → SameUnless stops (next result) (follow result)) :
    SameUnless stops (first.bind next) (second.bind follow) := by
  rcases same with rfl | ⟨failure, stopped, rfl⟩
  · cases first with
    | error failure => exact .inl rfl
    | ok result => exact after result rfl
  · exact .inr ⟨failure, stopped, rfl⟩

theorem map {change : Result → Next} (same : SameUnless stops first second) :
    SameUnless stops (first.map change) (second.map change) := by
  rcases same with rfl | ⟨failure, stopped, rfl⟩
  · exact .inl rfl
  · exact .inr ⟨failure, stopped, rfl⟩

variable {step other : Item → Except Failure Result} {items : List Item}

theorem mapM (each : ∀ item, Reached other items item →
      SameUnless stops (step item) (other item)) :
    SameUnless stops (items.mapM step) (items.mapM other) := by
  induction items with
  | nil => exact .inl rfl
  | cons head tail ih =>
      rw [List.mapM_cons, List.mapM_cons]
      refine (each head .here).bind fun value passes => ?_
      refine (ih fun item reached => each item (.later passes reached)).bind fun values _ => ?_
      exact .inl rfl

/-- The first walk comes to an item as the second does, unless it is stopped before. -/
theorem reached {item : Item} (each : ∀ item, Reached other items item →
      SameUnless stops (step item) (other item)) (reached : Reached other items item) :
    Reached step items item ∨ ∃ failure, stops failure ∧ items.mapM step = .error failure := by
  induction reached with
  | here => exact .inl .here
  | later passes _ ih =>
      rcases each _ .here with same | ⟨failure, stopped, fails⟩
      · rcases ih fun item later => each item (.later passes later) with
          reached | ⟨failure, stopped, fails⟩
        · exact .inl (.later (same.trans passes) reached)
        · refine .inr ⟨failure, stopped, ?_⟩
          rw [List.mapM_cons, same, passes, fails]
          rfl
      · exact .inr ⟨failure, stopped, Reached.mapM_eq_error .here fails⟩

end SameUnless
end Traversal
end LayeredConfig

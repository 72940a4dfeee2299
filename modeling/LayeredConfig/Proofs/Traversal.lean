import LayeredConfig.Traversal
import Mathlib.Data.List.Forall2

namespace LayeredConfig
namespace Traversal

/-!
# When a walk succeeds

A walk over a list succeeds exactly when the step on each item does, and it
yields the results of the steps in order.
-/

variable {Item Result Failure : Type}

/-! ## Two steps -/

theorem bind_eq_ok_iff {first : Except Failure Item} {next : Item → Except Failure Result}
    {result : Result} :
    first.bind next = .ok result ↔ ∃ item, first = .ok item ∧ next item = .ok result := by
  cases first <;> simp [Except.bind]

theorem map_eq_ok_iff {first : Except Failure Item} {change : Item → Result} {result : Result} :
    first.map change = .ok result ↔ ∃ item, first = .ok item ∧ change item = result := by
  cases first <;> simp [Except.map]

theorem bind_eq_error_iff {first : Except Failure Item} {next : Item → Except Failure Result}
    {failure : Failure} :
    first.bind next = .error failure ↔
      first = .error failure ∨ ∃ item, first = .ok item ∧ next item = .error failure := by
  cases first <;> simp [Except.bind]

theorem map_eq_error_iff {first : Except Failure Item} {change : Item → Result}
    {failure : Failure} : first.map change = .error failure ↔ first = .error failure := by
  cases first <;> simp [Except.map]

/-! ## Walks -/

theorem mapM_eq_ok_iff {step : Item → Except Failure Result} {items : List Item}
    {results : List Result} :
    items.mapM step = .ok results ↔
      List.Forall₂ (fun item result => step item = .ok result) items results := by
  induction items generalizing results with
  | nil =>
      rw [List.mapM_nil, List.forall₂_nil_left_iff]
      constructor
      · intro walked
        exact (Except.ok.inj walked).symm
      · intro empty
        rw [empty]
        rfl
  | cons head tail ih =>
      rw [List.mapM_cons, List.forall₂_cons_left_iff]
      cases first : step head with
      | error failure => simp [bind, Except.bind]
      | ok value =>
          cases others : tail.mapM step with
          | error failure =>
              have none : ∀ values, ¬ List.Forall₂ (fun item result => step item = .ok result)
                  tail values := by
                intro values walked
                rw [ih.mpr walked] at others
                cases others
              simp [bind, Except.bind, none]
          | ok values =>
              have only : ∀ rest, List.Forall₂ (fun item result => step item = .ok result)
                  tail rest ↔ values = rest := by
                intro rest
                rw [← ih, others, Except.ok.injEq]
              simp only [bind, Except.bind, pure, Except.pure, Except.ok.injEq, only]
              constructor
              · rintro rfl
                exact ⟨value, values, rfl, rfl, rfl⟩
              · rintro ⟨_, _, rfl, rfl, rfl⟩
                rfl

theorem mapM_congr {step other : Item → Except Failure Result} {items : List Item}
    (each : ∀ item ∈ items, step item = other item) : items.mapM step = items.mapM other := by
  induction items with
  | nil => rfl
  | cons head tail ih =>
      rw [List.mapM_cons, List.mapM_cons, each head List.mem_cons_self,
        ih fun item later => each item (List.mem_cons_of_mem _ later)]

/-- A walk yields something when each step does. -/
theorem exists_mapM_of_forall {step : Item → Except Failure Result} {items : List Item}
    (each : ∀ item ∈ items, ∃ result, step item = .ok result) :
    ∃ results, items.mapM step = .ok results := by
  induction items with
  | nil => exact ⟨[], rfl⟩
  | cons head tail ih =>
      rcases each head List.mem_cons_self with ⟨value, first⟩
      rcases ih fun item later => each item (List.mem_cons_of_mem _ later) with ⟨values, others⟩
      exact ⟨value :: values, mapM_eq_ok_iff.mpr (.cons first (mapM_eq_ok_iff.mp others))⟩

/-- Every item of the one list is related to one of the other. -/
theorem exists_mem_of_forall₂ {related : Item → Result → Prop} {items : List Item}
    {results : List Result} (each : List.Forall₂ related items results) {item : Item}
    (member : item ∈ items) : ∃ result ∈ results, related item result := by
  induction each with
  | nil => cases member
  | cons first _ ih =>
      rcases List.mem_cons.mp member with rfl | later
      · exact ⟨_, List.mem_cons_self, first⟩
      · rcases ih later with ⟨result, inside, made⟩
        exact ⟨result, List.mem_cons_of_mem _ inside, made⟩

/-- A walk that succeeds has a result for each item. -/
theorem exists_mem_of_mapM {step : Item → Except Failure Result} {items : List Item}
    {results : List Result} (walked : items.mapM step = .ok results) {item : Item}
    (member : item ∈ items) : ∃ result ∈ results, step item = .ok result :=
  exists_mem_of_forall₂ (mapM_eq_ok_iff.mp walked) member

theorem eq_filterMap_of_mapM {step : Item → Except Failure Result} {items : List Item}
    {results : List Result} (walked : items.mapM step = .ok results) :
    results = items.filterMap fun item => (step item).toOption := by
  have related := mapM_eq_ok_iff.mp walked
  clear walked
  induction related with
  | nil => rfl
  | cons first _ ih =>
      rw [List.filterMap_cons, first, ← ih]
      rfl

/-- A walk fails at the first item on which the step fails. -/
theorem exists_of_mapM_eq_error {step : Item → Except Failure Result} {items : List Item}
    {failure : Failure} (failed : items.mapM step = .error failure) :
    ∃ before item after, items = before ++ item :: after ∧ step item = .error failure ∧
      ∀ other ∈ before, ∃ result, step other = .ok result := by
  induction items with
  | nil => cases failed
  | cons head tail ih =>
      rw [List.mapM_cons] at failed
      cases first : step head with
      | error fault =>
          simp only [first, bind, Except.bind, Except.error.injEq] at failed
          subst failed
          exact ⟨[], head, tail, rfl, first, fun _ earlier => by cases earlier⟩
      | ok value =>
          cases others : tail.mapM step with
          | error fault =>
              simp only [first, others, bind, Except.bind, Except.error.injEq] at failed
              subst failed
              rcases ih others with ⟨before, item, after, rfl, stops, passes⟩
              exact ⟨head :: before, item, after, rfl, stops,
                List.forall_mem_cons.mpr ⟨⟨value, first⟩, passes⟩⟩
          | ok values => simp [first, others, bind, Except.bind, pure, Except.pure] at failed

end Traversal
end LayeredConfig

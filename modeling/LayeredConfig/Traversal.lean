namespace LayeredConfig
namespace Traversal

/-! Walks over lists with steps that may fail. -/

variable {Item Result Failure : Type}

/-- What a walk yields comes from a step on one of the items. -/
theorem exists_of_mem_mapM {step : Item → Except Failure Result} {items : List Item}
    {results : List Result} (walked : items.mapM step = .ok results) {result : Result}
    (member : result ∈ results) : ∃ item ∈ items, step item = .ok result := by
  induction items generalizing results with
  | nil =>
      cases walked
      cases member
  | cons head tail ih =>
      rw [List.mapM_cons] at walked
      cases first : step head with
      | error failure => simp [first, bind, Except.bind] at walked
      | ok value =>
          cases others : tail.mapM step with
          | error failure => simp [first, others, bind, Except.bind] at walked
          | ok values =>
              simp only [first, others, bind, Except.bind, pure, Except.pure,
                Except.ok.injEq] at walked
              subst walked
              rcases List.mem_cons.1 member with rfl | later
              · exact ⟨head, by simp, first⟩
              · obtain ⟨item, inside, made⟩ := ih others later
                exact ⟨item, List.mem_cons_of_mem _ inside, made⟩

end Traversal
end LayeredConfig

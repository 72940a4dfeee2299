import LayeredConfig.Profile.Expression

namespace LayeredConfig
namespace Profile
namespace Expression

/-!
# Names that an expression affirms or denies

A name that stands under an even number of negations is affirmed, one under an
odd number is denied.  When an expression that held does not hold any more, it
affirms a name that has ceased to be active or denies one that has become so.
-/

/-- The expression affirms the name, or denies it when the sign is `false`. -/
inductive Occurs (text : String) : Bool → Expression → Prop where
  | name : Occurs text true (.name text)
  | not {sign : Bool} {inner : Expression} (within : Occurs text (!sign) inner) :
      Occurs text sign (.not inner)
  | all {sign : Bool} {parts : List Expression} {part : Expression} (member : part ∈ parts)
      (within : Occurs text sign part) : Occurs text sign (.all parts)
  | any {sign : Bool} {parts : List Expression} {part : Expression} (member : part ∈ parts)
      (within : Occurs text sign part) : Occurs text sign (.any parts)

/-- Some name of the expression has changed in the way that takes the expression from the value to
its opposite. -/
def Explains (before after : String → Bool) (value : Bool) (expression : Expression) : Prop :=
  ∃ text sign, Occurs text sign expression ∧ before text = (sign == value) ∧
    after text = !(sign == value)

section

variable {before after : String → Bool}

theorem Explains.negated {value : Bool} {inner : Expression}
    (explains : Explains before after (!value) inner) :
    Explains before after value (.not inner) := by
  rcases explains with ⟨text, sign, occurs, was, is⟩
  have flipped : (sign == !value) = ((!sign) == value) := by
    cases sign <;> cases value <;> rfl
  rw [flipped] at was is
  refine ⟨text, !sign, .not ?_, was, is⟩
  rwa [Bool.not_not]

/-- A conjunction or disjunction of two values that turned has one that did. -/
theorem turned_of_and {first rest firstAfter restAfter value : Bool}
    (was : (first && rest) = value) (is : (firstAfter && restAfter) = !value) :
    (first = value ∧ firstAfter = !value) ∨ (rest = value ∧ restAfter = !value) := by
  revert first rest firstAfter restAfter value
  decide

theorem turned_of_or {first rest firstAfter restAfter value : Bool}
    (was : (first || rest) = value) (is : (firstAfter || restAfter) = !value) :
    (first = value ∧ firstAfter = !value) ∨ (rest = value ∧ restAfter = !value) := by
  revert first rest firstAfter restAfter value
  decide

mutual

/-- An expression does not turn unless a name in it explains that. -/
theorem explains_of_turned {value : Bool} : (expression : Expression) →
    expression.holds before = value → expression.holds after = !value →
      Explains before after value expression
  | .name text, was, is => by
      rw [holds] at was is
      refine ⟨text, true, .name, ?_, ?_⟩
      · rw [was, Bool.true_beq]
      · rw [is, Bool.true_beq]
  | .not inner, was, is => by
      rw [holds, Bool.not_eq_eq_eq_not] at was is
      exact (explains_of_turned inner was is).negated
  | .all parts, was, is => by
      rcases exists_explains_of_all parts was is with ⟨part, member, text, sign, occurs, changed⟩
      exact ⟨text, sign, .all member occurs, changed⟩
  | .any parts, was, is => by
      rcases exists_explains_of_any parts was is with ⟨part, member, text, sign, occurs, changed⟩
      exact ⟨text, sign, .any member occurs, changed⟩

theorem exists_explains_of_all {value : Bool} : (parts : List Expression) →
    allHold before parts = value → allHold after parts = !value →
      ∃ part ∈ parts, Explains before after value part
  | [], was, is => by
      rw [← was] at is
      cases is
  | part :: rest, was, is => by
      rcases turned_of_and was is with ⟨sooner, later⟩ | ⟨sooner, later⟩
      · exact ⟨part, List.mem_cons_self, explains_of_turned part sooner later⟩
      · rcases exists_explains_of_all rest sooner later with ⟨other, member, explains⟩
        exact ⟨other, List.mem_cons_of_mem _ member, explains⟩

theorem exists_explains_of_any {value : Bool} : (parts : List Expression) →
    anyHolds before parts = value → anyHolds after parts = !value →
      ∃ part ∈ parts, Explains before after value part
  | [], was, is => by
      rw [← was] at is
      cases is
  | part :: rest, was, is => by
      rcases turned_of_or was is with ⟨sooner, later⟩ | ⟨sooner, later⟩
      · exact ⟨part, List.mem_cons_self, explains_of_turned part sooner later⟩
      · rcases exists_explains_of_any rest sooner later with ⟨other, member, explains⟩
        exact ⟨other, List.mem_cons_of_mem _ member, explains⟩

end

/-- An expression that held and does not hold any more affirms a name that has ceased to be active,
or denies one that has become active. -/
theorem exists_occurs_of_fails {expression : Expression} (held : expression.holds before = true)
    (fails : expression.holds after = false) :
    ∃ text, (expression.Occurs text true ∧ before text = true ∧ after text = false) ∨
      (expression.Occurs text false ∧ before text = false ∧ after text = true) := by
  rcases explains_of_turned expression held fails with ⟨text, sign, occurs, was, is⟩
  cases sign with
  | true => exact ⟨text, Or.inl ⟨occurs, was, is⟩⟩
  | false => exact ⟨text, Or.inr ⟨occurs, was, is⟩⟩

end

end Expression
end Profile
end LayeredConfig

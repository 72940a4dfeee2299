import LayeredConfig.Document
import LayeredConfig.Proofs.Traversal

namespace LayeredConfig

/-!
# What the active profiles decide

Which scopes an environment accepts hangs on the set of its active profiles and,
while there are none, on its defaults.  A scope with an entry that is the plain
name of an active profile is accepted whatever else is active.
-/

namespace Environment

/-- The order of the active profiles does not matter. -/
theorem isActive_congr {left right : Environment} (defaults : left.defaults = right.defaults)
    (active : ∀ name, name ∈ left.active ↔ name ∈ right.active) :
    left.isActive = right.isActive := by
  have empty : left.active.isEmpty = right.active.isEmpty := by
    rw [Bool.eq_iff_iff, List.isEmpty_iff, List.isEmpty_iff, List.eq_nil_iff_forall_not_mem,
      List.eq_nil_iff_forall_not_mem]
    exact forall_congr' fun name => not_congr (active name)
  funext name
  unfold isActive
  rw [empty, defaults]
  simp only [active name]

theorem isActive_of_mem {environment : Environment} {name : String}
    (active : name ∈ environment.active) : environment.isActive name = true := by
  have some : environment.active.isEmpty = false :=
    List.isEmpty_eq_false_iff.mpr (List.ne_nil_of_mem active)
  unfold isActive
  rw [some]
  exact decide_eq_true active

theorem isActive_of_mem_defaults {environment : Environment} {name : String}
    (idle : environment.active = []) (default : name ∈ environment.defaults) :
    environment.isActive name = true := by
  unfold isActive
  rw [idle]
  exact decide_eq_true default

/-- With the same defaults, a profile that becomes active when more are active is one of those. -/
theorem mem_active_of_turned {before after : Environment}
    (defaults : after.defaults = before.defaults) (fewer : before.active ⊆ after.active)
    {name : String} (was : before.isActive name = false) (now : after.isActive name = true) :
    name ∈ after.active ∧ name ∉ before.active := by
  have absent : name ∉ before.active := fun active => by
    rw [isActive_of_mem active] at was
    cases was
  by_cases nobody : after.active = []
  · have idle : before.active = [] := List.subset_nil.mp (nobody ▸ fewer)
    have same : after.isActive = before.isActive :=
      isActive_congr defaults fun other => by rw [nobody, idle]
    rw [same, was] at now
    cases now
  · rw [isActive, if_neg (mt List.isEmpty_iff.mp nobody)] at now
    exact ⟨of_decide_eq_true now, absent⟩

/-- A profile that ceases to be active when more are active is a default, and none was active. -/
theorem idle_of_turned {before after : Environment} (fewer : before.active ⊆ after.active)
    {name : String} (was : before.isActive name = true) (now : after.isActive name = false) :
    before.active = [] ∧ name ∈ before.defaults := by
  by_cases idle : before.active = []
  · rw [isActive, if_pos (List.isEmpty_iff.mpr idle)] at was
    exact ⟨idle, of_decide_eq_true was⟩
  · rw [isActive, if_neg (mt List.isEmpty_iff.mp idle)] at was
    rw [isActive_of_mem (fewer (of_decide_eq_true was))] at now
    cases now

theorem accepts_congr {left right : Environment} (same : left.isActive = right.isActive)
    (expressions : List Profile.Expression) :
    left.accepts expressions = right.accepts expressions := by
  unfold accepts
  rw [same]

end Environment

namespace Document

theorem isAccepted_congr {left right : Environment} (same : left.isActive = right.isActive)
    (document : Document) : document.isAccepted left = document.isAccepted right :=
  Environment.accepts_congr same document.expressions

/-- An entry that is read as a plain name is enough when the profile is active. -/
theorem isAccepted_of_mem_scope {document : Document} {environment : Environment}
    {name : String} (parsed : Profile.parseAll document.scope = .ok document.expressions)
    (named : name ∈ document.scope) (plain : Profile.Expression.parse name = .ok (.name name))
    (active : environment.isActive name = true) : document.isAccepted environment = true := by
  rcases Traversal.exists_mem_of_mapM parsed named with ⟨expression, member, read⟩
  rw [plain] at read
  cases read
  exact List.any_eq_true.mpr ⟨_, member, by rw [Profile.Expression.holds]; exact active⟩

/-- A regular pass takes documents without scope and accepted ones that name its profile. -/
theorem of_isTaken_regular {document : Document} {profile : Option String}
    {environment : Environment}
    (taken : document.isTaken .regular profile environment = true) :
    document.scope = [] ∨
      ∃ name, profile = some name ∧ name ∈ document.scope ∧
        document.isAccepted environment = true := by
  cases profile with
  | none => exact Or.inl (List.isEmpty_iff.mp taken)
  | some name =>
      have both := Bool.and_eq_true_iff.mp taken
      exact Or.inr ⟨name, rfl, of_decide_eq_true both.1, both.2⟩

theorem isAccepted_of_isTaken_leftover {document : Document} {profile : Option String}
    {environment : Environment}
    (taken : document.isTaken .leftover profile environment = true) :
    document.isAccepted environment = true := by
  cases profile with
  | none => exact (Bool.and_eq_true_iff.mp taken).2
  | some name => cases taken

/-- What is left over has a scope. -/
theorem scope_ne_nil_of_isTaken_leftover {document : Document} {profile : Option String}
    {environment : Environment}
    (taken : document.isTaken .leftover profile environment = true) : document.scope ≠ [] := by
  cases profile with
  | none =>
      have limited := (Bool.and_eq_true_iff.mp taken).1
      rwa [Bool.not_eq_true', List.isEmpty_eq_false_iff] at limited
  | some name => cases taken

/-- Of two documents without scope a regular pass takes both or neither. -/
theorem isTaken_congr_free {left right : Document} (leftFree : left.scope = [])
    (rightFree : right.scope = []) (scope : Option String) (environment : Environment) :
    left.isTaken .regular scope environment = right.isTaken .regular scope environment := by
  cases scope <;> simp [isTaken, leftFree, rightFree]

end Document
end LayeredConfig

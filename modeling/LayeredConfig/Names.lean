namespace LayeredConfig
namespace Names

/-! Lists of distinct names that grow at the end. -/

/-- Add a name to the end unless it is there. -/
def add (names : List String) (name : String) : List String :=
  if name ∈ names then names else names ++ [name]

/-- Add names one by one. -/
def addAll (names more : List String) : List String :=
  more.foldl add names

theorem mem_add {names : List String} {name other : String} :
    other ∈ add names name ↔ other ∈ names ∨ other = name := by
  unfold add
  split
  · next present =>
      exact ⟨.inl, fun either => either.elim id (fun same => same ▸ present)⟩
  · simp

theorem nodup_add {names : List String} (distinct : names.Nodup) (name : String) :
    (add names name).Nodup := by
  unfold add
  split
  · exact distinct
  · next absent =>
      refine List.nodup_append.2 ⟨distinct, by simp, ?_⟩
      intro known member other single same
      have equal : other = name := by simpa using single
      exact absent ((same.trans equal) ▸ member)

theorem mem_addAll {names more : List String} {other : String} :
    other ∈ addAll names more ↔ other ∈ names ∨ other ∈ more := by
  induction more generalizing names with
  | nil => simp [addAll]
  | cons head tail ih =>
      have step : addAll names (head :: tail) = addAll (add names head) tail := rfl
      rw [step, ih, mem_add, List.mem_cons, or_assoc]

theorem nodup_addAll {names : List String} (distinct : names.Nodup) (more : List String) :
    (addAll names more).Nodup := by
  induction more generalizing names with
  | nil => exact distinct
  | cons head tail ih => exact ih (nodup_add distinct head)

/-- The known names that are not among those met. -/
def missing (known met : List String) : List String :=
  known.filter (fun name => name ∉ met)

theorem length_missing_le (known : List String) {met more : List String} (kept : met ⊆ more) :
    (missing known more).length ≤ (missing known met).length := by
  unfold missing
  rw [← List.countP_eq_length_filter, ← List.countP_eq_length_filter]
  refine List.countP_mono_left fun name _ absent => ?_
  simp only [decide_eq_true_eq] at absent ⊢
  exact fun present => absent (kept present)

/-- When more names are met, a known one among them, fewer are missing. -/
theorem length_missing_lt {known met more : List String} {name : String} (member : name ∈ known)
    (fresh : name ∉ met) (reached : name ∈ more) (kept : met ⊆ more) :
    (missing known more).length < (missing known met).length := by
  have split : missing known more = (missing known met).filter (fun other => other ∉ more) := by
    unfold missing
    rw [List.filter_filter]
    refine List.filter_congr fun other _ => ?_
    by_cases present : other ∈ more
    · simp [present]
    · simp [present, show other ∉ met from fun inside => present (kept inside)]
  rw [split]
  exact List.length_filter_lt_length_iff_exists.2
    ⟨name, List.mem_filter.2 ⟨member, by simpa using fresh⟩, by simpa using reached⟩

theorem missing_congr {known met other : List String} (same : ∀ name, name ∈ met ↔ name ∈ other) :
    missing known met = missing known other :=
  List.filter_congr fun name _ => by simp [same name]

end Names
end LayeredConfig

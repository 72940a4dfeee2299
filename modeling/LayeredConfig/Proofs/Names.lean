import LayeredConfig.Names
import Mathlib.Data.List.Induction
import Mathlib.Data.List.Nodup
import Mathlib.Data.List.Perm.Subperm

namespace LayeredConfig
namespace Names

/-!
# Which of two names comes first

That one name comes before another is said by the pair being a sublist of the
names.  Adding names keeps the places of those that are there; putting a name
last moves it behind all others.  Names that are put last one by one end up in
the order of their last occurrences.
-/

/-- Of two members of a list without repetitions one comes first. -/
theorem not_sublist_of_nodup {names : List String} (distinct : names.Nodup) {first second : String}
    (ordered : [first, second].Sublist names) : ¬ [second, first].Sublist names := by
  intro reversed
  rcases List.cons_sublist_iff.mp ordered with ⟨front, back, rfl, begins, ends⟩
  rcases List.nodup_append.mp distinct with ⟨_, _, apart⟩
  rcases List.sublist_append_iff.mp reversed with ⟨sooner, later, split, left, right⟩
  cases sooner with
  | nil =>
      rw [List.nil_append] at split
      exact apart first begins first (right.subset (split ▸ by simp)) rfl
  | cons head tail =>
      have same : second = head := (List.cons.inj split).1
      exact apart second (left.subset (same ▸ List.mem_cons_self)) second
        (List.singleton_sublist.mp ends) rfl

/-- Of two different names one comes first. -/
theorem sublist_or_sublist {names : List String} {first second : String}
    (different : first ≠ second) (member : first ∈ names) (other : second ∈ names) :
    [first, second].Sublist names ∨ [second, first].Sublist names := by
  rcases List.append_of_mem member with ⟨front, back, rfl⟩
  rcases List.mem_append.mp other with before | behind
  · exact .inr ((List.singleton_sublist.mpr before).append
      (List.singleton_sublist.mpr List.mem_cons_self))
  · have after := (List.mem_cons.mp behind).resolve_left (Ne.symm different)
    exact .inl (((List.singleton_sublist.mpr after).cons_cons first).trans
      (List.sublist_append_right front _))

/-- In a list without repetitions a name that comes first stands in front of the other one. -/
theorem mem_front_of_sublist {front back : List String} {first second : String}
    (distinct : (front ++ second :: back).Nodup)
    (ordered : [first, second].Sublist (front ++ second :: back)) : first ∈ front := by
  have member : first ∈ front ++ second :: back := ordered.subset List.mem_cons_self
  rcases List.mem_append.mp member with before | behind
  · exact before
  · have reversed : [second, first].Sublist (front ++ second :: back) ∨ first = second := by
      rcases List.mem_cons.mp behind with same | after
      · exact .inr same
      · exact .inl (((List.singleton_sublist.mpr after).cons_cons second).trans
          (List.sublist_append_right front _))
    rcases reversed with reversed | rfl
    · exact absurd reversed (not_sublist_of_nodup distinct ordered)
    · exact absurd ordered (not_sublist_of_nodup distinct ordered)

/-- What is left of a list without repetitions is what satisfies the condition, in its order. -/
theorem eq_filter_of_sublist {names more : List String} {keep : String → Bool}
    (kept : names.Sublist more) (distinct : more.Nodup)
    (members : ∀ name, name ∈ names ↔ name ∈ more ∧ keep name = true) :
    names = more.filter keep := by
  have inside : names.Sublist (more.filter keep) := by
    have each : names.filter keep = names :=
      List.filter_eq_self.mpr fun name member => ((members name).mp member).2
    exact each ▸ kept.filter keep
  have covered : (more.filter keep).Subperm names := by
    refine List.subperm_of_subset (distinct.filter keep) fun name member => ?_
    exact (members name).mpr (List.mem_filter.mp member)
  exact inside.eq_of_length_le covered.length_le

/-- A list without repetitions whose members are all one is found wherever its members are. -/
theorem sublist_of_one {names more : List String} (distinct : names.Nodup) (inside : names ⊆ more)
    (one : ∀ name ∈ names, ∀ other ∈ names, name = other) : names.Sublist more := by
  cases names with
  | nil => exact List.nil_sublist more
  | cons head tail =>
      have alone : tail = [] := by
        rw [List.eq_nil_iff_forall_not_mem]
        intro name member
        have same := one head List.mem_cons_self name (List.mem_cons_of_mem head member)
        exact (List.nodup_cons.mp distinct).1 (same ▸ member)
      rw [alone]
      exact List.singleton_sublist.mpr (inside List.mem_cons_self)

/-! ## Adding names -/

/-- Adding names one by one keeps the first place of each. -/
theorem addAll_sublist (names more : List String) :
    (addAll names more).Sublist (names ++ more) := by
  induction more generalizing names with
  | nil => rw [List.append_nil]; exact List.Sublist.refl names
  | cons head tail ih =>
      have step : addAll names (head :: tail) = addAll (add names head) tail := rfl
      rw [step]
      refine (ih (add names head)).trans ?_
      unfold add
      split
      · exact List.Sublist.append_left (List.sublist_cons_self head tail) names
      · rw [List.append_assoc]
        exact List.Sublist.refl _

theorem addAll_append (names first second : List String) :
    addAll names (first ++ second) = addAll (addAll names first) second :=
  List.foldl_append

/-- A name that is there need not be added. -/
theorem addAll_filter_ne {names : List String} {name : String} (present : name ∈ names)
    (more : List String) :
    addAll names (more.filter fun other => other ≠ name) = addAll names more := by
  induction more generalizing names with
  | nil => rfl
  | cons head tail ih =>
      have step : addAll names (head :: tail) = addAll (add names head) tail := rfl
      rw [step, ← ih (mem_add.mpr (.inl present))]
      by_cases same : head = name
      · rw [List.filter_cons_of_neg (by simp [same]), same, add, if_pos present]
      · rw [List.filter_cons_of_pos (by simp [same])]
        rfl

/-- What a list repeats makes no difference when its names are added, changed or not. -/
theorem addAll_map_addAll (change : String → String) (names seen more : List String) :
    addAll names ((addAll seen more).map change) = addAll names ((seen ++ more).map change) := by
  induction more generalizing seen with
  | nil => rw [List.append_nil]; rfl
  | cons head tail ih =>
      have step : addAll seen (head :: tail) = addAll (add seen head) tail := rfl
      rw [step, ih]
      unfold add
      split
      · next repeated =>
          have present : change head ∈ addAll names (seen.map change) :=
            mem_addAll.mpr (.inr (List.mem_map_of_mem repeated))
          have idle : addAll (addAll names (seen.map change)) [change head] =
              addAll names (seen.map change) := if_pos present
          rw [List.map_append, List.map_append, List.map_cons, addAll_append, addAll_append,
            ← List.singleton_append, addAll_append, idle]
      · rw [List.append_assoc, List.singleton_append]

theorem addAll_addAll (names more : List String) :
    addAll names (addAll [] more) = addAll names more := by
  have same := addAll_map_addAll id names [] more
  rwa [List.map_id, List.map_id, List.nil_append] at same

theorem eraseDups_concat {Item : Type} [DecidableEq Item] (items : List Item) (item : Item) :
    (items ++ [item]).eraseDups =
      if item ∈ items.eraseDups then items.eraseDups else items.eraseDups ++ [item] := by
  rw [List.eraseDups_append]
  by_cases known : item ∈ items
  · simp [List.removeAll, known]
  · simp [List.removeAll, known, List.eraseDups_cons]

/-- Names that are added to none are the names, each in its first place. -/
theorem addAll_nil (names : List String) : addAll [] names = names.eraseDups := by
  induction names using List.reverseRecOn with
  | nil => rfl
  | append_singleton names name ih =>
      have step : addAll [] (names ++ [name]) = add (addAll [] names) name :=
        addAll_append [] names [name]
      rw [step, ih, add, eraseDups_concat]

theorem nodup_eraseDups (names : List String) : names.eraseDups.Nodup := by
  rw [← addAll_nil]
  exact nodup_addAll List.nodup_nil names

theorem addAll_of_nodup {names more : List String} (distinct : (names ++ more).Nodup) :
    addAll names more = names ++ more := by
  induction more generalizing names with
  | nil => rw [List.append_nil]; rfl
  | cons head tail ih =>
      have step : addAll names (head :: tail) = addAll (add names head) tail := rfl
      have fresh : head ∉ names := fun present =>
        (List.nodup_append.mp distinct).2.2 head present head List.mem_cons_self rfl
      rw [List.append_cons] at distinct ⊢
      rw [step, add, if_neg fresh, ih distinct]

/-! ## Putting names last -/

/-- The names with this one in the last place. -/
def putLast (names : List String) (name : String) : List String :=
  names.erase name ++ [name]

theorem mem_putLast_of_mem {names : List String} {name : String} (member : name ∈ names)
    (other : String) : name ∈ putLast names other := by
  by_cases same : name = other
  · exact List.mem_append_right _ (List.mem_singleton.mpr same)
  · exact List.mem_append_left _ ((List.mem_erase_of_ne same).mpr member)

theorem nodup_putLast {names : List String} (distinct : names.Nodup) (name : String) :
    (putLast names name).Nodup := by
  refine List.nodup_append.mpr ⟨distinct.erase name, List.nodup_singleton name, ?_⟩
  intro other inside last single same
  rw [List.mem_singleton.mp single] at same
  exact ((distinct.mem_erase_iff).mp inside).1 same

theorem nodup_foldl_putLast {names : List String} (distinct : names.Nodup) (more : List String) :
    (more.foldl putLast names).Nodup := by
  induction more generalizing names with
  | nil => exact distinct
  | cons head tail ih => exact ih (nodup_putLast distinct head)

/-- A name that is not put last any more comes before one that is. -/
theorem sublist_foldl_putLast {names more : List String} {upper lower : String}
    (above : upper ∈ names) (kept : upper ∉ more)
    (below : lower ∈ more ∨ [upper, lower].Sublist names) :
    [upper, lower].Sublist (more.foldl putLast names) := by
  induction more generalizing names with
  | nil => exact below.resolve_left List.not_mem_nil
  | cons head tail ih =>
      rw [List.mem_cons, not_or] at kept
      apply ih (mem_putLast_of_mem above head) kept.2
      by_cases same : lower = head
      · have before := (List.mem_erase_of_ne kept.1).mpr above
        rw [← same] at kept before ⊢
        exact .inr ((List.singleton_sublist.mpr before).append (List.Sublist.refl [lower]))
      · rcases below with pending | ordered
        · exact .inl ((List.mem_cons.mp pending).resolve_left same)
        · have still := ordered.erase head
          rw [List.erase_of_not_mem (by simp [Ne.symm kept.1, Ne.symm same])] at still
          exact .inr (still.trans (List.sublist_append_left _ _))

/-! ## One item behind another -/

section Followed

variable {Item Other Block : Type} {upper lower : Item}

/-- Behind every occurrence of the one item there is one of the other. -/
def Followed (upper lower : Item) (items : List Item) : Prop :=
  ∀ front back, items = front ++ upper :: back → lower ∈ back

theorem followed_of_not_mem {items : List Item} (absent : upper ∉ items) (lower : Item) :
    Followed upper lower items := by
  rintro front back rfl
  exact absurd (List.mem_append_right front List.mem_cons_self) absent

/-- In a list without repetitions the order of the two items is enough. -/
theorem followed_of_sublist {items : List Item} (distinct : items.Nodup)
    (ordered : [upper, lower].Sublist items) : Followed upper lower items := by
  rintro front back rfl
  have absent : upper ∉ front := fun repeated =>
    (List.nodup_append.mp distinct).2.2 upper repeated upper List.mem_cons_self rfl
  rcases List.sublist_append_iff.mp ordered with ⟨sooner, later, split, left, right⟩
  cases sooner with
  | nil =>
      rw [List.nil_append] at split
      rw [← split, List.cons_sublist_cons] at right
      exact List.singleton_sublist.mp right
  | cons head tail =>
      have same : upper = head := (List.cons.inj split).1
      exact absurd (left.subset (same ▸ List.mem_cons_self)) absent

theorem Followed.append {first second : List Item}
    (here : upper ∈ first → Followed upper lower first ∨ lower ∈ second)
    (there : Followed upper lower second) : Followed upper lower (first ++ second) := by
  intro front back split
  rcases List.append_eq_append_iff.mp split with ⟨between, _, rest⟩ | ⟨between, whole, rest⟩
  · exact there between back rest
  · cases between with
    | nil => exact there [] back rest.symm
    | cons head tail =>
        rcases List.cons.inj rest with ⟨rfl, rfl⟩
        rcases here (whole ▸ List.mem_append_right front List.mem_cons_self) with within | behind
        · exact List.mem_append_left _ (within front tail whole)
        · exact List.mem_append_right _ behind

theorem Followed.map {change : Item → Other} (injective : Function.Injective change)
    {items : List Item} (followed : Followed upper lower items) :
    Followed (change upper) (change lower) (items.map change) := by
  intro front back split
  rcases List.map_eq_append_iff.mp split with ⟨before, rest, rfl, _, changed⟩
  rcases List.map_eq_cons_iff.mp changed with ⟨item, after, rfl, same, rfl⟩
  have below := followed before after (by rw [injective same])
  exact List.mem_map_of_mem below

/-- Block by block, the other item may follow in the same block or in a later one. -/
theorem followed_flatMap {blocks : List Block} {items : Block → List Item}
    (each : ∀ front block back, blocks = front ++ block :: back → upper ∈ items block →
      Followed upper lower (items block) ∨ lower ∈ back.flatMap items) :
    Followed upper lower (blocks.flatMap items) := by
  induction blocks with
  | nil => exact followed_of_not_mem List.not_mem_nil lower
  | cons head tail ih =>
      rw [List.flatMap_cons]
      refine Followed.append (each [] head tail rfl) (ih fun front block back split => ?_)
      exact each (head :: front) block back (by rw [split]; rfl)

end Followed

/-- A name that is followed by another one comes before it when they are put last one by one. -/
theorem Followed.sublist_foldl_putLast {names more : List String} {upper lower : String}
    (followed : Followed upper lower more) (member : upper ∈ more) :
    [upper, lower].Sublist (more.foldl putLast names) := by
  induction more generalizing names with
  | nil => cases member
  | cons head tail ih =>
      rw [List.foldl_cons]
      by_cases again : upper ∈ tail
      · refine ih (fun front back split => ?_) again
        exact followed (head :: front) back (by rw [split]; rfl)
      · -- The last occurrence is the first of these names, and the other one is to come.
        have same := (List.mem_cons.mp member).resolve_right again
        have below := followed [] tail (by rw [same]; rfl)
        have last : upper ∈ putLast names head :=
          List.mem_append_right _ (List.mem_singleton.mpr same)
        exact Names.sublist_foldl_putLast last again (.inl below)

end Names
end LayeredConfig

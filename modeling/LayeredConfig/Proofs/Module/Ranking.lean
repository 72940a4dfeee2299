import LayeredConfig.Proofs.Module.Ordering
import LayeredConfig.Proofs.Names
import LayeredConfig.Proofs.Traversal
import Mathlib.Data.List.Nodup
import Mathlib.Data.List.Perm.Basic

namespace LayeredConfig
namespace Module

/-!
# The order hangs on which modules are given

Sorting by name and then, stably, by priority ranks the modules by both.  In a
ranking a repeated module stands next to itself, and neither the graph nor the
walk makes anything of a repetition.  So the same modules are put in the same
order, however they are listed, and when a priority is not readable the error
is that of the first such module by name.
-/

/-! ## Sorted by priority and name -/

/-- The one module has a lower priority than the other, or the same and a smaller name. -/
def Outranks (metadata : Metadata) (first second : String) : Prop :=
  ∃ left right, priority metadata first = .ok left ∧ priority metadata second = .ok right ∧
    (left < right ∨ left = right ∧ first < second)

theorem Outranks.asymm {metadata : Metadata} {first second : String}
    (outranks : Outranks metadata first second) : ¬ Outranks metadata second first := by
  rcases outranks with ⟨left, right, firstRead, secondRead, less⟩
  rintro ⟨other, another, secondAgain, firstAgain, greater⟩
  rw [firstRead, Except.ok.injEq] at firstAgain
  rw [secondRead, Except.ok.injEq] at secondAgain
  subst firstAgain secondAgain
  rcases less with lower | ⟨same, before⟩
  · rcases greater with higher | ⟨equal, _⟩ <;> omega
  · rcases greater with higher | ⟨_, after⟩
    · omega
    · exact String.lt_asymm before after

theorem Outranks.ne {metadata : Metadata} {first second : String}
    (outranks : Outranks metadata first second) : first ≠ second := by
  rintro rfl
  exact outranks.asymm outranks

/-- Two modules whose priorities are readable are ranked one way or the other. -/
theorem outranks_total {metadata : Metadata} {first second : String} {left right : Int}
    (firstRead : priority metadata first = .ok left)
    (secondRead : priority metadata second = .ok right) (different : first ≠ second) :
    Outranks metadata first second ∨ Outranks metadata second first := by
  rcases Int.lt_trichotomy left right with less | same | greater
  · exact .inl ⟨left, right, firstRead, secondRead, .inl less⟩
  · rcases String.le_total first second with before | after
    · refine .inl ⟨left, right, firstRead, secondRead, .inr ⟨same, ?_⟩⟩
      exact String.not_le.mp fun back => different (String.le_antisymm before back)
    · refine .inr ⟨right, left, secondRead, firstRead, .inr ⟨same.symm, ?_⟩⟩
      exact String.not_le.mp fun back => different (String.le_antisymm back after)
  · exact .inr ⟨right, left, secondRead, firstRead, .inl greater⟩

theorem pairwise_names (modules : List String) :
    (modules.mergeSort (fun first second => first ≤ second)).Pairwise (· ≤ ·) := by
  have sorted := @List.pairwise_mergeSort _ (fun first second : String => decide (first ≤ second))
    (fun first second third left right => by
      rw [decide_eq_true_eq] at left right ⊢
      exact String.le_trans left right)
    (fun first second => by
      rw [Bool.or_eq_true, decide_eq_true_eq, decide_eq_true_eq]
      exact String.le_total first second) modules
  exact sorted.imp of_decide_eq_true

/-- Whether the one priority is at most the other. -/
def byPriority (first second : Int × String) : Bool :=
  first.1 ≤ second.1

theorem byPriority_trans (first second third : Int × String)
    (left : byPriority first second = true) (right : byPriority second third = true) :
    byPriority first third = true := by
  rw [byPriority, decide_eq_true_eq] at left right ⊢
  exact Int.le_trans left right

theorem byPriority_total (first second : Int × String) :
    (byPriority first second || byPriority second first) = true := by
  rw [Bool.or_eq_true, byPriority, byPriority, decide_eq_true_eq, decide_eq_true_eq]
  exact Int.le_total first.1 second.1

/-- Sorting by priority leaves those of one priority as they were. -/
theorem filter_mergeSort (pairs : List (Int × String)) (number : Int) :
    (pairs.mergeSort byPriority).filter (fun pair => pair.1 = number) =
      pairs.filter fun pair => pair.1 = number := by
  have level : (pairs.filter fun pair => pair.1 = number).Pairwise
      fun first second => byPriority first second = true := by
    apply List.pairwise_of_forall_mem_list
    intro first firstIn second secondIn
    have left := of_decide_eq_true (List.mem_filter.mp firstIn).2
    have right := of_decide_eq_true (List.mem_filter.mp secondIn).2
    rw [byPriority, decide_eq_true_eq, left, right]
  have kept := (List.sublist_mergeSort byPriority_trans byPriority_total level
    List.filter_sublist).filter fun pair => pair.1 = number
  rw [List.filter_filter, List.filter_congr fun pair _ => Bool.and_self _] at kept
  exact (kept.eq_of_length ((List.mergeSort_perm pairs byPriority).filter _).length_eq.symm).symm

/-- Sorting by priority what is sorted by name sorts by both. -/
theorem pairwise_mergeSort_of_names {pairs : List (Int × String)}
    (named : (pairs.map Prod.snd).Pairwise (· ≤ ·)) :
    (pairs.mergeSort byPriority).Pairwise fun first second =>
      first.1 < second.1 ∨ first.1 = second.1 ∧ first.2 ≤ second.2 := by
  rw [List.pairwise_iff_forall_sublist]
  intro first second ordered
  have sorted := List.pairwise_iff_forall_sublist.mp
    (List.pairwise_mergeSort byPriority_trans byPriority_total pairs) ordered
  rw [byPriority, decide_eq_true_eq] at sorted
  rcases Int.lt_or_eq_of_le sorted with less | same
  · exact .inl less
  · -- Both have one priority and stood in this order before.
    have pair := ordered.filter fun pair => pair.1 = first.1
    rw [filter_mergeSort] at pair
    simp only [List.filter_cons, same, decide_true, if_true, List.filter_nil] at pair
    have before := List.pairwise_iff_forall_sublist.mp (List.pairwise_map.mp named)
      (pair.trans List.filter_sublist)
    exact .inr ⟨same, before⟩

/-! ## The ranking -/

/-- The modules by name, each with its priority. -/
def numbered (metadata : Metadata) (modules : List String) :
    Except Error (List (Int × String)) :=
  (modules.mergeSort (fun first second => first ≤ second)).mapM fun module =>
    (priority metadata module).map fun number => (number, module)

theorem rank_eq (metadata : Metadata) (modules : List String) :
    rank metadata modules =
      (numbered metadata modules).map fun pairs => (pairs.mergeSort byPriority).map Prod.snd :=
  rfl

theorem priority_of_numbered {metadata : Metadata} {modules : List String}
    {pairs : List (Int × String)} (walked : numbered metadata modules = .ok pairs)
    {pair : Int × String} (member : pair ∈ pairs) : priority metadata pair.2 = .ok pair.1 := by
  rcases Traversal.exists_of_mem_mapM walked member with ⟨module, _, made⟩
  cases read : priority metadata module with
  | error error => simp [read, Except.map] at made
  | ok number =>
      simp only [read, Except.map, Except.ok.injEq] at made
      rw [← made]
      exact read

theorem priority_of_rank {metadata : Metadata} {modules ranked : List String}
    (ranking : rank metadata modules = .ok ranked) {module : String} (member : module ∈ modules) :
    ∃ number, priority metadata module = .ok number := by
  rw [rank_eq] at ranking
  cases walked : numbered metadata modules with
  | error error =>
      rw [walked] at ranking
      cases ranking
  | ok pairs =>
      have listed := (List.mergeSort_perm modules
        (fun first second => first ≤ second)).mem_iff.mpr member
      rw [← map_snd_of_ranked walked] at listed
      rcases List.mem_map.mp listed with ⟨pair, inside, rfl⟩
      exact ⟨pair.1, priority_of_numbered walked inside⟩

/-- In a ranking a module outranks what stands after it, repetitions apart. -/
theorem pairwise_of_rank {metadata : Metadata} {modules ranked : List String}
    (ranking : rank metadata modules = .ok ranked) :
    ranked.Pairwise fun first second => first = second ∨ Outranks metadata first second := by
  rw [rank_eq] at ranking
  cases walked : numbered metadata modules with
  | error error =>
      rw [walked] at ranking
      cases ranking
  | ok pairs =>
      rw [walked] at ranking
      cases ranking
      have named : (pairs.map Prod.snd).Pairwise (· ≤ ·) := by
        rw [map_snd_of_ranked walked]
        exact pairwise_names modules
      rw [List.pairwise_map]
      apply (pairwise_mergeSort_of_names named).imp_of_mem
      intro first second firstIn secondIn sorted
      have firstRead := priority_of_numbered walked (List.mem_mergeSort.mp firstIn)
      have secondRead := priority_of_numbered walked (List.mem_mergeSort.mp secondIn)
      by_cases same : first.2 = second.2
      · exact .inl same
      · refine .inr ⟨first.1, second.1, firstRead, secondRead, sorted.imp_right ?_⟩
        rintro ⟨level, before⟩
        exact ⟨level, String.not_le.mp fun back => same (String.le_antisymm before back)⟩

/-- The module has no readable priority, the error says why, and no smaller name has that flaw. -/
structure FirstUnread (metadata : Metadata) (modules : List String) (module : String)
    (error : Error) : Prop where
  member : module ∈ modules
  unread : priority metadata module = .error error
  first : ∀ other ∈ modules, ∀ fault, priority metadata other = .error fault → module ≤ other

theorem FirstUnread.congr {metadata : Metadata} {left right : List String} {module : String}
    {error : Error} (same : ∀ other, other ∈ left ↔ other ∈ right)
    (unread : FirstUnread metadata left module error) :
    FirstUnread metadata right module error where
  member := (same module).mp unread.member
  unread := unread.unread
  first := fun other member => unread.first other ((same other).mpr member)

theorem FirstUnread.error_eq {metadata : Metadata} {modules : List String} {left right : String}
    {error fault : Error} (one : FirstUnread metadata modules left error)
    (other : FirstUnread metadata modules right fault) : error = fault := by
  have same := String.le_antisymm (one.first right other.member fault other.unread)
    (other.first left one.member error one.unread)
  subst same
  exact Except.error.inj (one.unread.symm.trans other.unread)

theorem exists_firstUnread_of_numbered {metadata : Metadata} {modules : List String}
    {error : Error} (failed : numbered metadata modules = .error error) :
    ∃ module, FirstUnread metadata modules module error := by
  rcases Traversal.exists_of_mapM_eq_error failed with ⟨before, module, after, split, stops, passes⟩
  have sorted := pairwise_names modules
  have listed : ∀ other, other ∈ before ++ module :: after ↔ other ∈ modules := by
    intro other
    rw [← split]
    exact (List.mergeSort_perm modules _).mem_iff
  rw [split, List.pairwise_append] at sorted
  refine ⟨module, (listed module).mp (List.mem_append_right _ List.mem_cons_self), ?_, ?_⟩
  · cases read : priority metadata module with
    | error fault =>
        simp only [read, Except.map, Except.error.injEq] at stops
        rw [stops]
    | ok number => simp [read, Except.map] at stops
  · intro other member fault unread
    rcases List.mem_append.mp ((listed other).mpr member) with sooner | later
    · rcases passes other sooner with ⟨result, made⟩
      simp [unread, Except.map] at made
    · rcases List.mem_cons.mp later with rfl | later
      · exact String.le_refl other
      · exact (List.pairwise_cons.mp sorted.2.1).1 other later

/-- The ranking fails just with the error of the first module by name whose priority is not
readable. -/
theorem rank_eq_error_iff {metadata : Metadata} {modules : List String} {error : Error} :
    rank metadata modules = .error error ↔
      ∃ module, FirstUnread metadata modules module error := by
  cases walked : numbered metadata modules with
  | error fault =>
      rw [rank_eq, walked]
      rcases exists_firstUnread_of_numbered walked with ⟨module, least⟩
      constructor
      · intro failed
        cases failed
        exact ⟨module, least⟩
      · rintro ⟨other, unread⟩
        rw [unread.error_eq least]
        rfl
  | ok pairs =>
      have ranking : rank metadata modules = .ok ((pairs.mergeSort byPriority).map Prod.snd) := by
        rw [rank_eq, walked]
        rfl
      constructor
      · intro failed
        rw [ranking] at failed
        cases failed
      · rintro ⟨module, unread⟩
        rcases priority_of_rank ranking unread.member with ⟨number, read⟩
        cases read.symm.trans unread.unread

/-! ## Repetitions -/

/-- The rankings of the same modules differ in repetitions only. -/
theorem addAll_ranked_eq {metadata : Metadata} {left right : List String}
    (same : ∀ module, module ∈ left ↔ module ∈ right) {first second : List String}
    (leftRanking : rank metadata left = .ok first) (rightRanking : rank metadata right = .ok second) :
    Names.addAll [] first = Names.addAll [] second := by
  have distinct : ∀ ranked : List String, (Names.addAll [] ranked).Nodup :=
    Names.nodup_addAll List.nodup_nil
  have sorted : ∀ {modules ranked : List String}, rank metadata modules = .ok ranked →
      (Names.addAll [] ranked).Pairwise (Outranks metadata) := by
    intro modules ranked ranking
    have pairs := (pairwise_of_rank ranking).sublist (Names.addAll_sublist [] ranked)
    exact (pairs.and (distinct ranked)).imp fun both => both.1.resolve_left both.2
  apply List.Perm.eq_of_pairwise _ (sorted leftRanking) (sorted rightRanking)
  · rw [List.perm_ext_iff_of_nodup (distinct first) (distinct second)]
    intro module
    rw [Names.mem_addAll, Names.mem_addAll, (perm_of_rank leftRanking).mem_iff,
      (perm_of_rank rightRanking).mem_iff, same]
  · intro one other _ _ outranks reversed
    exact absurd reversed outranks.asymm

namespace Graph

/-- A repeated module adds nothing to the graph. -/
theorem ofModules_addAll (metadata : Metadata) (seen more : List String) :
    ofModules metadata (Names.addAll seen more) = ofModules metadata (seen ++ more) := by
  induction more generalizing seen with
  | nil => rw [List.append_nil]; rfl
  | cons head tail ih =>
      have step : Names.addAll seen (head :: tail) = Names.addAll (Names.add seen head) tail := rfl
      rw [step, ih]
      unfold Names.add
      split
      · next repeated =>
          have inside := (contains_ofModules_iff metadata seen head).mpr (.given repeated)
          have idle : addModule metadata (ofModules metadata seen) head = ofModules metadata seen := by
            rw [addModule_eq, if_pos inside]
          unfold ofModules at idle ⊢
          rw [List.foldl_append, List.foldl_append, List.foldl_cons, idle]
      · rw [List.append_assoc, List.singleton_append]

theorem arrange_append (graph : Graph) (placed first second : List String) :
    graph.arrange placed (first ++ second) =
      (graph.arrange placed first).bind fun more => graph.arrange more second := by
  induction first generalizing placed with
  | nil => rfl
  | cons head rest ih =>
      rw [List.cons_append, arrange, arrange]
      split
      · exact ih placed
      · split
        · split
          · next error failed => rfl
          · next more walked => exact ih more
        · exact ih placed

/-- A module that was arranged, or is not in the graph, is passed over. -/
theorem arrange_repeated (graph : Graph) {before : List String} {module : String}
    (repeated : module ∈ before) (after : List String) :
    graph.arrange [] (before ++ module :: after) = graph.arrange [] (before ++ after) := by
  rw [arrange_append, arrange_append]
  cases arranged : graph.arrange [] before with
  | error error => rfl
  | ok placed =>
      rcases settled_of_arrange (settled_nil graph) arranged with ⟨_, _, reached⟩
      rw [Except.bind, Except.bind, arrange]
      split
      · rfl
      · next absent =>
          rw [dif_neg fun inside => absent (reached module repeated inside)]

/-- A repeated module changes nothing in the walk. -/
theorem arrange_addAll (graph : Graph) (seen more rest : List String) :
    graph.arrange [] (Names.addAll seen more ++ rest) = graph.arrange [] (seen ++ more ++ rest) := by
  induction more generalizing seen with
  | nil => rw [List.append_nil]; rfl
  | cons head tail ih =>
      have step : Names.addAll seen (head :: tail) = Names.addAll (Names.add seen head) tail := rfl
      rw [step, ih]
      unfold Names.add
      split
      · next repeated =>
          rw [List.append_assoc, List.append_assoc, List.cons_append,
            arrange_repeated graph repeated]
      · rw [List.append_assoc seen [head] tail, List.singleton_append]

end Graph

/-! ## Main result -/

/-- Lists of the same modules, in whatever order and with whatever repetitions, are put in the same
order or refused with the same error.  An order that is given has each module once and no
others. -/
theorem order_of_same_modules {metadata : Metadata} {left right : List String}
    (same : ∀ module, module ∈ left ↔ module ∈ right) :
    order metadata left = order metadata right ∧
      ∀ ordered, order metadata left = .ok ordered →
        ∀ module, ordered.count module = if module ∈ left then 1 else 0 := by
  refine ⟨?_, fun ordered given module => count_of_order given module⟩
  cases ranking : rank metadata left with
  | error error =>
      rcases rank_eq_error_iff.mp ranking with ⟨module, unread⟩
      have also := rank_eq_error_iff.mpr ⟨module, unread.congr same⟩
      simp only [order, ranking, also]
  | ok first =>
      cases other : rank metadata right with
      | error error =>
          rcases rank_eq_error_iff.mp other with ⟨module, unread⟩
          rcases priority_of_rank ranking ((same module).mpr unread.member) with ⟨number, read⟩
          cases read.symm.trans unread.unread
      | ok second =>
          have once := addAll_ranked_eq same ranking other
          have graphs : Graph.ofModules metadata first = Graph.ofModules metadata second := by
            have left := Graph.ofModules_addAll metadata [] first
            rw [once, Graph.ofModules_addAll] at left
            exact left.symm
          have walks : ∀ graph rest, Graph.arrange graph [] (first ++ rest) =
              Graph.arrange graph [] (second ++ rest) := by
            intro graph rest
            have left := Graph.arrange_addAll graph [] first rest
            rw [once, Graph.arrange_addAll] at left
            exact left.symm
          have members : left.contains = right.contains := by
            funext module
            rw [Bool.eq_iff_iff, List.contains_iff_mem, List.contains_iff_mem, same]
          simp only [order, ranking, other, graphs, walks, members]

/-- Naming `b` twice and before `a` changes nothing. -/
theorem order_of_same_modules_repeated :
    (∀ module, module ∈ ["b", "a", "b"] ↔ module ∈ ["a", "b"]) ∧
      order chain ["b", "a", "b"] = order chain ["a", "b"] ∧
      order chain ["b", "a", "b"] = .ok ["b", "a"] ∧
      ["b", "a"].count "b" = if "b" ∈ ["b", "a", "b"] then 1 else 0 := by
  have same : ∀ module, module ∈ ["b", "a", "b"] ↔ module ∈ ["a", "b"] := by
    intro module
    simp only [List.mem_cons, List.not_mem_nil, or_false]
    grind
  have given : order chain ["b", "a", "b"] = .ok ["b", "a"] := by cbv
  rcases @order_of_same_modules chain _ _ same with ⟨alike, once⟩
  exact ⟨same, alike, given, once _ given "b"⟩

end Module
end LayeredConfig

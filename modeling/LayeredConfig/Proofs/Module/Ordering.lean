import LayeredConfig.Proofs.Module.Placement
import LayeredConfig.Proofs.Traversal
import Mathlib

namespace LayeredConfig
namespace Module

open Relation

/-!
# The order of modules keeps to what is stated

Ranking by name and priority only permutes the modules, so what comes first and
last is decided by the walk.  An order that is given has every module after all
that it must follow, also through modules that are left out of the result.  An
order is refused exactly when some module would have to follow itself.
-/

/-! ## Ranking -/

/-- What is ranked is a module with its priority. -/
theorem map_snd_of_ranked {metadata : Metadata} {modules : List String}
    {ranked : List (Int × String)}
    (walked : (modules.mapM fun module =>
      (priority metadata module).map fun number => (number, module)) = .ok ranked) :
    ranked.map Prod.snd = modules := by
  have related := Traversal.mapM_eq_ok_iff.mp walked
  clear walked
  induction related with
  | nil => rfl
  | @cons module pair _ _ first _ ih =>
      rw [List.map_cons, ih]
      cases read : priority metadata module with
      | error error => simp [read, Except.map] at first
      | ok number =>
          simp only [read, Except.map, Except.ok.injEq] at first
          rw [← first]

theorem perm_of_rank {metadata : Metadata} {modules ranked : List String}
    (ranking : rank metadata modules = .ok ranked) : ranked.Perm modules := by
  rw [rank] at ranking
  cases walked : ((modules.mergeSort (fun first second => first ≤ second)).mapM fun module =>
      (priority metadata module).map fun number => (number, module)) with
  | error error =>
      rw [walked] at ranking
      cases ranking
  | ok pairs =>
      rw [walked] at ranking
      cases ranking
      have byPriority := (List.mergeSort_perm pairs fun first second => first.1 ≤ second.1).map
        Prod.snd
      rw [map_snd_of_ranked walked] at byPriority
      exact byPriority.trans (List.mergeSort_perm modules _)

/-- Modules whose priorities are readable can be ranked. -/
theorem exists_rank {metadata : Metadata} {modules : List String}
    (readable : ∀ module ∈ modules, ∃ number,
      metadata.readInteger module Fact.priority = .ok number) :
    ∃ ranked, rank metadata modules = .ok ranked := by
  have each : ∀ module ∈ modules.mergeSort (fun first second => first ≤ second),
      ∃ pair, ((priority metadata module).map fun number => (number, module)) = .ok pair := by
    intro module member
    rcases readable module ((List.mergeSort_perm modules _).mem_iff.mp member) with ⟨number, read⟩
    exact ⟨(number.getD 0, module), by simp [priority, read, Except.map]⟩
  rcases Traversal.exists_mapM_of_forall each with ⟨pairs, walked⟩
  exact ⟨_, by rw [rank, walked]; rfl⟩

/-! ## The walk over the ranked modules -/

/-- Ranking does not change who takes part and who must follow whom. -/
theorem linked_ofRanked_iff {metadata : Metadata} {modules ranked : List String}
    (ranking : rank metadata modules = .ok ranked) (later first : String) :
    Graph.Linked (Graph.ofModules metadata ranked) later first ↔
      MustFollow metadata modules later first := by
  have same : ∀ module, module ∈ ranked ↔ module ∈ modules := by
    intro module
    exact (perm_of_rank ranking).mem_iff
  rw [Graph.linked_ofModules_iff]
  constructor
  · rintro ⟨laterIn, firstIn, stated⟩
    exact ⟨laterIn.congr same, firstIn.congr same, stated⟩
  · rintro ⟨laterIn, firstIn, stated⟩
    have back : ∀ module, module ∈ modules ↔ module ∈ ranked := fun module => (same module).symm
    exact ⟨laterIn.congr back, firstIn.congr back, stated⟩

theorem linked_ofRanked_eq {metadata : Metadata} {modules ranked : List String}
    (ranking : rank metadata modules = .ok ranked) :
    Graph.Linked (Graph.ofModules metadata ranked) = MustFollow metadata modules := by
  funext later first
  exact propext (linked_ofRanked_iff ranking later first)

/-- An order comes from a ranking and a walk through the graph of the ranked modules. -/
theorem exists_of_order {metadata : Metadata} {modules ordered : List String}
    (given : order metadata modules = .ok ordered) :
    ∃ ranked placed, rank metadata modules = .ok ranked ∧
      (Graph.ofModules metadata ranked).arrange []
        (ranked ++ (Graph.ofModules metadata ranked).keys) = .ok placed ∧
      ordered = placed.filter fun module => modules.contains module := by
  unfold order at given
  cases ranking : rank metadata modules with
  | error error => simp [ranking] at given
  | ok ranked =>
      cases arranged : (Graph.ofModules metadata ranked).arrange []
          (ranked ++ (Graph.ofModules metadata ranked).keys) with
      | error error => simp [ranking, arranged, Except.map] at given
      | ok placed =>
          simp only [ranking, arranged, Except.map, Except.ok.injEq] at given
          exact ⟨ranked, placed, rfl, arranged, given.symm⟩

/-- A walk that succeeds has placed every module of the graph. -/
theorem settled_of_walk {graph : Graph} {ranked placed : List String}
    (arranged : graph.arrange [] (ranked ++ graph.keys) = .ok placed) :
    Graph.Settled graph placed ∧
      ∀ module, graph.contains module = true → module ∈ placed := by
  rcases Graph.settled_of_arrange (Graph.settled_nil graph) arranged with ⟨settled, _, reached⟩
  refine ⟨settled, ?_⟩
  intro module inside
  have listed := (KeyedList.contains_iff_mem_keys graph module).mp inside
  exact reached module (List.mem_append_right _ listed) inside

/-- An order that is given has each module once. -/
theorem nodup_of_order {metadata : Metadata} {modules ordered : List String}
    (given : order metadata modules = .ok ordered) : ordered.Nodup := by
  rcases exists_of_order given with ⟨ranked, placed, _, arranged, rfl⟩
  exact (settled_of_walk arranged).1.distinct.filter _

/-- An order that is given has the modules to be ordered and no others. -/
theorem mem_iff_of_order {metadata : Metadata} {modules ordered : List String}
    (given : order metadata modules = .ok ordered) (module : String) :
    module ∈ ordered ↔ module ∈ modules := by
  rcases exists_of_order given with ⟨ranked, placed, ranking, arranged, rfl⟩
  rw [List.mem_filter, List.contains_iff_mem]
  constructor
  · exact And.right
  · intro member
    have inside : (Graph.ofModules metadata ranked).contains module = true :=
      (Graph.contains_ofModules_iff metadata ranked module).mpr
        (.given ((perm_of_rank ranking).mem_iff.mpr member))
    exact ⟨(settled_of_walk arranged).2 module inside, member⟩

theorem count_of_order {metadata : Metadata} {modules ordered : List String}
    (given : order metadata modules = .ok ordered) (module : String) :
    ordered.count module = if module ∈ modules then 1 else 0 := by
  rw [(nodup_of_order given).count]
  simp only [mem_iff_of_order given]

/-- In an order that is given, no module must follow a later one. -/
theorem pairwise_of_order {metadata : Metadata} {modules ordered : List String}
    (given : order metadata modules = .ok ordered) :
    ordered.Pairwise fun sooner later => ¬ TransGen (MustFollow metadata modules) sooner later := by
  rcases exists_of_order given with ⟨ranked, placed, ranking, arranged, rfl⟩
  have sorted := (settled_of_walk arranged).1.pairwise.filter fun module => modules.contains module
  rwa [linked_ofRanked_eq ranking] at sorted

/-! ## Main results -/

/-- In an order that is given, a module stands after every other that it must follow, directly
or through any chain of modules that take part, left out of the result or not. -/
theorem follower_after_followed {metadata : Metadata} {modules ordered : List String}
    (given : order metadata modules = .ok ordered) {first later : String} {early late : Nat}
    (firstAt : ordered[early]? = some first) (laterAt : ordered[late]? = some later)
    (different : first ≠ later) (follows : TransGen (MustFollow metadata modules) later first) :
    early < late := by
  have sorted := pairwise_of_order given
  rcases List.getElem?_eq_some_iff.mp firstAt with ⟨earlyBound, earlyEq⟩
  rcases List.getElem?_eq_some_iff.mp laterAt with ⟨lateBound, lateEq⟩
  rcases Nat.lt_trichotomy early late with sooner | same | backwards
  · exact sooner
  · subst same
    exact absurd (earlyEq.symm.trans lateEq) different
  · have refused := List.pairwise_iff_getElem.mp sorted late early lateBound earlyBound backwards
    rw [lateEq, earlyEq] at refused
    exact absurd follows refused

/-- A table in which `a` comes after `x` and `x` after `b`. -/
def chain : Metadata where
  table := KeyedList.ofList [("a", ""), ("a.AutoConfigureAfter", "x"), ("b", ""), ("x", ""),
    ("x.AutoConfigureAfter", "b")]
  manifest := none

theorem follows_chain : TransGen (MustFollow chain ["a", "b"]) "a" "b" := by
  have afterA : (Graph.node chain "a").after = ["x"] := by cbv
  have afterX : (Graph.node chain "x").after = ["b"] := by cbv
  have givenA : Involved chain ["a", "b"] "a" := .given (by decide)
  have givenB : Involved chain ["a", "b"] "b" := .given (by decide)
  have reached : Involved chain ["a", "b"] "x" :=
    .referred givenA (by cbv) (by cbv) (by rw [afterA]; simp)
  have last : MustFollow chain ["a", "b"] "x" "b" :=
    ⟨reached, givenB, Or.inl (by rw [afterX]; decide)⟩
  exact .head ⟨givenA, reached, Or.inl (by rw [afterA]; decide)⟩ (.single last)

/-- The chain from `a` to `b` counts though `x` is left out. -/
theorem follower_after_followed_chain :
    order chain ["a", "b"] = .ok ["b", "a"] ∧ ["b", "a"][0]? = some "b" ∧
      ["b", "a"][1]? = some "a" ∧ "b" ≠ "a" ∧
      TransGen (MustFollow chain ["a", "b"]) "a" "b" ∧ 0 < 1 := by
  have given : order chain ["a", "b"] = .ok ["b", "a"] := by cbv
  have different : "b" ≠ "a" := by decide
  exact ⟨given, rfl, rfl, different, follows_chain,
    follower_after_followed given rfl rfl different follows_chain⟩

/-- When all priorities are readable, an order is refused for a cycle exactly when some module
must follow itself through modules that take part, and is given otherwise.  The two modules of
the error stand on one cycle: the first must follow the second, and that leads back to it. -/
theorem order_refused_iff_cycle {metadata : Metadata} {modules : List String}
    (readable : ∀ module ∈ modules, ∃ number,
      metadata.readInteger module Fact.priority = .ok number) :
    ((∃ first second, order metadata modules = .error (.cycleDetected first second)) ↔
      ∃ module, TransGen (MustFollow metadata modules) module module) ∧
    ((¬ ∃ module, TransGen (MustFollow metadata modules) module module) →
      ∃ ordered, order metadata modules = .ok ordered) ∧
    ∀ first second, order metadata modules = .error (.cycleDetected first second) →
      MustFollow metadata modules first second ∧
        (second = first ∨ TransGen (MustFollow metadata modules) second first) := by
  rcases exists_rank readable with ⟨ranked, ranking⟩
  have edges := linked_ofRanked_eq ranking
  cases arranged : (Graph.ofModules metadata ranked).arrange []
      (ranked ++ (Graph.ofModules metadata ranked).keys) with
  | ok placed =>
      rcases settled_of_walk arranged with ⟨settled, complete⟩
      have acyclic := settled.acyclic complete
      rw [edges] at acyclic
      have given : order metadata modules =
          .ok (placed.filter fun module => modules.contains module) := by
        simp only [order, ranking, arranged, Except.map]
      have noCycle : ¬ ∃ module, TransGen (MustFollow metadata modules) module module := by
        rintro ⟨module, cycle⟩
        exact acyclic module cycle
      refine ⟨⟨?_, fun cycle => absurd cycle noCycle⟩, fun _ => ⟨_, given⟩, ?_⟩
      · rintro ⟨first, second, refused⟩
        rw [given] at refused
        cases refused
      · intro first second refused
        rw [given] at refused
        cases refused
  | error error =>
      have closes := Graph.closesCycle_of_arrange arranged
      have cyclic := closes.cyclic
      rcases closes with ⟨first, second, rfl, linked, back⟩
      rw [edges] at cyclic linked back
      have refused : order metadata modules = .error (.cycleDetected first second) := by
        simp only [order, ranking, arranged, Except.map]
      refine ⟨⟨fun _ => cyclic, fun _ => ⟨first, second, refused⟩⟩,
        fun noCycle => absurd cyclic noCycle, ?_⟩
      intro one other also
      rw [refused, Except.error.injEq, Error.cycleDetected.injEq] at also
      rcases also with ⟨rfl, rfl⟩
      exact ⟨linked, reflTransGen_iff_eq_or_transGen.mp back |>.imp Eq.symm id⟩

/-- A table in which `a` comes before `x` and `x` before `a`. -/
def circle : Metadata where
  table := KeyedList.ofList [("a", ""), ("a.AutoConfigureBefore", "x"), ("x", ""),
    ("x.AutoConfigureBefore", "a")]
  manifest := none

/-- The circle is met though `x` is no module to be ordered. -/
theorem order_refused_circle :
    (∀ module ∈ ["a"], ∃ number, circle.readInteger module Fact.priority = .ok number) ∧
      (∃ module, TransGen (MustFollow circle ["a"]) module module) ∧
      MustFollow circle ["a"] "x" "a" ∧
      ("a" = "x" ∨ TransGen (MustFollow circle ["a"]) "a" "x") := by
  have readable : ∀ module ∈ ["a"], ∃ number,
      circle.readInteger module Fact.priority = .ok number := by
    intro module member
    rw [List.mem_singleton.mp member]
    exact ⟨none, by cbv⟩
  have refused : order circle ["a"] = .error (.cycleDetected "x" "a") := by cbv
  rcases order_refused_iff_cycle readable with ⟨cyclic, _, named⟩
  exact ⟨readable, cyclic.mp ⟨_, _, refused⟩, named _ _ refused⟩

end Module
end LayeredConfig

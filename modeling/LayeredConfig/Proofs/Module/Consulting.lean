import LayeredConfig.Proofs.Module.Conditions
import LayeredConfig.Proofs.Module.Ranking

namespace LayeredConfig
namespace Module

/-!
# What is asked of the metadata

The order and the built-in filters ask whether a module is known and what its
facts are, and they ask it of the modules they are given and of those that these
lead to.  Metadata that give the same answers about such a range of modules are
therefore the same to them, whatever they hold besides.
-/

/-- The facts that are asked for. -/
def Fact.all : List String :=
  [capabilities, applicationKind, priority, before, after]

/-- The metadata give the same answers about the modules of a range, which holds what the modules
in it refer to. -/
structure AgreeWithin (range : String → Prop) (metadata other : Metadata) : Prop where
  knows : ∀ module, range module → metadata.knows module = other.knows module
  read : ∀ module, range module → ∀ fact ∈ Fact.all,
    metadata.read module fact = other.read module fact
  referred : ∀ module, range module →
    ∀ named ∈ (Graph.node metadata module).before ++ (Graph.node metadata module).after, range named

namespace AgreeWithin

variable {range : String → Prop} {metadata other : Metadata} {module : String}

theorem readSet (agree : AgreeWithin range metadata other) (inside : range module) {fact : String}
    (asked : fact ∈ Fact.all) : metadata.readSet module fact = other.readSet module fact := by
  rw [Metadata.readSet, agree.read module inside fact asked, Metadata.readSet]

theorem readInteger (agree : AgreeWithin range metadata other) (inside : range module)
    {fact : String} (asked : fact ∈ Fact.all) :
    metadata.readInteger module fact = other.readInteger module fact := by
  rw [Metadata.readInteger, agree.read module inside fact asked, Metadata.readInteger]

/-! ## The order -/

theorem node (agree : AgreeWithin range metadata other) (inside : range module) :
    Graph.node metadata module = Graph.node other module := by
  rw [Graph.node, agree.readSet inside (by decide), agree.readSet inside (by decide), Graph.node]

theorem addReferences (agree : AgreeWithin range metadata other) {graph : Graph}
    {pending : List String} (inside : ∀ module ∈ pending, range module) :
    Graph.addReferences metadata graph pending = Graph.addReferences other graph pending := by
  induction graph, pending using Graph.addReferences.induct metadata with
  | case1 graph => rw [Graph.addReferences, Graph.addReferences]
  | case2 graph head rest present ih =>
      rw [List.forall_mem_cons] at inside
      rw [Graph.addReferences, Graph.addReferences, dif_pos present, dif_pos present, ih inside.2]
  | case3 graph head rest absent known _ ih =>
      rw [List.forall_mem_cons] at inside
      have also : other.knows head = true := (agree.knows head inside.1).symm.trans known
      have next : ∀ module ∈ (Graph.node metadata head).before ++
          (Graph.node metadata head).after ++ rest, range module := by
        intro module member
        rcases List.mem_append.mp member with named | later
        · exact agree.referred head inside.1 module named
        · exact inside.2 module later
      rw [Graph.addReferences, Graph.addReferences, dif_neg absent, dif_neg absent, dif_pos known,
        dif_pos also, ih next, agree.node inside.1]
  | case4 graph head rest absent unknown ih =>
      rw [List.forall_mem_cons] at inside
      have also : ¬ other.knows head = true := by rwa [← agree.knows head inside.1]
      rw [Graph.addReferences, Graph.addReferences, dif_neg absent, dif_neg absent,
        dif_neg unknown, dif_neg also, ih inside.2]

theorem ofModules (agree : AgreeWithin range metadata other) {modules : List String}
    (inside : ∀ module ∈ modules, range module) :
    Graph.ofModules metadata modules = Graph.ofModules other modules := by
  refine List.foldl_ext _ _ _ fun graph module member => ?_
  have within := inside module member
  rw [Graph.addModule, Graph.addModule, agree.node within, agree.knows module within]
  split
  · rfl
  · split
    · rw [← agree.node within]
      exact agree.addReferences (agree.referred module within)
    · rfl

theorem rank (agree : AgreeWithin range metadata other) {modules : List String}
    (inside : ∀ module ∈ modules, range module) :
    Module.rank metadata modules = Module.rank other modules := by
  rw [Module.rank, Module.rank]
  congr 1
  refine Traversal.mapM_congr fun module member => ?_
  have within := inside module (List.mem_mergeSort.mp member)
  rw [Module.priority, Module.priority, agree.readInteger within (by decide)]

theorem order (agree : AgreeWithin range metadata other) {modules : List String}
    (inside : ∀ module ∈ modules, range module) :
    Module.order metadata modules = Module.order other modules := by
  rw [Module.order, Module.order, ← agree.rank inside]
  cases ranking : Module.rank metadata modules with
  | error error => rfl
  | ok ranked =>
      have within : ∀ module ∈ ranked, range module := fun module member =>
        inside module ((perm_of_rank ranking).mem_iff.mp member)
      simp only [agree.ofModules within]

/-! ## The built-in filters -/

theorem onFact (agree : AgreeWithin range metadata other) {fact : String}
    (asked : fact ∈ Fact.all) (verdict : String → Option Verdict) {slot : Option String}
    (inside : ∀ module ∈ slot, range module) :
    Filter.onFact fact verdict metadata slot = Filter.onFact fact verdict other slot := by
  cases slot with
  | none => rfl
  | some module => rw [Filter.onFact, Filter.onFact, agree.read module (inside module rfl) fact asked]

/-- A built-in filter gives the same verdicts on a row of modules of the range. -/
theorem verdicts (agree : AgreeWithin range metadata other) (builtIn : Filter.BuiltIn)
    {slots : List (Option String)} (inside : ∀ slot ∈ slots, ∀ module ∈ slot, range module) :
    builtIn.filter.verdicts slots metadata = builtIn.filter.verdicts slots other := by
  rw [Filter.verdicts_builtIn, Filter.verdicts_builtIn]
  refine List.map_congr_left fun slot member => ?_
  cases builtIn with
  | onCapability present units => exact agree.onFact (by decide) _ (inside slot member)
  | onApplicationKind kind => exact agree.onFact (by decide) _ (inside slot member)

end AgreeWithin
end Module
end LayeredConfig

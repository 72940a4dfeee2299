import LayeredConfig.Module.Order
import Mathlib.Logic.Relation

namespace LayeredConfig
namespace Module

open Relation

/-!
# The graph is what the modules reach

Storing a module leads to the modules that it refers to, and so on.  Written
without any measure, this is a recursion that can only be followed to a given
depth.  Every call inside another one is made for a known module that was just
stored, and no module is stored twice, so that the calls nest no deeper than the
number of known modules allows, whatever circles the references make.  The graph
with which it ends holds the given modules and those that known ones lead to, each
once and as it is stated.
-/

/-- What is asked when a graph is built: whether a module is known, and which names a fact of it
lists.  There are finitely many known modules. -/
structure FactSource where
  knows : String → Bool
  readSet : String → String → Option (List String)
  known : List String
  covers : ∀ module, knows module = true → module ∈ known

/-- The metadata as a source of facts. -/
def Metadata.facts (metadata : Metadata) : FactSource where
  knows := metadata.knows
  readSet := metadata.readSet
  known := metadata.known
  covers := fun _ => Metadata.mem_known_of_knows

namespace FactSource

/-! ## What is reached -/

/-- What is stated about the neighbours of a module. -/
def node (source : FactSource) (module : String) : Node where
  before := (source.readSet module Fact.before).getD []
  after := (source.readSet module Fact.after).getD []

/-- A known module names another known one, before or after which it comes. -/
structure Refers (source : FactSource) (module other : String) : Prop where
  known : source.knows module = true
  knownOther : source.knows other = true
  named : other ∈ (source.node module).before ++ (source.node module).after

/-- The module is a given one, or references among known modules lead to it from a given one. -/
def Reached (source : FactSource) (modules : List String) (module : String) : Prop :=
  module ∈ modules ∨
    ∃ given ∈ modules, source.knows given = true ∧ ReflTransGen source.Refers given module

theorem Reached.refer {source : FactSource} {modules : List String} {module other : String}
    (reached : source.Reached modules module) (refers : source.Refers module other) :
    source.Reached modules other := by
  rcases reached with given | ⟨given, member, known, leads⟩
  · exact .inr ⟨module, given, refers.known, .single refers⟩
  · exact .inr ⟨given, member, known, leads.tail refers⟩

/-- The names that a module leads to, which are those that it refers to if it is known. -/
def leadsTo (source : FactSource) (module : String) : List String :=
  if source.knows module then (source.node module).before ++ (source.node module).after else []

variable {source : FactSource} {modules awaited names : List String} {graph more : Graph}
variable {module name : String} {required : Bool}

theorem leadsTo_of_known (known : source.knows module = true) :
    source.leadsTo module = (source.node module).before ++ (source.node module).after :=
  if_pos known

theorem leadsTo_of_unknown (unknown : source.knows module = false) : source.leadsTo module = [] :=
  if_neg (Bool.eq_false_iff.mp unknown)

theorem refers_iff (source : FactSource) (module other : String) :
    source.Refers module other ↔ source.knows other = true ∧ other ∈ source.leadsTo module := by
  constructor
  · rintro ⟨known, knownOther, named⟩
    exact ⟨knownOther, leadsTo_of_known known ▸ named⟩
  · rintro ⟨knownOther, named⟩
    cases known : source.knows module with
    | true => exact ⟨known, knownOther, leadsTo_of_known known ▸ named⟩
    | false =>
        rw [leadsTo_of_unknown known] at named
        cases named

/-! ## Calls -/

/-- What a call does with one of its names.  A new one is stored when it is known or required, and
the two lists of a known one are handed to `inner`, one after the other. -/
def addName (source : FactSource) (inner : Graph → List String → Option Graph) (required : Bool)
    (graph : Graph) (name : String) : Option Graph :=
  if graph.contains name then some graph
  else if required || source.knows name then
    let stored := graph.insert name (source.node name)
    if source.knows name then
      (inner stored (source.node name).before).bind fun more => inner more (source.node name).after
    else some stored
  else some graph

/-- The recursion followed through at most `depth` calls inside one another; nothing comes of it
when they go deeper. -/
def addWithin (source : FactSource) : (depth : Nat) → (required : Bool) → Graph → List String →
    Option Graph
  | 0, _ => fun _ _ => none
  | depth + 1, required => fun graph names =>
      names.foldlM (source.addName (source.addWithin depth false) required) graph

section Calls

variable (inner : Graph → List String → Option Graph)

theorem addName_of_contains (required : Bool) (present : graph.contains name = true) :
    source.addName inner required graph name = some graph := by
  rw [addName, if_pos present]

theorem addName_of_known (required : Bool) (absent : graph.contains name = false)
    (known : source.knows name = true) :
    source.addName inner required graph name =
      (inner (graph.insert name (source.node name)) (source.node name).before).bind fun more =>
        inner more (source.node name).after := by
  simp only [addName, absent, known, Bool.or_true, Bool.false_eq_true, if_false, if_true]

/-- An unknown module is stored only when it is required. -/
theorem addName_of_unknown (required : Bool) (absent : graph.contains name = false)
    (unknown : source.knows name = false) :
    source.addName inner required graph name =
      some (if required then graph.insert name (source.node name) else graph) := by
  cases required <;>
    simp only [addName, absent, unknown, Bool.or_false, Bool.false_eq_true, if_false, if_true]

end Calls

/-! ## Calls that end alike -/

/-- Whatever the one call ends with, the other ends with as well. -/
def Confirms (other call : Graph → List String → Option Graph) : Prop :=
  ∀ graph names more, call graph names = some more → other graph names = some more

theorem Confirms.addName {call other : Graph → List String → Option Graph}
    (confirms : Confirms other call)
    (ended : source.addName call required graph name = some more) :
    source.addName other required graph name = some more := by
  cases present : graph.contains name with
  | true => rwa [addName_of_contains _ required present] at ended ⊢
  | false =>
      cases known : source.knows name with
      | true =>
          rw [addName_of_known _ required present known, Option.bind_eq_some_iff] at ended ⊢
          rcases ended with ⟨between, first, second⟩
          exact ⟨between, confirms _ _ _ first, confirms _ _ _ second⟩
      | false => rwa [addName_of_unknown _ required present known] at ended ⊢

theorem Confirms.foldlM {call other : Graph → List String → Option Graph}
    (confirms : Confirms other call)
    (ended : names.foldlM (source.addName call required) graph = some more) :
    names.foldlM (source.addName other required) graph = some more := by
  induction names generalizing graph with
  | nil => exact ended
  | cons head tail ih =>
      rw [List.foldlM_cons, Option.bind_eq_bind, Option.bind_eq_some_iff] at ended ⊢
      rcases ended with ⟨between, first, rest⟩
      exact ⟨between, confirms.addName first, ih rest⟩

/-- A call that comes to an end does so with the same graph when it is followed deeper. -/
theorem confirms_addWithin (source : FactSource) (required : Bool) {depth deeper : Nat}
    (deep : depth ≤ deeper) :
    Confirms (source.addWithin deeper required) (source.addWithin depth required) := by
  induction depth generalizing required deeper with
  | zero =>
      intro graph names more ended
      cases ended
  | succ depth ih =>
      intro graph names more ended
      cases deeper with
      | zero => cases deep
      | succ deeper => exact (ih false (Nat.le_of_succ_le_succ deep)).foldlM ended

/-! ## A graph that is being built -/

/-- What is true of a graph while the awaited names have yet to be gone through. -/
structure Building (source : FactSource) (modules awaited : List String) (graph : Graph) :
    Prop where
  stored : ∀ module stated, graph.get? module = some stated → stated = source.node module
  reached : ∀ module ∈ graph.keys, source.Reached modules module
  sought : ∀ module ∈ awaited, source.knows module = true → source.Reached modules module
  closed : ∀ module ∈ graph.keys, ∀ other, source.Refers module other →
    other ∈ graph.keys ∨ other ∈ awaited

theorem building_empty (source : FactSource) (modules : List String) :
    Building source modules modules KeyedList.empty where
  stored := fun _ _ found => by cases found
  reached := fun _ member => by cases member
  sought := fun _ member _ => .inl member
  closed := fun _ member => by cases member

/-- A name may be passed over when the graph has it or it is not known. -/
theorem Building.pass (building : Building source modules (name :: awaited) graph)
    (passed : name ∈ graph.keys ∨ source.knows name = false) :
    Building source modules awaited graph where
  stored := building.stored
  reached := building.reached
  sought := fun module member => building.sought module (List.mem_cons_of_mem name member)
  closed := by
    intro module member other refers
    rcases building.closed module member other refers with present | awaits
    · exact .inl present
    · rcases List.mem_cons.mp awaits with rfl | later
      · refine passed.imp id fun unknown => ?_
        rw [refers.knownOther] at unknown
        cases unknown
      · exact .inr later

/-- When a module is stored, the names that it leads to are awaited. -/
theorem Building.store (building : Building source modules (name :: awaited) graph)
    (reached : source.Reached modules name) :
    Building source modules (source.leadsTo name ++ awaited)
      (graph.insert name (source.node name)) where
  stored := by
    intro module stated found
    rw [KeyedList.get?_insert] at found
    split at found
    · next same => rw [same, Option.some.inj found]
    · exact building.stored module stated found
  reached := by
    intro module member
    rcases (KeyedList.mem_keys_insert graph name module _).mp member with rfl | before
    · exact reached
    · exact building.reached module before
  sought := by
    intro module member known
    rcases List.mem_append.mp member with named | later
    · exact reached.refer ((refers_iff source name module).mpr ⟨known, named⟩)
    · exact building.sought module (List.mem_cons_of_mem name later) known
  closed := by
    intro module member other refers
    rw [KeyedList.mem_keys_insert, List.mem_append, or_assoc]
    rcases (KeyedList.mem_keys_insert graph name module _).mp member with rfl | before
    · exact .inr (.inr (.inl ((refers_iff source module other).mp refers).2))
    · rcases building.closed module before other refers with present | awaits
      · exact .inr (.inl present)
      · exact (List.mem_cons.mp awaits).imp id fun later => .inr (.inr later)

/-- Each module is stored with what is stated about it. -/
theorem Building.mem_entries_iff (building : Building source modules awaited graph)
    (module : String) (stated : Node) :
    (module, stated) ∈ graph.entries ↔ module ∈ graph.keys ∧ stated = source.node module := by
  constructor
  · intro member
    have found := (KeyedList.get?_eq_some_iff graph module stated).mpr member
    exact ⟨List.mem_map.mpr ⟨_, member, rfl⟩, building.stored module stated found⟩
  · rintro ⟨member, rfl⟩
    rcases List.mem_map.mp member with ⟨⟨name, held⟩, inside, rfl⟩
    have found := (KeyedList.get?_eq_some_iff graph name held).mpr inside
    rw [← building.stored name held found]
    exact inside

/-- When no name is awaited any more, the graph holds just what is reached. -/
theorem Building.mem_keys_iff (building : Building source modules [] graph)
    (given : modules ⊆ graph.keys) (module : String) :
    module ∈ graph.keys ↔ source.Reached modules module := by
  refine ⟨building.reached module, ?_⟩
  rintro (member | ⟨first, member, -, leads⟩)
  · exact given member
  · induction leads with
    | refl => exact given member
    | tail _ refers ih => exact (building.closed _ ih _ refers).resolve_right List.not_mem_nil

/-! ## Calls that come to an end -/

/-- The known modules that the graph does not hold. -/
def missing (source : FactSource) (graph : Graph) : List String :=
  Names.missing source.known graph.keys

theorem missing_insert_lt (stated : Node) (absent : graph.contains name = false)
    (known : source.knows name = true) :
    (source.missing (graph.insert name stated)).length < (source.missing graph).length := by
  refine Names.length_missing_lt (source.covers name known) ?_ ?_ fun other member => ?_
  · rw [← KeyedList.contains_iff_mem_keys, absent]
    exact Bool.false_ne_true
  · exact (KeyedList.mem_keys_insert graph name name stated).mpr (.inl rfl)
  · exact (KeyedList.mem_keys_insert graph name other stated).mpr (.inr member)

/-- A call has gone through its names and come to a larger graph. -/
structure Extends (source : FactSource) (modules awaited : List String) (graph more : Graph) :
    Prop where
  kept : graph.keys ⊆ more.keys
  building : Building source modules awaited more

theorem Extends.trans {between : Graph} {later : List String}
    (first : Extends source modules awaited graph between)
    (second : Extends source modules later between more) :
    Extends source modules later graph more :=
  ⟨List.Subset.trans first.kept second.kept, second.building⟩

theorem Extends.missing_le (step : Extends source modules awaited graph more) :
    (source.missing more).length ≤ (source.missing graph).length :=
  Names.length_missing_le source.known step.kept

/-- Whatever the graph and the names, a call comes to an end if the graph lacks fewer than `depth`
known modules. -/
def Ends (source : FactSource) (modules : List String) (depth : Nat)
    (call : Graph → List String → Option Graph) : Prop :=
  ∀ graph names awaited, (source.missing graph).length < depth →
    Building source modules (names ++ awaited) graph →
    ∃ more, call graph names = some more ∧ Extends source modules awaited graph more

variable {depth : Nat} {inner : Graph → List String → Option Graph}

/-- Storing a known module leaves room for the two calls that are made for it. -/
theorem Ends.exists_addName_of_known (ends : Ends source modules depth inner) (required : Bool)
    (enough : (source.missing graph).length < depth + 1)
    (building : Building source modules (name :: awaited) graph)
    (absent : graph.contains name = false) (known : source.knows name = true) :
    ∃ more, source.addName inner required graph name = some more ∧
      Extends source modules awaited (graph.insert name (source.node name)) more := by
  have fewer := missing_insert_lt (source.node name) absent known
  have stored := building.store (building.sought name List.mem_cons_self known)
  rw [leadsTo_of_known known, List.append_assoc] at stored
  rcases ends _ _ _ (by omega) stored with ⟨between, first, sooner⟩
  -- What the first call stores is missing no more, so the second has at least as much room.
  have room := sooner.missing_le
  rcases ends between _ _ (by omega) sooner.building with ⟨more, second, later⟩
  refine ⟨more, ?_, sooner.trans later⟩
  rw [addName_of_known inner required absent known, first, Option.bind_some, second]

/-- Going through one name comes to an end, and a required name is stored. -/
theorem Ends.exists_addName (ends : Ends source modules depth inner) (required : Bool)
    (admitted : required = true → name ∈ modules)
    (enough : (source.missing graph).length < depth + 1)
    (building : Building source modules (name :: awaited) graph) :
    ∃ more, source.addName inner required graph name = some more ∧
      Extends source modules awaited graph more ∧ (required = true → name ∈ more.keys) := by
  have grows : graph.keys ⊆ (graph.insert name (source.node name)).keys := fun other member =>
    (KeyedList.mem_keys_insert graph name other _).mpr (.inr member)
  have enters : name ∈ (graph.insert name (source.node name)).keys :=
    (KeyedList.mem_keys_insert graph name name _).mpr (.inl rfl)
  cases present : graph.contains name with
  | true =>
      have member := (KeyedList.contains_iff_mem_keys graph name).mp present
      exact ⟨graph, addName_of_contains inner required present,
        ⟨List.Subset.refl _, building.pass (.inl member)⟩, fun _ => member⟩
  | false =>
      cases known : source.knows name with
      | true =>
          rcases ends.exists_addName_of_known required enough building present known with
            ⟨more, ended, step⟩
          exact ⟨more, ended, ⟨List.Subset.trans grows step.kept, step.building⟩,
            fun _ => step.kept enters⟩
      | false =>
          refine ⟨_, addName_of_unknown inner required present known, ?_⟩
          cases required with
          | true =>
              have stored := building.store (.inl (admitted rfl))
              rw [leadsTo_of_unknown known, List.nil_append] at stored
              exact ⟨⟨grows, stored⟩, fun _ => enters⟩
          | false => exact ⟨⟨List.Subset.refl _, building.pass (.inr known)⟩, nofun⟩

/-- Going through all names comes to an end. -/
theorem Ends.exists_foldlM (ends : Ends source modules depth inner) (required : Bool)
    (admitted : required = true → names ⊆ modules)
    (enough : (source.missing graph).length < depth + 1)
    (building : Building source modules (names ++ awaited) graph) :
    ∃ more, names.foldlM (source.addName inner required) graph = some more ∧
      Extends source modules awaited graph more ∧ (required = true → names ⊆ more.keys) := by
  induction names generalizing graph with
  | nil => exact ⟨graph, rfl, ⟨List.Subset.refl _, building⟩, fun _ => List.nil_subset _⟩
  | cons head tail ih =>
      rcases ends.exists_addName required (fun needed => admitted needed List.mem_cons_self) enough
        building with ⟨between, first, step, entered⟩
      rcases ih (fun needed => List.subset_of_cons_subset (admitted needed))
        (Nat.lt_of_le_of_lt step.missing_le enough) step.building with
        ⟨more, others, rest, reached⟩
      refine ⟨more, ?_, step.trans rest, fun needed => ?_⟩
      · rw [List.foldlM_cons, first]
        exact others
      · exact List.cons_subset.mpr ⟨rest.kept (entered needed), reached needed⟩

/-- A call that is followed deeper than there are known modules left to be stored comes to an
end. -/
theorem ends_addWithin (source : FactSource) (modules : List String) (depth : Nat) :
    Ends source modules depth (source.addWithin depth false) := by
  -- One level less is left for the calls inside, and one known module less is missing in them.
  induction depth with
  | zero =>
      intro graph names awaited enough
      cases enough
  | succ depth ih =>
      intro graph names awaited enough building
      rcases ih.exists_foldlM false nofun enough building with ⟨more, ended, step, -⟩
      exact ⟨more, ended, step⟩

/-- The first call, in which all names are required, ends with a finished graph. -/
theorem exists_addWithin (source : FactSource) (modules : List String)
    (enough : source.known.length < depth) :
    ∃ graph, source.addWithin depth true KeyedList.empty modules = some graph ∧
      Building source modules [] graph ∧ modules ⊆ graph.keys := by
  cases depth with
  | zero => cases enough
  | succ depth =>
      have few : (source.missing KeyedList.empty).length ≤ source.known.length :=
        List.length_filter_le _ _
      have building : Building source modules (modules ++ []) KeyedList.empty := by
        rw [List.append_nil]
        exact building_empty source modules
      rcases (ends_addWithin source modules depth).exists_foldlM true
        (fun _ => List.Subset.refl modules) (Nat.lt_of_le_of_lt few enough) building with
        ⟨graph, ended, step, entered⟩
      exact ⟨graph, ended, step.building, entered rfl⟩

end FactSource

/-! ## The graph of the metadata -/

namespace Graph

variable {metadata : Metadata} {graph : Graph} {name : String}

theorem addReferences_append (metadata : Metadata) (graph : Graph) (first second : List String) :
    addReferences metadata graph (first ++ second) =
      addReferences metadata (addReferences metadata graph first) second := by
  induction graph, first using addReferences.induct metadata with
  | case1 graph => rw [List.nil_append, addReferences.eq_1]
  | case2 graph head rest present ih =>
      rw [List.cons_append, addReferences, addReferences, dif_pos present, dif_pos present, ih]
  | case3 graph head rest absent known _ ih =>
      rw [List.cons_append, addReferences, addReferences, dif_neg absent, dif_neg absent,
        dif_pos known, dif_pos known, ← List.append_assoc, ih]
  | case4 graph head rest absent unknown ih =>
      rw [List.cons_append, addReferences, addReferences, dif_neg absent, dif_neg absent,
        dif_neg unknown, dif_neg unknown, ih]

/-- Adding a module is following the references of one that was just entered, and an unknown
module makes none. -/
theorem addModule_eq (metadata : Metadata) (graph : Graph) (module : String) :
    addModule metadata graph module =
      if graph.contains module = true then graph
      else addReferences metadata (graph.insert module (node metadata module))
        (if metadata.knows module = true then
          (node metadata module).before ++ (node metadata module).after else []) := by
  unfold addModule
  by_cases present : graph.contains module = true
  · rw [if_pos present, if_pos present]
  · rw [if_neg present, if_neg present]
    by_cases known : metadata.knows module = true
    · rw [if_pos known, if_pos known]
    · rw [if_neg known, if_neg known, addReferences]

/-- What becomes of a graph when one name is gone through. -/
def addStep (metadata : Metadata) (required : Bool) (graph : Graph) (name : String) : Graph :=
  if required then addModule metadata graph name else addReferences metadata graph [name]

theorem addStep_of_contains (required : Bool) (present : graph.contains name = true) :
    addStep metadata required graph name = graph := by
  cases required with
  | true => rw [addStep, if_pos rfl, addModule_eq, if_pos present]
  | false =>
      rw [addStep, if_neg Bool.false_ne_true, addReferences, dif_pos present, addReferences]

theorem addStep_of_knows (required : Bool) (absent : graph.contains name = false)
    (known : metadata.knows name = true) :
    addStep metadata required graph name =
      addReferences metadata (graph.insert name (node metadata name))
        ((node metadata name).before ++ (node metadata name).after) := by
  have lacks : ¬ graph.contains name = true := Bool.eq_false_iff.mp absent
  cases required with
  | true => rw [addStep, if_pos rfl, addModule_eq, if_neg lacks, if_pos known]
  | false =>
      rw [addStep, if_neg Bool.false_ne_true, addReferences, dif_neg lacks, dif_pos known,
        List.append_nil]

theorem addStep_of_not_knows (required : Bool) (absent : graph.contains name = false)
    (unknown : metadata.knows name = false) :
    addStep metadata required graph name =
      if required then graph.insert name (node metadata name) else graph := by
  have lacks : ¬ graph.contains name = true := Bool.eq_false_iff.mp absent
  have stranger : ¬ metadata.knows name = true := Bool.eq_false_iff.mp unknown
  cases required with
  | true =>
      rw [addStep, if_pos rfl, if_pos rfl, addModule_eq, if_neg lacks, if_neg stranger,
        addReferences]
  | false =>
      rw [addStep, if_neg Bool.false_ne_true, if_neg Bool.false_ne_true, addReferences,
        dif_neg lacks, dif_neg stranger, addReferences]

theorem foldl_addStep_false (metadata : Metadata) (graph : Graph) (names : List String) :
    names.foldl (addStep metadata false) graph = addReferences metadata graph names := by
  induction names generalizing graph with
  | nil => rw [addReferences, List.foldl_nil]
  | cons head tail ih =>
      rw [List.foldl_cons, ih, ← List.singleton_append, addReferences_append]
      rfl

/-- A call that adds the known modules among its names and all that they lead to. -/
def referenceCall (metadata : Metadata) (graph : Graph) (names : List String) : Option Graph :=
  some (addReferences metadata graph names)

theorem addName_referenceCall (metadata : Metadata) (required : Bool) (graph : Graph)
    (name : String) :
    metadata.facts.addName (referenceCall metadata) required graph name =
      some (addStep metadata required graph name) := by
  cases present : graph.contains name with
  | true =>
      rw [FactSource.addName_of_contains _ required present, addStep_of_contains required present]
  | false =>
      cases known : metadata.knows name with
      | true =>
          rw [FactSource.addName_of_known _ required present known,
            addStep_of_knows required present known, addReferences_append]
          rfl
      | false =>
          rw [FactSource.addName_of_unknown _ required present known,
            addStep_of_not_knows required present known]
          rfl

theorem foldlM_addName_referenceCall (metadata : Metadata) (required : Bool) (graph : Graph)
    (names : List String) :
    names.foldlM (metadata.facts.addName (referenceCall metadata) required) graph =
      some (names.foldl (addStep metadata required) graph) := by
  induction names generalizing graph with
  | nil => rfl
  | cons head tail ih =>
      rw [List.foldlM_cons, addName_referenceCall, List.foldl_cons]
      exact ih _

/-- A call inside another one can only end with the references of its names added. -/
theorem confirms_referenceCall (metadata : Metadata) (depth : Nat) :
    FactSource.Confirms (referenceCall metadata) (metadata.facts.addWithin depth false) := by
  induction depth with
  | zero =>
      intro graph names more ended
      cases ended
  | succ depth ih =>
      intro graph names more ended
      have called := ih.foldlM ended
      rw [foldlM_addName_referenceCall, foldl_addStep_false] at called
      exact called

/-- The recursion can only end with the graph of the modules. -/
theorem eq_ofModules_of_addWithin {depth : Nat} {modules : List String}
    (ended : metadata.facts.addWithin depth true KeyedList.empty modules = some graph) :
    graph = ofModules metadata modules := by
  cases depth with
  | zero => cases ended
  | succ depth =>
      have called := (confirms_referenceCall metadata depth).foldlM ended
      rw [foldlM_addName_referenceCall] at called
      exact (Option.some.inj called).symm

/-- The graph of the modules is finished, and they are in it. -/
theorem building_ofModules (metadata : Metadata) (modules : List String) :
    FactSource.Building metadata.facts modules [] (ofModules metadata modules) ∧
      modules ⊆ (ofModules metadata modules).keys := by
  rcases FactSource.exists_addWithin metadata.facts modules (Nat.lt_succ_self _) with
    ⟨graph, ended, finished⟩
  rwa [eq_ofModules_of_addWithin ended] at finished

end Graph

/-! ## Main result -/

/-- Whatever circles the references make, building the graph of the modules comes to an end, and
its calls nest no deeper than the number of known modules allows.  The graph holds each module
that is reached once, with all that is stated about its neighbours, and nothing else. -/
theorem building_ends_with_reached (source : FactSource) (modules : List String) :
    ∃ graph : Graph,
      (∀ depth, source.known.length < depth →
        source.addWithin depth true KeyedList.empty modules = some graph) ∧
      graph.keys.Nodup ∧
      (∀ module stated, (module, stated) ∈ graph.entries ↔
        source.Reached modules module ∧ stated = source.node module) ∧
      ∀ metadata : Metadata, metadata.facts = source →
        graph = Graph.ofModules metadata modules := by
  rcases FactSource.exists_addWithin source modules (Nat.lt_succ_self _) with
    ⟨graph, ended, building, given⟩
  refine ⟨graph, fun depth enough => ?_, graph.distinct, fun module stated => ?_, ?_⟩
  · exact FactSource.confirms_addWithin source true enough _ _ _ ended
  · rw [building.mem_entries_iff, building.mem_keys_iff given]
  · rintro metadata rfl
    exact Graph.eq_ofModules_of_addWithin ended

/-- A table in which `a` comes before `x` and `x` before `a`.  They name `u` and `z`, which are not
known, and no one names `y`. -/
def web : Metadata where
  table := KeyedList.ofList [("a", ""), ("a.AutoConfigureBefore", "x, u"), ("x", ""),
    ("x.AutoConfigureBefore", "a"), ("x.AutoConfigureAfter", "z"), ("y", ""),
    ("y.AutoConfigureBefore", "a")]
  manifest := none

/-- The circle is gone through once.  `u` is passed over where it is named and enters as a module
that is given, and `z` and `y` stay outside. -/
theorem building_ends_with_reached_web :
    web.facts.known.length < 8 ∧
      web.facts.addWithin 8 true KeyedList.empty ["a", "u"] =
        some (Graph.ofModules web ["a", "u"]) ∧
      (Graph.ofModules web ["a", "u"]).keys = ["a", "x", "u"] ∧
      web.facts.Reached ["a", "u"] "x" ∧ ¬ web.facts.Reached ["a", "u"] "y" := by
  have few : web.facts.known.length < 8 := by decide
  have walked : (web.facts.addWithin 8 true KeyedList.empty ["a", "u"]).map KeyedList.keys =
      some ["a", "x", "u"] := by decide
  rcases building_ends_with_reached web.facts ["a", "u"] with ⟨graph, ends, _, exact, same⟩
  rw [ends 8 few, Option.map_some, Option.some.injEq] at walked
  have reached : ∀ module, module ∈ ["a", "x", "u"] ↔ web.facts.Reached ["a", "u"] module := by
    intro module
    rw [← walked, KeyedList.keys, List.mem_map]
    constructor
    · rintro ⟨⟨_, stated⟩, inside, rfl⟩
      exact ((exact _ stated).mp inside).1
    · intro reached
      exact ⟨_, (exact module _).mpr ⟨reached, rfl⟩, rfl⟩
  rw [← same web rfl]
  exact ⟨few, ends 8 few, walked, (reached "x").mp (by decide),
    fun outside => absurd ((reached "y").mpr outside) (by decide)⟩

example : web.facts.addWithin 2 true KeyedList.empty ["a", "u"] = none := by cbv

end Module
end LayeredConfig

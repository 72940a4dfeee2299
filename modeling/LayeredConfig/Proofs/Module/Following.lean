import LayeredConfig.Proofs.Module.Reaching

namespace LayeredConfig
namespace Module

/-!
# Which modules must follow which

The facts of two modules decide whether one must follow the other, and a module
takes part in the order of some modules when it is one of them or a known
module that known ones lead to.  Both notions are stated on the metadata alone.
The graph that is built for the walk holds exactly the modules that take part,
each with what is stated about it, and its edges are exactly this relation.
-/

/-- What the facts of two modules say: `later` comes after `first`, or `first` before `later`. -/
def Follows (metadata : Metadata) (later first : String) : Prop :=
  first ∈ (Graph.node metadata later).after ∨ later ∈ (Graph.node metadata first).before

/-- The modules that take part in the order of some modules.  References count only when both
the module that makes them and the one that they name are known. -/
inductive Involved (metadata : Metadata) (modules : List String) : String → Prop where
  | given {module : String} (member : module ∈ modules) : Involved metadata modules module
  | referred {module other : String} (involved : Involved metadata modules module)
      (known : metadata.knows module = true) (knownOther : metadata.knows other = true)
      (named : other ∈ (Graph.node metadata module).before ++ (Graph.node metadata module).after) :
      Involved metadata modules other

/-- `later` must follow `first`, and both take part in the order of the modules. -/
structure MustFollow (metadata : Metadata) (modules : List String) (later first : String) :
    Prop where
  later_involved : Involved metadata modules later
  first_involved : Involved metadata modules first
  stated : Follows metadata later first

/-- Who takes part does not hang on the order of the modules. -/
theorem Involved.congr {metadata : Metadata} {left right : List String}
    (same : ∀ module, module ∈ left ↔ module ∈ right) {module : String}
    (involved : Involved metadata left module) : Involved metadata right module := by
  induction involved with
  | given member => exact .given ((same _).mp member)
  | referred _ known knownOther named ih => exact .referred ih known knownOther named

/-- To take part is to be reached from the modules. -/
theorem involved_iff_reached {metadata : Metadata} {modules : List String} {module : String} :
    Involved metadata modules module ↔ metadata.facts.Reached modules module := by
  constructor
  · intro involved
    induction involved with
    | given member => exact .inl member
    | referred _ known knownOther named ih => exact ih.refer ⟨known, knownOther, named⟩
  · rintro (member | ⟨given, member, -, leads⟩)
    · exact .given member
    · induction leads with
      | refl => exact .given member
      | tail _ refers ih => exact .referred ih refers.known refers.knownOther refers.named

namespace Graph

/-! ## What a graph holds -/

theorem contains_iff_get? (graph : Graph) (module : String) :
    graph.contains module = true ↔ ∃ stated, graph.get? module = some stated := by
  constructor
  · intro inside
    have listed := (KeyedList.contains_iff_mem_keys graph module).mp inside
    rcases List.mem_map.mp listed with ⟨entry, member, rfl⟩
    exact ⟨entry.2, (KeyedList.get?_eq_some_iff graph entry.1 entry.2).mpr member⟩
  · rintro ⟨stated, found⟩
    have member := (KeyedList.get?_eq_some_iff graph module stated).mp found
    exact (KeyedList.contains_iff_mem_keys graph module).mpr (List.mem_map.mpr ⟨_, member, rfl⟩)

/-- The graph holds exactly the modules that take part. -/
theorem contains_ofModules_iff (metadata : Metadata) (modules : List String) (module : String) :
    (ofModules metadata modules).contains module = true ↔ Involved metadata modules module := by
  rcases building_ofModules metadata modules with ⟨building, given⟩
  rw [KeyedList.contains_iff_mem_keys, building.mem_keys_iff given, involved_iff_reached]

theorem get?_ofModules {metadata : Metadata} {modules : List String} {module : String}
    (involved : Involved metadata modules module) :
    (ofModules metadata modules).get? module = some (node metadata module) := by
  rcases building_ofModules metadata modules with ⟨building, given⟩
  rw [KeyedList.get?_eq_some_iff, building.mem_entries_iff, building.mem_keys_iff given,
    ← involved_iff_reached]
  exact ⟨involved, rfl⟩

/-! ## The edges of a graph -/

/-- `first` is among the modules of the graph that `later` must follow. -/
structure Linked (graph : Graph) (later first : String) : Prop where
  later_inside : graph.contains later = true
  first_inside : graph.contains first = true
  listed : first ∈ graph.mustFollow later

/-- The modules of the graph that state that `module` comes after them. -/
def namers (graph : Graph) (module : String) : List String :=
  (graph.entries.filter (fun entry => entry.2.before.contains module)).map Prod.fst

theorem mem_namers_iff (graph : Graph) (later first : String) :
    first ∈ graph.namers later ↔
      ∃ stated, graph.get? first = some stated ∧ later ∈ stated.before := by
  simp only [namers, KeyedList.get?_eq_some_iff, List.mem_map, List.mem_filter,
    List.contains_iff_mem, Prod.exists, exists_and_right, exists_eq_right]

theorem nodup_namers (graph : Graph) (module : String) : (graph.namers module).Nodup :=
  graph.distinct.sublist (List.filter_sublist.map Prod.fst)

theorem mustFollow_eq (graph : Graph) (module : String) :
    graph.mustFollow module =
      Names.addAll [] (((graph.get? module).map Node.after).getD [] ++ graph.namers module) :=
  rfl

theorem mem_mustFollow_iff (graph : Graph) (later first : String) :
    first ∈ graph.mustFollow later ↔
      (∃ stated, graph.get? later = some stated ∧ first ∈ stated.after) ∨
        ∃ stated, graph.get? first = some stated ∧ later ∈ stated.before := by
  have own : first ∈ ((graph.get? later).map Node.after).getD [] ↔
      ∃ stated, graph.get? later = some stated ∧ first ∈ stated.after := by
    cases graph.get? later <;> simp
  rw [mustFollow_eq, Names.mem_addAll, List.mem_append, own, mem_namers_iff]
  simp

theorem mem_namers_ofModules_iff (metadata : Metadata) (modules : List String)
    (later first : String) :
    first ∈ (ofModules metadata modules).namers later ↔
      Involved metadata modules first ∧ later ∈ (node metadata first).before := by
  rw [mem_namers_iff]
  constructor
  · rintro ⟨stated, found, named⟩
    have inside := (contains_iff_get? _ first).mpr ⟨stated, found⟩
    have involved := (contains_ofModules_iff metadata modules first).mp inside
    rw [get?_ofModules involved] at found
    exact ⟨involved, Option.some.inj found ▸ named⟩
  · rintro ⟨involved, named⟩
    exact ⟨_, get?_ofModules involved, named⟩

/-- The edges of the graph are the relation that the metadata states. -/
theorem linked_ofModules_iff (metadata : Metadata) (modules : List String)
    (later first : String) :
    Linked (ofModules metadata modules) later first ↔
      MustFollow metadata modules later first := by
  constructor
  · intro linked
    have laterIn := (contains_ofModules_iff metadata modules later).mp linked.later_inside
    have firstIn := (contains_ofModules_iff metadata modules first).mp linked.first_inside
    refine ⟨laterIn, firstIn, ?_⟩
    rcases (mem_mustFollow_iff _ later first).mp linked.listed with
      ⟨stated, found, named⟩ | ⟨stated, found, named⟩
    · rw [get?_ofModules laterIn] at found
      exact Or.inl (Option.some.inj found ▸ named)
    · rw [get?_ofModules firstIn] at found
      exact Or.inr (Option.some.inj found ▸ named)
  · rintro ⟨laterIn, firstIn, stated⟩
    refine ⟨(contains_ofModules_iff metadata modules later).mpr laterIn,
      (contains_ofModules_iff metadata modules first).mpr firstIn, ?_⟩
    apply (mem_mustFollow_iff _ later first).mpr
    rcases stated with named | named
    · exact Or.inl ⟨_, get?_ofModules laterIn, named⟩
    · exact Or.inr ⟨_, get?_ofModules firstIn, named⟩

end Graph
end Module
end LayeredConfig

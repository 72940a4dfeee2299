import LayeredConfig.Module.Metadata

namespace LayeredConfig
namespace Module

/-!
The order in which modules start.

Modules are ranked by name and then by priority, and a walk in depth first
places each one after the modules that it must follow.  Known modules that are
named before or after others take part in the walk and are left out of the
result.
-/

/-- The modules that come after one and those that come before it, as stated. -/
structure Node where
  before : List String
  after : List String

abbrev Graph := KeyedList String Node

namespace Graph

/-- What the metadata states about the neighbours of a module. -/
def node (metadata : Metadata) (module : String) : Node where
  before := (metadata.readSet module Fact.before).getD []
  after := (metadata.readSet module Fact.after).getD []

/-- The known modules that the graph does not hold. -/
def missing (metadata : Metadata) (graph : Graph) : List String :=
  Names.missing metadata.known graph.keys

theorem missing_insert_lt {metadata : Metadata} {graph : Graph} {module : String} (added : Node)
    (known : module ∈ metadata.known) (absent : graph.contains module = false) :
    (missing metadata (graph.insert module added)).length < (missing metadata graph).length := by
  have outside : module ∉ graph.keys := by
    rw [← KeyedList.contains_iff_mem_keys, absent]
    exact Bool.false_ne_true
  refine Names.length_missing_lt known outside ?_ fun other inside => ?_
  · exact (KeyedList.mem_keys_insert graph module module added).2 (.inl rfl)
  · exact (KeyedList.mem_keys_insert graph module other added).2 (.inr inside)

/-- Add the known modules among `pending` and all known modules that they refer to, in the
order in which they are met. -/
def addReferences (metadata : Metadata) (graph : Graph) : List String → Graph
  | [] => graph
  | module :: rest =>
      if present : graph.contains module = true then addReferences metadata graph rest
      else if known : metadata.knows module = true then
        have := missing_insert_lt (node metadata module)
          (Metadata.mem_known_of_knows known) (Bool.eq_false_iff.2 present)
        addReferences metadata (graph.insert module (node metadata module))
          ((node metadata module).before ++ (node metadata module).after ++ rest)
      else addReferences metadata graph rest
termination_by pending => ((missing metadata graph).length, pending.length)

/-- Add a module whether it is known or not, and what it refers to when it is. -/
def addModule (metadata : Metadata) (graph : Graph) (module : String) : Graph :=
  if graph.contains module then graph
  else
    let extended := graph.insert module (node metadata module)
    if metadata.knows module then
      addReferences metadata extended
        ((node metadata module).before ++ (node metadata module).after)
    else extended

/-- The graph of some modules and of the known modules that they lead to. -/
def ofModules (metadata : Metadata) (modules : List String) : Graph :=
  modules.foldl (addModule metadata) KeyedList.empty

/-- The modules that `module` must follow: those that it comes after, then those that come
before it. -/
def mustFollow (graph : Graph) (module : String) : List String :=
  Names.addAll [] (((graph.get? module).map Node.after).getD [] ++
    (graph.entries.filter (fun entry => entry.2.before.contains module)).map Prod.fst)

/-- The modules of the graph outside a path. -/
def outside (graph : Graph) (path : List String) : List String :=
  Names.missing graph.keys path

theorem outside_cons_lt {graph : Graph} {path : List String} {module : String}
    (member : graph.contains module = true) (fresh : module ∉ path) :
    (outside graph (module :: path)).length < (outside graph path).length :=
  Names.length_missing_lt ((KeyedList.contains_iff_mem_keys _ _).1 member) fresh (by simp)
    (List.subset_cons_self module path)

mutual

/-- Place a module after all that it must follow.  `path` leads from the module at which the
walk started to this one, each module following the next. -/
def place (graph : Graph) (path placed : List String) (module : String)
    (member : graph.contains module = true) (fresh : module ∉ path) :
    Except Error (List String) :=
  have := outside_cons_lt member fresh
  match placeAll graph (module :: path) placed module (graph.mustFollow module) with
  | .error error => .error error
  | .ok before => .ok (before ++ [module])
termination_by ((outside graph path).length, 0)

/-- Place the modules in `pending`, which `module` must follow. -/
def placeAll (graph : Graph) (path placed : List String) (module : String) :
    List String → Except Error (List String)
  | [] => .ok placed
  | first :: rest =>
      if crossed : first ∈ path then .error (.cycleDetected module first)
      else if member : graph.contains first = true then
        if first ∈ placed then placeAll graph path placed module rest
        else
          match place graph path placed first member crossed with
          | .error error => .error error
          | .ok more => placeAll graph path more module rest
      else placeAll graph path placed module rest
termination_by pending => ((outside graph path).length, pending.length)

end

/-- Place all modules, `placed` being those that have their place. -/
def arrange (graph : Graph) (placed : List String) : List String → Except Error (List String)
  | [] => .ok placed
  | module :: rest =>
      if module ∈ placed then arrange graph placed rest
      else if member : graph.contains module = true then
        match place graph [] placed module member List.not_mem_nil with
        | .error error => .error error
        | .ok more => arrange graph more rest
      else arrange graph placed rest

end Graph

/-- The priority of a module; a module that states none has priority 0. -/
def priority (metadata : Metadata) (module : String) : Except Error Int :=
  (metadata.readInteger module Fact.priority).map (fun stated => stated.getD 0)

/-- The modules by priority, those of one priority by name. -/
def rank (metadata : Metadata) (modules : List String) : Except Error (List String) :=
  ((modules.mergeSort (fun first second => first ≤ second)).mapM fun module =>
      (priority metadata module).map fun number => (number, module)).map fun ranked =>
    (ranked.mergeSort (fun first second => first.1 ≤ second.1)).map Prod.snd

/-- The modules, each once, in the order in which they start. -/
def order (metadata : Metadata) (modules : List String) : Except Error (List String) :=
  match rank metadata modules with
  | .error error => .error error
  | .ok ranked =>
      let graph := Graph.ofModules metadata ranked
      (graph.arrange [] (ranked ++ graph.keys)).map fun placed =>
        placed.filter (fun module => modules.contains module)

end Module
end LayeredConfig

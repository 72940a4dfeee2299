import LayeredConfig.Proofs.Module.Following
import Mathlib.Data.List.Nodup

namespace LayeredConfig
namespace Module
namespace Graph

open Relation

/-!
# What the walk through a graph places

The walk keeps a list of the modules that have their place and a path of those
that wait for others.  Placed modules stand after all that they must follow,
and no module of the path has its place yet.  Each module of the path must
follow, directly or through others, the one at hand, so that meeting a module
of the path again closes a real cycle.
-/

/-! ## Placed modules -/

/-- Each placed module stands once and after all that it must follow. -/
structure Settled (graph : Graph) (placed : List String) : Prop where
  distinct : placed.Nodup
  ordered : ∀ later ∈ placed, ∀ first, Linked graph later first →
    first ∈ placed ∧ placed.idxOf first < placed.idxOf later

theorem settled_nil (graph : Graph) : Settled graph [] where
  distinct := List.nodup_nil
  ordered := fun _ member => by cases member

/-- A module may be placed at the end when all that it must follow have their places. -/
theorem Settled.concat {graph : Graph} {placed : List String} {module : String}
    (settled : Settled graph placed) (absent : module ∉ placed)
    (ready : ∀ first, Linked graph module first → first ∈ placed) :
    Settled graph (placed ++ [module]) where
  distinct := by
    refine List.nodup_append.mpr ⟨settled.distinct, List.nodup_singleton module, ?_⟩
    intro first inside other single same
    exact absent ((same.trans (List.mem_singleton.mp single)) ▸ inside)
  ordered := by
    intro later member first linked
    rcases List.mem_append.mp member with inside | last
    · rcases settled.ordered later inside first linked with ⟨firstIn, before⟩
      refine ⟨List.mem_append_left _ firstIn, ?_⟩
      rw [List.idxOf_append_of_mem firstIn, List.idxOf_append_of_mem inside]
      exact before
    · have same := List.mem_singleton.mp last
      subst later
      have firstIn := ready first linked
      refine ⟨List.mem_append_left _ firstIn, ?_⟩
      rw [List.idxOf_append_of_mem firstIn, List.idxOf_append_of_notMem absent]
      have bound := List.idxOf_lt_length_of_mem firstIn
      omega

/-- Also through others a placed module follows only what stands before it. -/
theorem Settled.before_of_transGen {graph : Graph} {placed : List String} {later first : String}
    (settled : Settled graph placed) (member : later ∈ placed)
    (follows : TransGen (Linked graph) later first) :
    first ∈ placed ∧ placed.idxOf first < placed.idxOf later := by
  induction follows with
  | single linked => exact settled.ordered later member _ linked
  | tail _ linked ih =>
      rcases ih with ⟨inside, before⟩
      rcases settled.ordered _ inside _ linked with ⟨firstIn, sooner⟩
      exact ⟨firstIn, Nat.lt_trans sooner before⟩

/-- No placed module must follow a later one. -/
theorem Settled.pairwise {graph : Graph} {placed : List String}
    (settled : Settled graph placed) :
    placed.Pairwise fun sooner later => ¬ TransGen (Linked graph) sooner later := by
  rw [List.pairwise_iff_getElem]
  intro first second firstBound secondBound before follows
  have backwards :=
    (settled.before_of_transGen (List.getElem_mem firstBound) follows).2
  rw [settled.distinct.idxOf_getElem, settled.distinct.idxOf_getElem] at backwards
  omega

/-- No module follows itself when all modules have their places. -/
theorem Settled.acyclic {graph : Graph} {placed : List String} (settled : Settled graph placed)
    (complete : ∀ module, graph.contains module = true → module ∈ placed) (module : String) :
    ¬ TransGen (Linked graph) module module := by
  intro cycle
  have inside : graph.contains module = true := by
    rcases TransGen.head'_iff.mp cycle with ⟨_, linked, _⟩
    exact linked.later_inside
  exact Nat.lt_irrefl _ (settled.before_of_transGen (complete module inside) cycle).2

/-! ## A walk that succeeds -/

/-- What a walk along `path` adds to the placed modules. -/
structure Extends (graph : Graph) (path placed more : List String) : Prop where
  kept : placed <+: more
  settled : Settled graph more
  apart : ∀ module ∈ path, module ∉ more

theorem Extends.mem {graph : Graph} {path placed more : List String} {module : String}
    (step : Extends graph path placed more) (member : module ∈ placed) : module ∈ more :=
  step.kept.subset member

mutual

/-- Placing a module places all that it must follow first. -/
theorem extends_of_place {graph : Graph} {path placed more : List String} {module : String}
    {member : graph.contains module = true} {fresh : module ∉ path}
    (settled : Settled graph placed) (apart : ∀ other ∈ path, other ∉ placed)
    (absent : module ∉ placed)
    (placing : place graph path placed module member fresh = .ok more) :
    Extends graph path placed more ∧ module ∈ more := by
  have := outside_cons_lt member fresh
  rw [place] at placing
  cases walked : placeAll graph (module :: path) placed module (graph.mustFollow module) with
  | error error => simp [walked] at placing
  | ok before =>
      simp only [walked, Except.ok.injEq] at placing
      subst placing
      have apartAll : ∀ other ∈ module :: path, other ∉ placed :=
        List.forall_mem_cons.mpr ⟨absent, apart⟩
      rcases extends_of_placeAll settled apartAll walked with ⟨step, followed⟩
      have absentBefore := step.apart module List.mem_cons_self
      have ready : ∀ first, Linked graph module first → first ∈ before := by
        intro first linked
        exact followed first linked.listed linked.first_inside
      refine ⟨⟨step.kept.trans (List.prefix_append _ _),
        step.settled.concat absentBefore ready, ?_⟩, by simp⟩
      intro other onPath placedNow
      rcases List.mem_append.mp placedNow with sooner | last
      · exact step.apart other (List.mem_cons_of_mem _ onPath) sooner
      · exact fresh (List.mem_singleton.mp last ▸ onPath)
termination_by ((outside graph path).length, 0)

theorem extends_of_placeAll {graph : Graph} {path placed more : List String} {module : String}
    {pending : List String} (settled : Settled graph placed)
    (apart : ∀ other ∈ path, other ∉ placed)
    (placing : placeAll graph path placed module pending = .ok more) :
    Extends graph path placed more ∧
      ∀ first ∈ pending, graph.contains first = true → first ∈ more := by
  cases pending with
  | nil =>
      rw [placeAll, Except.ok.injEq] at placing
      subst placing
      exact ⟨⟨List.prefix_refl _, settled, apart⟩, fun _ member => by cases member⟩
  | cons first rest =>
      rw [placeAll] at placing
      by_cases crossed : first ∈ path
      · simp [crossed] at placing
      · rw [dif_neg crossed] at placing
        by_cases member : graph.contains first = true
        · rw [dif_pos member] at placing
          by_cases done : first ∈ placed
          · rw [if_pos done] at placing
            rcases extends_of_placeAll settled apart placing with ⟨step, followed⟩
            refine ⟨step, List.forall_mem_cons.mpr ⟨fun _ => step.mem done, followed⟩⟩
          · rw [if_neg done] at placing
            cases walked : place graph path placed first member crossed with
            | error error => simp [walked] at placing
            | ok between =>
                simp only [walked] at placing
                rcases extends_of_place settled apart done walked with ⟨step, firstIn⟩
                rcases extends_of_placeAll step.settled step.apart placing with ⟨rest, followed⟩
                exact ⟨⟨step.kept.trans rest.kept, rest.settled, rest.apart⟩,
                  List.forall_mem_cons.mpr ⟨fun _ => rest.mem firstIn, followed⟩⟩
        · rw [dif_neg member] at placing
          rcases extends_of_placeAll settled apart placing with ⟨step, followed⟩
          exact ⟨step, List.forall_mem_cons.mpr ⟨fun inside => absurd inside member, followed⟩⟩
termination_by ((outside graph path).length, pending.length)

end

/-- Placing all modules places each of them that is in the graph. -/
theorem settled_of_arrange {graph : Graph} {placed pending more : List String}
    (settled : Settled graph placed) (arranged : arrange graph placed pending = .ok more) :
    Settled graph more ∧ placed <+: more ∧
      ∀ module ∈ pending, graph.contains module = true → module ∈ more := by
  induction pending generalizing placed with
  | nil =>
      rw [arrange, Except.ok.injEq] at arranged
      subst arranged
      exact ⟨settled, List.prefix_refl _, fun _ member => by cases member⟩
  | cons head rest ih =>
      rw [arrange] at arranged
      by_cases done : head ∈ placed
      · rw [if_pos done] at arranged
        rcases ih settled arranged with ⟨final, kept, reached⟩
        exact ⟨final, kept, List.forall_mem_cons.mpr ⟨fun _ => kept.subset done, reached⟩⟩
      · rw [if_neg done] at arranged
        by_cases member : graph.contains head = true
        · rw [dif_pos member] at arranged
          cases walked : place graph [] placed head member List.not_mem_nil with
          | error error => simp [walked] at arranged
          | ok between =>
              simp only [walked] at arranged
              rcases extends_of_place settled (fun _ onPath => by cases onPath) done walked with
                ⟨step, headIn⟩
              rcases ih step.settled arranged with ⟨final, kept, reached⟩
              exact ⟨final, step.kept.trans kept,
                List.forall_mem_cons.mpr ⟨fun _ => kept.subset headIn, reached⟩⟩
        · rw [dif_neg member] at arranged
          rcases ih settled arranged with ⟨final, kept, reached⟩
          exact ⟨final, kept,
            List.forall_mem_cons.mpr ⟨fun inside => absurd inside member, reached⟩⟩

/-! ## A walk that fails -/

/-- The error names a module and one that it must follow and that leads back to it. -/
def ClosesCycle (graph : Graph) (error : Error) : Prop :=
  ∃ first second, error = .cycleDetected first second ∧ Linked graph first second ∧
    ReflTransGen (Linked graph) second first

theorem contains_of_reflTransGen {graph : Graph} {later first : String}
    (leads : ReflTransGen (Linked graph) later first) (inside : graph.contains first = true) :
    graph.contains later = true := by
  rcases ReflTransGen.cases_head leads with same | ⟨_, linked, _⟩
  · exact same ▸ inside
  · exact linked.later_inside

mutual

/-- A walk fails only where the path crosses itself. -/
theorem closesCycle_of_place {graph : Graph} {path placed : List String} {module : String}
    {member : graph.contains module = true} {fresh : module ∉ path} {error : Error}
    (leads : ∀ other ∈ path, TransGen (Linked graph) other module)
    (failed : place graph path placed module member fresh = .error error) :
    ClosesCycle graph error := by
  have := outside_cons_lt member fresh
  rw [place] at failed
  cases walked : placeAll graph (module :: path) placed module (graph.mustFollow module) with
  | ok before => simp [walked] at failed
  | error found =>
      simp only [walked, Except.error.injEq] at failed
      subst failed
      refine closesCycle_of_placeAll member ?_ (fun _ listed => listed) walked
      exact List.forall_mem_cons.mpr
        ⟨.refl, fun other onPath => (leads other onPath).to_reflTransGen⟩
termination_by ((outside graph path).length, 0)

theorem closesCycle_of_placeAll {graph : Graph} {path placed : List String} {module : String}
    {pending : List String} {error : Error} (member : graph.contains module = true)
    (leads : ∀ other ∈ path, ReflTransGen (Linked graph) other module)
    (listed : ∀ first ∈ pending, first ∈ graph.mustFollow module)
    (failed : placeAll graph path placed module pending = .error error) :
    ClosesCycle graph error := by
  cases pending with
  | nil => simp [placeAll] at failed
  | cons first rest =>
      have firstListed := listed first List.mem_cons_self
      have restListed : ∀ other ∈ rest, other ∈ graph.mustFollow module := by
        intro other later
        exact listed other (List.mem_cons_of_mem _ later)
      rw [placeAll] at failed
      by_cases crossed : first ∈ path
      · simp only [dif_pos crossed, Except.error.injEq] at failed
        have back := leads first crossed
        exact ⟨module, first, failed.symm,
          ⟨member, contains_of_reflTransGen back member, firstListed⟩, back⟩
      · rw [dif_neg crossed] at failed
        by_cases inside : graph.contains first = true
        · rw [dif_pos inside] at failed
          by_cases done : first ∈ placed
          · rw [if_pos done] at failed
            exact closesCycle_of_placeAll member leads restListed failed
          · rw [if_neg done] at failed
            cases walked : place graph path placed first inside crossed with
            | error found =>
                simp only [walked, Except.error.injEq] at failed
                subst failed
                have longer : ∀ other ∈ path, TransGen (Linked graph) other first := by
                  intro other onPath
                  exact TransGen.tail' (leads other onPath) ⟨member, inside, firstListed⟩
                exact closesCycle_of_place longer walked
            | ok between =>
                simp only [walked] at failed
                exact closesCycle_of_placeAll member leads restListed failed
        · rw [dif_neg inside] at failed
          exact closesCycle_of_placeAll member leads restListed failed
termination_by ((outside graph path).length, pending.length)

end

theorem closesCycle_of_arrange {graph : Graph} {placed pending : List String} {error : Error}
    (failed : arrange graph placed pending = .error error) : ClosesCycle graph error := by
  induction pending generalizing placed with
  | nil => simp [arrange] at failed
  | cons head rest ih =>
      rw [arrange] at failed
      by_cases done : head ∈ placed
      · rw [if_pos done] at failed
        exact ih failed
      · rw [if_neg done] at failed
        by_cases member : graph.contains head = true
        · rw [dif_pos member] at failed
          cases walked : place graph [] placed head member List.not_mem_nil with
          | error found =>
              simp only [walked, Except.error.injEq] at failed
              subst failed
              exact closesCycle_of_place (fun _ onPath => by cases onPath) walked
          | ok between =>
              simp only [walked] at failed
              exact ih failed
        · rw [dif_neg member] at failed
          exact ih failed

/-- A failed walk has found a module that must follow itself. -/
theorem ClosesCycle.cyclic {graph : Graph} {error : Error} (closes : ClosesCycle graph error) :
    ∃ module, TransGen (Linked graph) module module := by
  rcases closes with ⟨first, second, _, linked, back⟩
  exact ⟨first, TransGen.head' linked back⟩

end Graph
end Module
end LayeredConfig

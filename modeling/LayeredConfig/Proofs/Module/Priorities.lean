import LayeredConfig.Proofs.Module.Ranking

namespace LayeredConfig
namespace Module

open Relation

/-!
# Only a constraint overrides the ranking

The walk takes the ranked modules as its roots, one by one, and the modules that
are merely referred to after all of them.  What it places on behalf of a root is
the root and what the root must follow.  So when a module stands before one that
outranks it, the root that brought it along was ranked no later than the other
and must follow it.
-/

namespace Graph

/-! ## What a root brings along -/

mutual

/-- Along with a module the walk places only what the module must follow. -/
theorem follows_of_place {graph : Graph} {path placed more : List String} {module other : String}
    {member : graph.contains module = true} {fresh : module ∉ path}
    (placing : place graph path placed module member fresh = .ok more)
    (inside : other ∈ more) (absent : other ∉ placed) :
    ReflTransGen (Linked graph) module other := by
  have := outside_cons_lt member fresh
  rw [place] at placing
  cases walked : placeAll graph (module :: path) placed module (graph.mustFollow module) with
  | error error => simp [walked] at placing
  | ok before =>
      simp only [walked, Except.ok.injEq] at placing
      subst placing
      rcases List.mem_append.mp inside with sooner | last
      · have follows := follows_of_placeAll member (fun _ listed => listed) walked sooner absent
        exact follows.to_reflTransGen
      · rw [List.mem_singleton.mp last]
termination_by ((outside graph path).length, 0)

theorem follows_of_placeAll {graph : Graph} {path placed more : List String}
    {module other : String} {pending : List String} (member : graph.contains module = true)
    (listed : ∀ first ∈ pending, first ∈ graph.mustFollow module)
    (placing : placeAll graph path placed module pending = .ok more)
    (inside : other ∈ more) (absent : other ∉ placed) :
    TransGen (Linked graph) module other := by
  cases pending with
  | nil =>
      rw [placeAll, Except.ok.injEq] at placing
      exact absurd (placing ▸ inside) absent
  | cons first rest =>
      have firstListed := listed first List.mem_cons_self
      have restListed : ∀ other ∈ rest, other ∈ graph.mustFollow module := by
        intro other later
        exact listed other (List.mem_cons_of_mem _ later)
      rw [placeAll] at placing
      by_cases crossed : first ∈ path
      · simp [crossed] at placing
      · rw [dif_neg crossed] at placing
        by_cases held : graph.contains first = true
        · rw [dif_pos held] at placing
          by_cases done : first ∈ placed
          · rw [if_pos done] at placing
            exact follows_of_placeAll member restListed placing inside absent
          · rw [if_neg done] at placing
            cases walked : place graph path placed first held crossed with
            | error error => simp [walked] at placing
            | ok between =>
                simp only [walked] at placing
                by_cases soon : other ∈ between
                · exact TransGen.head' ⟨member, held, firstListed⟩
                    (follows_of_place walked soon absent)
                · exact follows_of_placeAll member restListed placing inside soon
        · rw [dif_neg held] at placing
          exact follows_of_placeAll member restListed placing inside absent
termination_by ((outside graph path).length, pending.length)

end

/-- A module gets its place on behalf of a root that leads to it.  At that moment the module is
without a place, while `placed` and what stands before the root in the list are not. -/
structure BroughtBy (graph : Graph) (placed before more : List String) (root module : String) :
    Prop where
  leads : ReflTransGen (Linked graph) root module
  moment : ∃ moment, placed ⊆ moment ∧ moment <+: more ∧ module ∉ moment ∧
    ∀ other ∈ before, graph.contains other = true → other ∈ moment

/-- Another module may stand first when it has its place before the rest is looked at. -/
theorem BroughtBy.cons {graph : Graph} {placed between before more : List String}
    {root module head : String} (brought : BroughtBy graph between before more root module)
    (kept : placed ⊆ between) (had : graph.contains head = true → head ∈ between) :
    BroughtBy graph placed (head :: before) more root module where
  leads := brought.leads
  moment := by
    rcases brought.moment with ⟨moment, grown, early, unplaced, earlier⟩
    exact ⟨moment, List.Subset.trans kept grown, early, unplaced,
      List.forall_mem_cons.mpr ⟨fun held => grown (had held), earlier⟩⟩

theorem exists_root_of_arrange {graph : Graph} {placed pending more : List String}
    (settled : Settled graph placed) (arranged : arrange graph placed pending = .ok more)
    {module : String} (inside : module ∈ more) (absent : module ∉ placed) :
    ∃ before root after, pending = before ++ root :: after ∧
      BroughtBy graph placed before more root module := by
  induction pending generalizing placed with
  | nil =>
      rw [arrange, Except.ok.injEq] at arranged
      exact absurd (arranged ▸ inside) absent
  | cons head rest ih =>
      rw [arrange] at arranged
      by_cases done : head ∈ placed
      · rw [if_pos done] at arranged
        rcases ih settled arranged absent with ⟨before, root, after, rfl, brought⟩
        exact ⟨head :: before, root, after, rfl,
          brought.cons (List.Subset.refl placed) fun _ => done⟩
      · rw [if_neg done] at arranged
        by_cases member : graph.contains head = true
        · rw [dif_pos member] at arranged
          cases walked : place graph [] placed head member List.not_mem_nil with
          | error error => simp [walked] at arranged
          | ok between =>
              simp only [walked] at arranged
              rcases extends_of_place settled (fun _ onPath => by cases onPath) done walked with
                ⟨step, headIn⟩
              by_cases soon : module ∈ between
              · -- The module is placed on behalf of the head itself.
                have grown := step.kept.trans (settled_of_arrange step.settled arranged).2.1
                exact ⟨[], head, rest, rfl, follows_of_place walked soon absent, placed,
                  List.Subset.refl placed, grown, absent, fun _ listed => by cases listed⟩
              · rcases ih step.settled arranged soon with ⟨before, root, after, rfl, brought⟩
                exact ⟨head :: before, root, after, rfl,
                  brought.cons step.kept.subset fun _ => headIn⟩
        · rw [dif_neg member] at arranged
          rcases ih settled arranged absent with ⟨before, root, after, rfl, brought⟩
          exact ⟨head :: before, root, after, rfl,
            brought.cons (List.Subset.refl placed) fun held => absurd held member⟩

/-- When one module is placed before another that is itself a root, the root that brought the
first one along stands no later in the list than the other. -/
theorem exists_root_of_sooner {graph : Graph} {pending placed : List String}
    (arranged : arrange graph [] pending = .ok placed) {sooner later : String}
    (ordered : [sooner, later].Sublist placed) (held : graph.contains later = true) :
    ∃ before root after, pending = before ++ root :: after ∧ later ∉ before ∧
      ReflTransGen (Linked graph) root sooner := by
  have distinct := (settled_of_arrange (settled_nil graph) arranged).1.distinct
  have inside : sooner ∈ placed := ordered.subset List.mem_cons_self
  rcases exists_root_of_arrange (settled_nil graph) arranged inside List.not_mem_nil with
    ⟨before, root, after, split, leads, moment, _, ⟨rest, rfl⟩, unplaced, earlier⟩
  refine ⟨before, root, after, split, ?_, leads⟩
  intro listed
  -- Then `later` had its place at that moment and `sooner` did not.
  have laterIn := earlier later listed held
  have outside := (List.mem_append.mp inside).resolve_left unplaced
  have backwards : [later, sooner].Sublist (moment ++ rest) :=
    (List.singleton_sublist.mpr laterIn).append (List.singleton_sublist.mpr outside)
  exact Names.not_sublist_of_nodup distinct ordered backwards

end Graph

/-! ## The ranking and the order -/

/-- Among modules that state no references none must follow another. -/
theorem not_mustFollow_of_unreferred {metadata : Metadata} {modules : List String}
    (unreferred : ∀ module ∈ modules, (Graph.node metadata module).before = [] ∧
      (Graph.node metadata module).after = []) (later first : String) :
    ¬ MustFollow metadata modules later first := by
  have given : ∀ module, Involved metadata modules module → module ∈ modules := by
    intro module involved
    induction involved with
    | given member => exact member
    | referred _ _ _ named ih =>
        rcases unreferred _ ih with ⟨noBefore, noAfter⟩
        rw [noBefore, noAfter] at named
        cases named
  rintro ⟨laterIn, firstIn, stated⟩
  rcases stated with named | named
  · rw [(unreferred later (given later laterIn)).2] at named
    cases named
  · rw [(unreferred first (given first firstIn)).1] at named
    cases named

/-- Where a module stands before one that outranks it, some module to be ordered that ranks no
later than the second must follow the first. -/
theorem exists_follower_of_sooner {metadata : Metadata} {modules ordered : List String}
    (given : order metadata modules = .ok ordered) {sooner later : String}
    (stands : [sooner, later].Sublist ordered) (outranks : Outranks metadata later sooner) :
    ∃ cause ∈ modules, (cause = later ∨ Outranks metadata cause later) ∧
      TransGen (MustFollow metadata modules) cause sooner := by
  have member := (mem_iff_of_order given later).mp (stands.subset (by simp))
  rcases exists_of_order given with ⟨ranked, placed, ranking, arranged, rfl⟩
  have listed := (perm_of_rank ranking).mem_iff.mpr member
  have held := (Graph.contains_ofModules_iff metadata ranked later).mpr (.given listed)
  rcases Graph.exists_root_of_sooner arranged (stands.trans List.filter_sublist) held with
    ⟨before, root, after, split, unlisted, leads⟩
  rw [linked_ofRanked_eq ranking] at leads
  -- The list begins with the ranked modules, and `later` is one of them.
  rcases List.append_eq_append_iff.mp split with ⟨between, rfl, _⟩ | ⟨between, rfl, tail⟩
  · exact absurd (List.mem_append_left _ listed) unlisted
  · have follows := (List.mem_append.mp listed).resolve_left unlisted
    cases between with
    | nil => cases follows
    | cons head others =>
        rw [List.cons_append, List.cons.injEq] at tail
        rcases tail with ⟨rfl, _⟩
        have rootIn := (perm_of_rank ranking).mem_iff.mp
          (List.mem_append_right before List.mem_cons_self)
        have ranks : root = later ∨ Outranks metadata root later := by
          rcases List.mem_cons.mp follows with same | behind
          · exact .inl same.symm
          · have pairs := (List.pairwise_append.mp (pairwise_of_rank ranking)).2.1
            exact (List.pairwise_cons.mp pairs).1 later behind
        refine ⟨root, rootIn, ranks, ?_⟩
        rcases reflTransGen_iff_eq_or_transGen.mp leads with rfl | further
        · rcases ranks with rfl | reversed
          · exact absurd rfl outranks.ne
          · exact absurd reversed outranks.asymm
        · exact further

/-! ## Main result -/

/-- In an order that is given every priority is readable, and a module stands before one of lower
priority, or of the same priority and a smaller name, only where a module to be ordered that is
that one or ranks before it must follow the first, directly or through others.  Modules that
state no references are ordered by priority and then by name. -/
theorem ranking_overridden_only_by_constraint {metadata : Metadata} {modules ordered : List String}
    (given : order metadata modules = .ok ordered) :
    (∀ module ∈ modules, ∃ number, priority metadata module = .ok number) ∧
      (∀ sooner later, [sooner, later].Sublist ordered → Outranks metadata later sooner →
        ∃ cause ∈ modules, (cause = later ∨ Outranks metadata cause later) ∧
          TransGen (MustFollow metadata modules) cause sooner) ∧
      ((∀ module ∈ modules, (Graph.node metadata module).before = [] ∧
          (Graph.node metadata module).after = []) →
        ordered.Pairwise (Outranks metadata)) := by
  have readable : ∀ module ∈ modules, ∃ number, priority metadata module = .ok number := by
    rcases exists_of_order given with ⟨ranked, _, ranking, _, _⟩
    intro module member
    exact priority_of_rank ranking member
  refine ⟨readable, fun sooner later => exists_follower_of_sooner given, ?_⟩
  intro unreferred
  rw [List.pairwise_iff_forall_sublist]
  intro sooner later stands
  have different : sooner ≠ later := by
    have pair := (nodup_of_order given).sublist stands
    simpa using pair
  have member : ∀ module ∈ [sooner, later], module ∈ modules := by
    intro module inside
    exact (mem_iff_of_order given module).mp (stands.subset inside)
  rcases readable sooner (member sooner (by simp)) with ⟨left, soonerRead⟩
  rcases readable later (member later (by simp)) with ⟨right, laterRead⟩
  rcases outranks_total soonerRead laterRead different with wanted | reversed
  · exact wanted
  · rcases exists_follower_of_sooner given stands reversed with ⟨cause, _, _, follows⟩
    rcases TransGen.head'_iff.mp follows with ⟨_, linked, _⟩
    exact absurd linked (not_mustFollow_of_unreferred unreferred _ _)

/-- A table in which `a` has the better priority and comes after `b`. -/
def urgent : Metadata where
  table := KeyedList.ofList [("a", ""), ("a.AutoConfigureOrder", "-100"),
    ("a.AutoConfigureAfter", "b"), ("b", "")]
  manifest := none

theorem order_urgent : order urgent ["a", "b"] = .ok ["b", "a"] := by
  have named : ["a", "b"].mergeSort (fun first second => first ≤ second) = ["a", "b"] := by cbv
  have walked : numbered urgent ["a", "b"] = .ok [(-100, "a"), (0, "b")] := by
    rw [numbered, named]
    rfl
  have ranking : rank urgent ["a", "b"] = .ok ["a", "b"] := by
    rw [rank_eq, walked]
    cbv
  rw [order, ranking]
  cbv

/-- That `b` stands before `a` is due to `a` itself; without references the names decide. -/
theorem ranking_overridden_only_by_constraint_urgent :
    order urgent ["a", "b"] = .ok ["b", "a"] ∧ ["b", "a"].Sublist ["b", "a"] ∧
      Outranks urgent "a" "b" ∧
      (∃ cause ∈ ["a", "b"], (cause = "a" ∨ Outranks urgent cause "a") ∧
        TransGen (MustFollow urgent ["a", "b"]) cause "b") ∧
      order Metadata.empty ["b", "a"] = .ok ["a", "b"] ∧
      (∀ module ∈ ["b", "a"], (Graph.node Metadata.empty module).before = [] ∧
        (Graph.node Metadata.empty module).after = []) ∧
      ["a", "b"].Pairwise (Outranks Metadata.empty) := by
  have outranks : Outranks urgent "a" "b" := ⟨-100, 0, rfl, rfl, .inl (by decide)⟩
  have plain : order Metadata.empty ["b", "a"] = .ok ["a", "b"] := by cbv
  have unreferred : ∀ module ∈ ["b", "a"], (Graph.node Metadata.empty module).before = [] ∧
      (Graph.node Metadata.empty module).after = [] := fun _ _ => ⟨rfl, rfl⟩
  rcases ranking_overridden_only_by_constraint order_urgent with ⟨_, overridden, _⟩
  rcases ranking_overridden_only_by_constraint plain with ⟨_, _, sorted⟩
  exact ⟨order_urgent, List.Sublist.refl _, outranks,
    overridden "b" "a" (List.Sublist.refl _) outranks, plain, unreferred, sorted unreferred⟩

end Module
end LayeredConfig

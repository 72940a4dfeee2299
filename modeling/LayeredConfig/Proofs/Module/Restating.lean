import LayeredConfig.Proofs.KeyedList
import LayeredConfig.Proofs.Module.Ranking
import LayeredConfig.Proofs.Names
import Mathlib.Data.List.Nodup

namespace LayeredConfig
namespace Module

open Relation

/-!
# One constraint in two spellings

That one module comes before another may be stated at either of the two.  Both
spellings let the same modules take part and impose the same constraints, so
that the one is refused exactly when the other is.  The walk meets what a module
must follow as it is spelled, though: first what the module itself lists, then
the modules that name it, as the graph holds them.  The two orders are the same
where the spelling leaves what is met as it was, and may differ elsewhere.
-/

/-! ## Unknown modules -/

/-- Nothing is read about a module that is not known. -/
theorem read_of_not_knows {metadata : Metadata} {module : String}
    (unknown : metadata.knows module = false) (fact : String) :
    metadata.read module fact = none := by
  rw [Metadata.knows, Bool.or_eq_false_iff] at unknown
  rw [Metadata.read, unknown.1, if_neg Bool.false_ne_true]
  cases fallback : metadata.manifest with
  | none => rfl
  | some manifest =>
      rw [fallback, Option.any_some] at unknown
      have absent : manifest.get? module = none := by
        rw [KeyedList.get?_eq_none_iff, ← KeyedList.contains_iff_mem_keys, unknown.2]
        exact Bool.false_ne_true
      rw [Option.bind_some, absent, Option.bind_none]

theorem node_of_not_knows {metadata : Metadata} {module : String}
    (unknown : metadata.knows module = false) : Graph.node metadata module = ⟨[], []⟩ := by
  simp only [Graph.node, Metadata.readSet, read_of_not_knows unknown, Option.map_none,
    Option.getD_none]

theorem knows_of_named {metadata : Metadata} {module other : String}
    (named : other ∈ (Graph.node metadata module).before ++ (Graph.node metadata module).after) :
    metadata.knows module = true := by
  cases known : metadata.knows module with
  | true => rfl
  | false =>
      rw [node_of_not_knows known] at named
      cases named

/-! ## The same constraint at the other module -/

/-- The second metadata state that `first` comes before `later` at `later` and no more at `first`,
and otherwise what the first ones state.  Stating it may make `later` a known module. -/
structure Restated (metadata restated : Metadata) (first later : String) : Prop where
  stated : later ∈ (Graph.node metadata first).before
  before : ∀ module, (Graph.node restated module).before =
    if module = first then (Graph.node metadata first).before.filter fun other => other ≠ later
    else (Graph.node metadata module).before
  after : ∀ module, (Graph.node restated module).after =
    if module = later then Names.add (Graph.node metadata later).after first
    else (Graph.node metadata module).after
  priority : ∀ module,
    restated.readInteger module Fact.priority = metadata.readInteger module Fact.priority
  known : ∀ module other,
    other ∈ (Graph.node metadata module).before ++ (Graph.node metadata module).after →
    other ≠ later → restated.knows other = metadata.knows other

/-- Whether a constraint is restated can be seen at the known modules. -/
theorem restated_of_known {metadata restated : Metadata} {first later : String}
    (stated : later ∈ (Graph.node metadata first).before) (knows : restated.knows later = true)
    (before : ∀ module ∈ metadata.known ++ restated.known, (Graph.node restated module).before =
      if module = first then (Graph.node metadata first).before.filter fun other => other ≠ later
      else (Graph.node metadata module).before)
    (after : ∀ module ∈ metadata.known ++ restated.known, (Graph.node restated module).after =
      if module = later then Names.add (Graph.node metadata later).after first
      else (Graph.node metadata module).after)
    (priority : ∀ module ∈ metadata.known ++ restated.known,
      restated.read module Fact.priority = metadata.read module Fact.priority)
    (known : ∀ module ∈ metadata.known,
      ∀ other ∈ (Graph.node metadata module).before ++ (Graph.node metadata module).after,
        other ≠ later → restated.knows other = metadata.knows other) :
    Restated metadata restated first later := by
  have firstKnown := Metadata.mem_known_of_knows
    (knows_of_named (List.mem_append_left (Graph.node metadata first).after stated))
  have laterKnown := Metadata.mem_known_of_knows knows
  have unknown : ∀ module, module ∉ metadata.known ++ restated.known →
      metadata.knows module = false ∧ restated.knows module = false := by
    intro module absent
    rw [List.mem_append, not_or] at absent
    exact ⟨Bool.eq_false_iff.mpr (mt Metadata.mem_known_of_knows absent.1),
      Bool.eq_false_iff.mpr (mt Metadata.mem_known_of_knows absent.2)⟩
  refine ⟨stated, ?_, ?_, ?_, ?_⟩
  · intro module
    by_cases listed : module ∈ metadata.known ++ restated.known
    · exact before module listed
    · have different : module ≠ first := by
        rintro rfl
        exact listed (List.mem_append_left _ firstKnown)
      rcases unknown module listed with ⟨here, there⟩
      rw [if_neg different, node_of_not_knows here, node_of_not_knows there]
  · intro module
    by_cases listed : module ∈ metadata.known ++ restated.known
    · exact after module listed
    · have different : module ≠ later := by
        rintro rfl
        exact listed (List.mem_append_right _ laterKnown)
      rcases unknown module listed with ⟨here, there⟩
      rw [if_neg different, node_of_not_knows here, node_of_not_knows there]
  · intro module
    have read : restated.read module Fact.priority = metadata.read module Fact.priority := by
      by_cases listed : module ∈ metadata.known ++ restated.known
      · exact priority module listed
      · rcases unknown module listed with ⟨here, there⟩
        rw [read_of_not_knows here, read_of_not_knows there]
    rw [Metadata.readInteger, Metadata.readInteger, read]
  · intro module other named
    exact known module (Metadata.mem_known_of_knows (knows_of_named named)) other named

namespace Restated

variable {metadata restated : Metadata} {modules : List String} {first later : String}

theorem mem_before (moved : Restated metadata restated first later) (module other : String) :
    other ∈ (Graph.node restated module).before ↔
      other ∈ (Graph.node metadata module).before ∧ ¬ (module = first ∧ other = later) := by
  rw [moved.before]
  split
  · next same => simp [same]
  · next different => simp [different]

theorem mem_after (moved : Restated metadata restated first later) (module other : String) :
    other ∈ (Graph.node restated module).after ↔
      other ∈ (Graph.node metadata module).after ∨ module = later ∧ other = first := by
  rw [moved.after]
  split
  · next same => simp [same, Names.mem_add]
  · next different => simp [different]

theorem follows_iff (moved : Restated metadata restated first later) (follower followed : String) :
    Follows restated follower followed ↔ Follows metadata follower followed := by
  rw [Follows, Follows, moved.mem_after, moved.mem_before]
  by_cases here : followed = first ∧ follower = later
  · rcases here with ⟨rfl, rfl⟩
    simp [moved.stated]
  · have apart : ¬ (follower = later ∧ followed = first) := fun both => here both.symm
    simp only [here, apart, or_false, not_false_eq_true, and_true]

/-- A known module leads to the same ones, but perhaps for `later`. -/
theorem named (moved : Restated metadata restated first later) {module other : String}
    (named : other ∈ (Graph.node metadata module).before ++ (Graph.node metadata module).after)
    (different : other ≠ later) :
    other ∈ (Graph.node restated module).before ++ (Graph.node restated module).after := by
  rw [List.mem_append] at named ⊢
  rw [moved.mem_before, moved.mem_after]
  exact named.imp (fun before => ⟨before, fun here => different here.2⟩) .inl

theorem named_back (moved : Restated metadata restated first later) {module other : String}
    (named : other ∈ (Graph.node restated module).before ++ (Graph.node restated module).after)
    (different : other ≠ first) :
    other ∈ (Graph.node metadata module).before ++ (Graph.node metadata module).after := by
  rw [List.mem_append, moved.mem_before, moved.mem_after] at named
  rw [List.mem_append]
  exact named.imp And.left fun after => after.resolve_right fun here => different here.2

/-- The same modules take part, as the two that the constraint joins are given. -/
theorem involved_iff (moved : Restated metadata restated first later) (firstIn : first ∈ modules)
    (laterIn : later ∈ modules) (module : String) :
    Involved restated modules module ↔ Involved metadata modules module := by
  constructor
  · intro involved
    induction involved with
    | given member => exact .given member
    | @referred module other _ _ knownOther named ih =>
        by_cases isFirst : other = first
        · exact .given (isFirst ▸ firstIn)
        by_cases isLater : other = later
        · exact .given (isLater ▸ laterIn)
        have before := moved.named_back named isFirst
        rw [moved.known module other before isLater] at knownOther
        exact .referred ih (knows_of_named before) knownOther before
  · intro involved
    induction involved with
    | given member => exact .given member
    | @referred module other _ _ knownOther named ih =>
        by_cases isLater : other = later
        · exact .given (isLater ▸ laterIn)
        have still := moved.named named isLater
        rw [← moved.known module other named isLater] at knownOther
        exact .referred ih (knows_of_named still) knownOther still

theorem mustFollow_eq (moved : Restated metadata restated first later) (firstIn : first ∈ modules)
    (laterIn : later ∈ modules) : MustFollow restated modules = MustFollow metadata modules := by
  funext follower followed
  apply propext
  constructor
  · rintro ⟨followerIn, followedIn, stated⟩
    exact ⟨(moved.involved_iff firstIn laterIn _).mp followerIn,
      (moved.involved_iff firstIn laterIn _).mp followedIn, (moved.follows_iff _ _).mp stated⟩
  · rintro ⟨followerIn, followedIn, stated⟩
    exact ⟨(moved.involved_iff firstIn laterIn _).mpr followerIn,
      (moved.involved_iff firstIn laterIn _).mpr followedIn, (moved.follows_iff _ _).mpr stated⟩

theorem rank_eq (moved : Restated metadata restated first later) (modules : List String) :
    rank restated modules = rank metadata modules := by
  have priorities : Module.priority restated = Module.priority metadata := by
    funext module
    rw [Module.priority, Module.priority, moved.priority]
  rw [rank, rank, priorities]

end Restated

/-! ## When an order is given -/

/-- An order is given exactly when the priorities are readable and nothing must follow itself. -/
theorem exists_order_iff {metadata : Metadata} {modules : List String} :
    (∃ ordered, order metadata modules = .ok ordered) ↔
      (∃ ranked, rank metadata modules = .ok ranked) ∧
        ¬ ∃ module, TransGen (MustFollow metadata modules) module module := by
  constructor
  · rintro ⟨ordered, given⟩
    rcases exists_of_order given with ⟨ranked, placed, ranking, arranged, _⟩
    rcases settled_of_walk arranged with ⟨settled, complete⟩
    refine ⟨⟨ranked, ranking⟩, ?_⟩
    rintro ⟨module, cycle⟩
    rw [← linked_ofRanked_eq ranking] at cycle
    exact settled.acyclic complete module cycle
  · rintro ⟨⟨ranked, ranking⟩, acyclic⟩
    cases arranged : (Graph.ofModules metadata ranked).arrange []
        (ranked ++ (Graph.ofModules metadata ranked).keys) with
    | ok placed =>
        exact ⟨placed.filter fun module => modules.contains module,
          by simp only [order, ranking, arranged, Except.map]⟩
    | error error =>
        have cyclic := (Graph.closesCycle_of_arrange arranged).cyclic
        rw [linked_ofRanked_eq ranking] at cyclic
        exact absurd cyclic acyclic

/-- Walking through the modules to be ordered is enough: what else the graph holds comes behind
them and is left out. -/
theorem exists_walk_of_order {metadata : Metadata} {modules ordered : List String}
    (given : order metadata modules = .ok ordered) :
    ∃ ranked placed, rank metadata modules = .ok ranked ∧
      (Graph.ofModules metadata ranked).arrange [] ranked = .ok placed ∧
      ordered = placed.filter fun module => modules.contains module := by
  rcases exists_of_order given with ⟨ranked, whole, ranking, arranged, rfl⟩
  have distinct := (settled_of_walk arranged).1.distinct
  rw [Graph.arrange_append] at arranged
  cases walked : (Graph.ofModules metadata ranked).arrange [] ranked with
  | error error =>
      rw [walked] at arranged
      cases arranged
  | ok placed =>
      rw [walked] at arranged
      rcases Graph.settled_of_arrange (Graph.settled_nil _) walked with ⟨settled, _, reached⟩
      rcases Graph.settled_of_arrange settled arranged with ⟨_, ⟨rest, rfl⟩, _⟩
      have others : (rest.filter fun module => modules.contains module) = [] := by
        rw [List.filter_eq_nil_iff]
        intro module behind member
        have listed := (perm_of_rank ranking).mem_iff.mpr (List.contains_iff_mem.mp member)
        have sooner := reached module listed
          ((Graph.contains_ofModules_iff metadata ranked module).mpr (.given listed))
        exact (List.nodup_append.mp distinct).2.2 module sooner module behind rfl
      refine ⟨ranked, placed, ranking, walked, ?_⟩
      rw [List.filter_append, others, List.append_nil]

/-! ## Walks that meet the same -/

namespace Graph

/-- The graphs hold the same modules, and what one must follow is listed alike in both. -/
structure ListedAlike (graph other : Graph) : Prop where
  held : ∀ module, other.contains module = graph.contains module
  listed : ∀ module, graph.contains module = true →
    other.mustFollow module = graph.mustFollow module

mutual

theorem place_congr {graph other : Graph} (alike : ListedAlike graph other)
    {path placed : List String} {module : String} (member : graph.contains module = true)
    (also : other.contains module = true) (fresh : module ∉ path) :
    other.place path placed module also fresh = graph.place path placed module member fresh := by
  have := outside_cons_lt member fresh
  rw [place, place, alike.listed module member, placeAll_congr alike]
termination_by ((outside graph path).length, 0)

theorem placeAll_congr {graph other : Graph} (alike : ListedAlike graph other)
    {path placed : List String} {module : String} {pending : List String} :
    other.placeAll path placed module pending = graph.placeAll path placed module pending := by
  cases pending with
  | nil => rw [placeAll, placeAll]
  | cons first rest =>
      rw [placeAll, placeAll]
      by_cases crossed : first ∈ path
      · rw [dif_pos crossed, dif_pos crossed]
      · rw [dif_neg crossed, dif_neg crossed]
        by_cases member : graph.contains first = true
        · have also := (alike.held first).trans member
          rw [dif_pos member, dif_pos also, place_congr alike member also crossed]
          split
          · exact placeAll_congr alike
          · split
            · rfl
            · exact placeAll_congr alike
        · rw [dif_neg member, dif_neg (by rwa [alike.held]), placeAll_congr alike]
termination_by ((outside graph path).length, pending.length)

end

theorem arrange_congr {graph other : Graph} (alike : ListedAlike graph other)
    (placed pending : List String) :
    other.arrange placed pending = graph.arrange placed pending := by
  induction pending generalizing placed with
  | nil => rfl
  | cons head rest ih =>
      rw [arrange, arrange]
      by_cases member : graph.contains head = true
      · have also := (alike.held head).trans member
        rw [dif_pos member, dif_pos also, place_congr alike member also List.not_mem_nil]
        split
        · exact ih placed
        · split
          · rfl
          · exact ih _
      · rw [dif_neg member, dif_neg (by rwa [alike.held]), ih]

end Graph

/-- Of walks that meet the same the orders are the same. -/
theorem order_unique_of_listedAlike {metadata restated : Metadata}
    {modules ordered other : List String} (ranks : rank restated modules = rank metadata modules)
    (alike : ∀ ranked, rank metadata modules = .ok ranked →
      Graph.ListedAlike (Graph.ofModules metadata ranked) (Graph.ofModules restated ranked))
    (given : order metadata modules = .ok ordered) (also : order restated modules = .ok other) :
    other = ordered := by
  rcases exists_walk_of_order given with ⟨ranked, placed, ranking, walked, rfl⟩
  rcases exists_walk_of_order also with ⟨_, again, ranking', walked', rfl⟩
  rw [ranks, ranking, Except.ok.injEq] at ranking'
  subst ranking'
  rw [Graph.arrange_congr (alike ranked ranking), walked, Except.ok.injEq] at walked'
  rw [walked']

/-! ## What the spelling leaves as it was -/

/-- Those that name a module stand in one order in both graphs, and `first` is listed by `later`
itself or is the first of those that name it. -/
structure MetAlike (graph restated : Graph) (first later : String) : Prop where
  kept : ∀ module, (restated.namers module).Sublist (graph.namers module)
  ahead : (∃ stated, graph.get? later = some stated ∧ first ∈ stated.after) ∨
    (graph.namers later).head? = some first

/-- A name that is met first behind some names may as well be the last of these. -/
theorem addAll_restated {after namers : List String} {first : String} (distinct : namers.Nodup)
    (ahead : first ∈ after ∨ namers.head? = some first) :
    Names.addAll [] (Names.add after first ++ namers.filter fun name => name ≠ first) =
      Names.addAll [] (after ++ namers) := by
  by_cases listed : first ∈ after
  · have present : first ∈ Names.addAll [] after := Names.mem_addAll.mpr (.inr listed)
    rw [Names.add, if_pos listed, Names.addAll_append, Names.addAll_append,
      Names.addAll_filter_ne present]
  · rcases List.head?_eq_some_iff.mp (ahead.resolve_left listed) with ⟨rest, rfl⟩
    have others : ((first :: rest).filter fun name => name ≠ first) = rest := by
      rw [List.filter_cons_of_neg (by simp), List.filter_eq_self]
      intro name member
      exact decide_eq_true fun same => (List.nodup_cons.mp distinct).1 (same ▸ member)
    rw [others, Names.add, if_neg listed, List.append_assoc, List.singleton_append]

namespace Restated

variable {metadata restated : Metadata} {modules : List String} {first later : String}

theorem mem_namers_iff (moved : Restated metadata restated first later)
    (firstIn : first ∈ modules) (laterIn : later ∈ modules) (module name : String) :
    name ∈ (Graph.ofModules restated modules).namers module ↔
      name ∈ (Graph.ofModules metadata modules).namers module ∧
        ¬ (name = first ∧ module = later) := by
  rw [Graph.mem_namers_ofModules_iff, Graph.mem_namers_ofModules_iff,
    moved.involved_iff firstIn laterIn, moved.mem_before, and_assoc]

theorem listedAlike (moved : Restated metadata restated first later)
    (firstIn : first ∈ modules) (laterIn : later ∈ modules)
    (met : MetAlike (Graph.ofModules metadata modules) (Graph.ofModules restated modules)
      first later) :
    Graph.ListedAlike (Graph.ofModules metadata modules) (Graph.ofModules restated modules) where
  held := by
    intro module
    rw [Bool.eq_iff_iff, Graph.contains_ofModules_iff, Graph.contains_ofModules_iff,
      moved.involved_iff firstIn laterIn]
  listed := by
    intro module inside
    have involved := (Graph.contains_ofModules_iff metadata modules module).mp inside
    have also := (moved.involved_iff firstIn laterIn module).mpr involved
    have distinct := Graph.nodup_namers (Graph.ofModules metadata modules) module
    have namers : (Graph.ofModules restated modules).namers module =
        ((Graph.ofModules metadata modules).namers module).filter
          fun name => ¬ (name = first ∧ module = later) := by
      refine Names.eq_filter_of_sublist (met.kept module) distinct fun name => ?_
      rw [decide_eq_true_eq]
      exact moved.mem_namers_iff firstIn laterIn module name
    rw [Graph.mustFollow_eq, Graph.mustFollow_eq, Graph.get?_ofModules involved,
      Graph.get?_ofModules also, namers]
    simp only [Option.map_some, Option.getD_some, moved.after]
    by_cases same : module = later
    · subst same
      have ahead := met.ahead
      rw [Graph.get?_ofModules involved] at ahead
      rw [if_pos rfl]
      simpa using addAll_restated distinct (by simpa using ahead)
    · simp [same]

end Restated

/-- No module is named as coming after it by two modules that take part. -/
def NamedOnce (metadata : Metadata) (modules : List String) : Prop :=
  ∀ module one other, Involved metadata modules one → Involved metadata modules other →
    module ∈ (Graph.node metadata one).before → module ∈ (Graph.node metadata other).before →
    one = other

theorem NamedOnce.congr {metadata : Metadata} {left right : List String}
    (same : ∀ module, module ∈ left ↔ module ∈ right) (once : NamedOnce metadata left) :
    NamedOnce metadata right := by
  intro module one other oneIn otherIn
  have back : ∀ module, module ∈ right ↔ module ∈ left := fun module => (same module).symm
  exact once module one other (oneIn.congr back) (otherIn.congr back)

theorem NamedOnce.eq_of_mem_namers {metadata : Metadata} {modules : List String}
    (once : NamedOnce metadata modules) {module one other : String}
    (oneIn : one ∈ (Graph.ofModules metadata modules).namers module)
    (otherIn : other ∈ (Graph.ofModules metadata modules).namers module) : one = other := by
  rw [Graph.mem_namers_ofModules_iff] at oneIn otherIn
  exact once module one other oneIn.1 otherIn.1 oneIn.2 otherIn.2

theorem Restated.metAlike {metadata restated : Metadata} {modules : List String}
    {first later : String} (moved : Restated metadata restated first later)
    (firstIn : first ∈ modules) (laterIn : later ∈ modules) (once : NamedOnce metadata modules) :
    MetAlike (Graph.ofModules metadata modules) (Graph.ofModules restated modules) first later where
  kept := by
    intro module
    have inside : ∀ name ∈ (Graph.ofModules restated modules).namers module,
        name ∈ (Graph.ofModules metadata modules).namers module :=
      fun name member => ((moved.mem_namers_iff firstIn laterIn module name).mp member).1
    refine Names.sublist_of_one (Graph.nodup_namers _ module) inside ?_
    intro name member other also
    exact once.eq_of_mem_namers (inside name member) (inside other also)
  ahead := by
    have member : first ∈ (Graph.ofModules metadata modules).namers later :=
      (Graph.mem_namers_ofModules_iff metadata modules later first).mpr
        ⟨.given firstIn, moved.stated⟩
    right
    cases namers : (Graph.ofModules metadata modules).namers later with
    | nil => simp [namers] at member
    | cons head tail =>
        have headIn : head ∈ (Graph.ofModules metadata modules).namers later :=
          namers ▸ List.mem_cons_self
        rw [List.head?_cons, once.eq_of_mem_namers headIn member]

/-! ## Main result -/

/-- No module stands before one that it must follow, directly or through others. -/
def KeepsTo (metadata : Metadata) (modules ordered : List String) : Prop :=
  ordered.Pairwise fun sooner later => ¬ TransGen (MustFollow metadata modules) sooner later

/-- Whether "`first` before `later`" is stated at `first` or at `later`, the modules are under the
same constraints, an order is given or none is, and given orders are of the same modules and each
keeps to the other's constraints.  The order itself is the same when no module is named by two
others, or more generally when the walk meets those that name a module alike. -/
theorem spellings_share_constraints {metadata restated : Metadata} {modules : List String}
    {first later : String} (moved : Restated metadata restated first later)
    (firstIn : first ∈ modules) (laterIn : later ∈ modules) :
    MustFollow restated modules = MustFollow metadata modules ∧
    ((∃ ordered, order restated modules = .ok ordered) ↔
      ∃ ordered, order metadata modules = .ok ordered) ∧
    (∀ ordered other, order metadata modules = .ok ordered →
      order restated modules = .ok other →
        other.Perm ordered ∧ KeepsTo restated modules ordered ∧ KeepsTo metadata modules other) ∧
    ((NamedOnce metadata modules ∨ ∀ ranked, rank metadata modules = .ok ranked →
        MetAlike (Graph.ofModules metadata ranked) (Graph.ofModules restated ranked) first later) →
      ∀ ordered, order restated modules = .ok ordered ↔ order metadata modules = .ok ordered) := by
  have edges := moved.mustFollow_eq firstIn laterIn
  have ranks := moved.rank_eq modules
  have accepted : (∃ ordered, order restated modules = .ok ordered) ↔
      ∃ ordered, order metadata modules = .ok ordered := by
    rw [exists_order_iff, exists_order_iff, ranks, edges]
  refine ⟨edges, accepted, ?_, ?_⟩
  · intro ordered other given also
    have keeps : KeepsTo metadata modules ordered := pairwise_of_order given
    have alsoKeeps : KeepsTo restated modules other := pairwise_of_order also
    rw [KeepsTo, edges] at alsoKeeps
    refine ⟨?_, by rwa [KeepsTo, edges], alsoKeeps⟩
    rw [List.perm_ext_iff_of_nodup (nodup_of_order also) (nodup_of_order given)]
    intro module
    rw [mem_iff_of_order also, mem_iff_of_order given]
  · intro spelled
    have alike : ∀ ranked, rank metadata modules = .ok ranked → Graph.ListedAlike
        (Graph.ofModules metadata ranked) (Graph.ofModules restated ranked) := by
      intro ranked ranking
      have same : ∀ module, module ∈ modules ↔ module ∈ ranked :=
        fun module => (perm_of_rank ranking).mem_iff.symm
      have firstRanked := (same first).mp firstIn
      have laterRanked := (same later).mp laterIn
      apply moved.listedAlike firstRanked laterRanked
      rcases spelled with once | met
      · exact moved.metAlike firstRanked laterRanked (once.congr same)
      · exact met ranked ranking
    intro ordered
    constructor
    · intro also
      rcases accepted.mp ⟨ordered, also⟩ with ⟨other, given⟩
      rw [order_unique_of_listedAlike ranks alike given also]
      exact given
    · intro given
      rcases accepted.mpr ⟨ordered, given⟩ with ⟨other, also⟩
      rw [← order_unique_of_listedAlike ranks alike given also]
      exact also

/-- A table in which `c` comes before `a`, as it says itself. -/
def alone : Metadata where
  table := KeyedList.ofList [("a", ""), ("b", ""), ("c", ""), ("c.AutoConfigureBefore", "a")]
  manifest := none

/-- The table in which `a` says so. -/
def aloneRestated : Metadata where
  table := KeyedList.ofList [("a", ""), ("a.AutoConfigureAfter", "c"), ("b", ""), ("c", "")]
  manifest := none

theorem namedOnce_alone (modules : List String) : NamedOnce alone modules := by
  intro module one other _ _ named also
  have each : ∀ namer ∈ alone.known, (Graph.node alone namer).before ≠ [] → namer = "c" := by
    decide
  have onlyC : ∀ {namer}, module ∈ (Graph.node alone namer).before → namer = "c" := by
    intro namer member
    have known := knows_of_named (List.mem_append_left (Graph.node alone namer).after member)
    exact each namer (Metadata.mem_known_of_knows known) (List.ne_nil_of_mem member)
  rw [onlyC named, onlyC also]

/-- No other module is named, so the order is the same. -/
theorem spellings_share_constraints_alone :
    Restated alone aloneRestated "c" "a" ∧ "c" ∈ ["a", "b", "c"] ∧ "a" ∈ ["a", "b", "c"] ∧
      NamedOnce alone ["a", "b", "c"] ∧ order alone ["a", "b", "c"] = .ok ["c", "a", "b"] ∧
      order aloneRestated ["a", "b", "c"] = .ok ["c", "a", "b"] := by
  have moved : Restated alone aloneRestated "c" "a" := by
    apply restated_of_known <;> decide
  have firstIn : "c" ∈ ["a", "b", "c"] := by decide
  have laterIn : "a" ∈ ["a", "b", "c"] := by decide
  have given : order alone ["a", "b", "c"] = .ok ["c", "a", "b"] := by cbv
  rcases spellings_share_constraints moved firstIn laterIn with ⟨_, _, _, same⟩
  exact ⟨moved, firstIn, laterIn, namedOnce_alone _, given,
    (same (.inl (namedOnce_alone _)) _).mpr given⟩

/-- A table in which `b` and `c` come before `a`, as they say themselves. -/
def both : Metadata where
  table := KeyedList.ofList [("a", ""), ("b", ""), ("b.AutoConfigureBefore", "a"), ("c", ""),
    ("c.AutoConfigureBefore", "a")]
  manifest := none

/-- The table in which it is `a` that says so of `c`. -/
def bothRestated : Metadata where
  table := KeyedList.ofList [("a", ""), ("a.AutoConfigureAfter", "c"), ("b", ""),
    ("b.AutoConfigureBefore", "a"), ("c", "")]
  manifest := none

/-- Nothing is stated of `b` and `c`, and what `a` lists itself comes first. -/
theorem order_tells_spelling :
    Restated both bothRestated "c" "a" ∧ "c" ∈ ["a", "b", "c"] ∧ "a" ∈ ["a", "b", "c"] ∧
      order both ["a", "b", "c"] = .ok ["b", "c", "a"] ∧
      order bothRestated ["a", "b", "c"] = .ok ["c", "b", "a"] ∧
      order both ["a", "b", "c"] ≠ order bothRestated ["a", "b", "c"] := by
  have moved : Restated both bothRestated "c" "a" := by
    apply restated_of_known <;> decide
  have given : order both ["a", "b", "c"] = .ok ["b", "c", "a"] := by cbv
  have also : order bothRestated ["a", "b", "c"] = .ok ["c", "b", "a"] := by cbv
  refine ⟨moved, by decide, by decide, given, also, ?_⟩
  rw [given, also]
  decide

end Module
end LayeredConfig

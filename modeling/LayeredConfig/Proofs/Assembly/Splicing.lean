import LayeredConfig.Proofs.Assembly.Outcome
import Mathlib.Data.List.TakeWhile

namespace LayeredConfig

open Property

/-!
# Where the merged sources stand

The merged sources stand together and in their order, and none of the others has
one of their names, if no two of them had before.  They stand just above the
default properties or, without those, in the last place.  The others keep their
order.  In the result the default properties come last.
-/

namespace Assembly

/-- The layers whose names are not among those of the given sources. -/
def outside (more layers : List Source) : List Source :=
  layers.filter fun layer => layer.name ∉ more.map Source.name

theorem outside_nil (layers : List Source) : outside [] layers = layers := by
  simp [outside]

theorem outside_append (more first second : List Source) :
    outside more (first ++ second) = outside more first ++ outside more second :=
  List.filter_append first second

theorem outside_cons (source : Source) (more layers : List Source) :
    outside (source :: more) layers =
      outside more (layers.filter fun layer => layer.name ≠ source.name) := by
  rw [outside, outside, List.filter_filter]
  congr 1
  funext layer
  rw [Bool.eq_iff_iff, Bool.and_eq_true, decide_eq_true_eq, decide_eq_true_eq, decide_eq_true_eq,
    List.map_cons, List.mem_cons, not_or, and_comm]

theorem outside_singleton {more : List Source} {source : Source}
    (other : source.name ∉ more.map Source.name) : outside more [source] = [source] :=
  List.filter_eq_self.mpr fun layer member => by
    rw [List.mem_singleton.mp member]
    exact decide_eq_true other

/-- No two layers have the name of one of the given sources. -/
def HeldOnce (sources : Sources) (more : List Source) : Prop :=
  ∀ name ∈ more.map Source.name, sources.names.count name ≤ 1

theorem heldOnce_of_nodup {sources : Sources} (distinct : sources.names.Nodup)
    (more : List Source) : HeldOnce sources more :=
  fun name _ => List.nodup_iff_count_le_one.mp distinct name

/-- The sources that are spliced after a layer follow it in their order. -/
theorem layers_splice_after {sources : Sources} {before after : List Source} {previous : Source}
    {more : List Source} (layered : sources.layers = before ++ previous :: after)
    (held : HeldOnce sources (previous :: more))
    (each : ((previous :: more).map Source.name).Nodup) :
    (splice sources (some previous.name) more).layers =
      outside more before ++ previous :: (more ++ outside more after) := by
  -- What was spliced last is the layer to go on from, and the ones before it grow by it.
  induction more generalizing sources before after previous with
  | nil => rw [splice, layered, outside_nil, outside_nil, List.nil_append]
  | cons source rest ih =>
      rw [List.map_cons, List.nodup_cons] at each
      have other : previous.name ≠ source.name := fun same =>
        each.1 (same ▸ List.mem_map_of_mem List.mem_cons_self)
      have erased := Sources.layers_erase (held source.name (by simp))
      rw [layered, List.filter_append, List.filter_cons_of_pos (by simpa using other)] at erased
      have absent : previous.name ∉
          (before.filter fun layer => layer.name ≠ source.name).map Source.name := by
        have single := held previous.name List.mem_cons_self
        rw [Sources.names, layered, List.map_append, List.map_cons, List.count_append,
          List.count_cons_self] at single
        have none : previous.name ∉ before.map Source.name := List.count_eq_zero.mp (by omega)
        exact fun repeated => none ((List.filter_sublist.map Source.name).subset repeated)
      have placed : (sources.addAfter previous.name source).layers =
          (before.filter fun layer => layer.name ≠ source.name) ++ [previous] ++
            source :: after.filter fun layer => layer.name ≠ source.name := by
        rw [Sources.addAfter, erased, Sources.insertAfter_append source rfl absent]
        simp only [List.append_assoc, List.cons_append, List.nil_append]
      have still : HeldOnce (sources.addAfter previous.name source) (source :: rest) := by
        intro name listed
        rw [Sources.names, placed]
        refine Sources.count_names_joined ?_ (held name (List.mem_cons_of_mem _ listed))
        rw [erased]
        simp only [List.append_assoc, List.cons_append, List.nil_append]
      have apart : previous.name ∉ rest.map Source.name := fun later =>
        each.1 (List.mem_cons_of_mem _ later)
      rw [splice, ih placed still each.2, outside_append, outside_singleton apart, outside_cons,
        outside_cons]
      simp only [List.append_assoc, List.cons_append, List.nil_append]

/-- Whether a layer is not the default properties. -/
def isPlain (layer : Source) : Bool :=
  layer.name ≠ Keys.defaultProperties

/-- The default properties are among the others, so that the cut stays where it is. -/
theorem outside_cut {more : List Source} (plain : Keys.defaultProperties ∉ more.map Source.name)
    (layers : List Source) :
    outside more (layers.takeWhile isPlain) = (outside more layers).takeWhile isPlain ∧
      outside more (layers.dropWhile isPlain) = (outside more layers).dropWhile isPlain := by
  induction layers with
  | nil => exact ⟨rfl, rfl⟩
  | cons head tail ih =>
      unfold outside at ih ⊢
      by_cases default : head.name = Keys.defaultProperties
      · have stays : head.name ∉ more.map Source.name := default ▸ plain
        have stops : ¬ isPlain head = true := by simpa [isPlain] using default
        rw [List.filter_cons_of_pos (by simpa using stays), List.takeWhile_cons_of_neg stops,
          List.takeWhile_cons_of_neg stops, List.dropWhile_cons_of_neg stops,
          List.dropWhile_cons_of_neg stops, List.filter_cons_of_pos (by simpa using stays)]
        exact ⟨rfl, rfl⟩
      · have goes : isPlain head = true := by simpa [isPlain] using default
        rw [List.takeWhile_cons_of_pos goes, List.dropWhile_cons_of_pos goes]
        by_cases among : head.name ∈ more.map Source.name
        · rw [List.filter_cons_of_neg (by simpa using among),
            List.filter_cons_of_neg (by simpa using among)]
          exact ih
        · rw [List.filter_cons_of_pos (by simpa using among),
            List.filter_cons_of_pos (by simpa using among), List.takeWhile_cons_of_pos goes,
            List.dropWhile_cons_of_pos goes, ih.1, ih.2]
          exact ⟨rfl, rfl⟩

/-- The first source goes just above the default properties, or last. -/
theorem layers_splice_first {sources : Sources} {source : Source} {more : List Source}
    (held : HeldOnce sources (source :: more)) :
    ∃ placed : Sources, splice sources none (source :: more) =
        splice placed (some source.name) more ∧
      placed.layers = (outside [source] sources.layers).takeWhile isPlain ++
        source :: (outside [source] sources.layers).dropWhile isPlain := by
  have erased : (sources.erase source.name).layers = outside [source] sources.layers := by
    rw [Sources.layers_erase (held _ List.mem_cons_self), outside_cons, outside_nil]
  refine ⟨_, rfl, ?_⟩
  simp only
  split
  · rw [Sources.addBefore, erased, Sources.insertBefore_eq]
    rfl
  · next missing =>
      have all : ∀ layer ∈ outside [source] sources.layers, isPlain layer = true := by
        intro layer member
        refine decide_eq_true fun default => missing ?_
        exact (Sources.contains_iff _ _).mpr ⟨layer, List.mem_of_mem_filter member, default⟩
      have nothing : (outside [source] sources.layers).dropWhile isPlain = [] :=
        List.dropWhile_eq_nil_iff.mpr all
      rw [Sources.addLast, erased, List.takeWhile_eq_self_iff.mpr all, nothing]

/-- Sources of distinct names are spliced in together and in their order. -/
theorem layers_splice {sources : Sources} {more : List Source} (held : HeldOnce sources more)
    (each : (more.map Source.name).Nodup)
    (plain : Keys.defaultProperties ∉ more.map Source.name) :
    (splice sources none more).layers =
      (outside more sources.layers).takeWhile isPlain ++ more ++
        (outside more sources.layers).dropWhile isPlain := by
  cases more with
  | nil =>
      rw [splice, outside_nil, List.append_nil, List.takeWhile_append_dropWhile]
  | cons source rest =>
      have others : Keys.defaultProperties ∉ rest.map Source.name := fun later =>
        plain (List.mem_cons_of_mem _ later)
      rcases layers_splice_first held with ⟨placed, step, layered⟩
      have still : HeldOnce placed (source :: rest) := by
        intro name listed
        rw [Sources.names, layered]
        refine Sources.count_names_joined ?_ (held name listed)
        rw [Sources.layers_erase (held _ List.mem_cons_self), List.takeWhile_append_dropWhile,
          outside_cons, outside_nil]
      have cut := outside_cut others (outside [source] sources.layers)
      have nested : outside rest (outside [source] sources.layers) =
          outside (source :: rest) sources.layers := by
        rw [outside_cons, outside_cons, outside_nil]
      rw [step, layers_splice_after layered still each, cut.1, cut.2, nested]
      simp only [List.append_assoc, List.cons_append]

/-- The spliced sources keep their order. -/
theorem sublist_names_splice {sources : Sources} {more : List Source}
    (held : HeldOnce sources more) (each : (more.map Source.name).Nodup)
    (plain : Keys.defaultProperties ∉ more.map Source.name) :
    (more.map Source.name).Sublist (splice sources none more).names := by
  rw [Sources.names, layers_splice held each plain]
  apply List.Sublist.map
  exact (List.sublist_append_right _ more).trans (List.sublist_append_left _ _)

/-- The spliced sources stand in front of the others, but for the order. -/
theorem perm_names_splice {sources : Sources} {more : List Source}
    (held : HeldOnce sources more) (each : (more.map Source.name).Nodup)
    (plain : Keys.defaultProperties ∉ more.map Source.name) :
    (splice sources none more).names.Perm
      (more.map Source.name ++ (outside more sources.layers).map Source.name) := by
  rw [Sources.names, layers_splice held each plain, ← List.map_append, List.append_assoc]
  apply List.Perm.map
  refine (List.perm_append_comm_assoc _ _ _).trans ?_
  rw [List.takeWhile_append_dropWhile]

theorem not_mem_names_outside_of_mem {name : String} {more : List Source}
    (among : name ∈ more.map Source.name) (layers : List Source) :
    name ∉ (outside more layers).map Source.name := by
  intro outer
  rcases List.mem_map.mp outer with ⟨layer, member, rfl⟩
  exact of_decide_eq_true (List.mem_filter.mp member).2 among

/-- Each spliced source is the only one of its name. -/
theorem count_names_splice {sources : Sources} {more : List Source}
    (held : HeldOnce sources more) (each : (more.map Source.name).Nodup)
    (plain : Keys.defaultProperties ∉ more.map Source.name) {name : String}
    (among : name ∈ more.map Source.name) : (splice sources none more).names.count name = 1 := by
  rw [(perm_names_splice held each plain).count_eq, List.count_append,
    List.count_eq_one_of_mem each among,
    List.count_eq_zero_of_not_mem (not_mem_names_outside_of_mem among _)]

/-- The spliced sources keep their order, and no name is repeated. -/
theorem names_splice {sources : Sources} (distinct : sources.names.Nodup) {more : List Source}
    (each : (more.map Source.name).Nodup)
    (plain : Keys.defaultProperties ∉ more.map Source.name) :
    (more.map Source.name).Sublist (splice sources none more).names ∧
      (splice sources none more).names.Nodup := by
  have held := heldOnce_of_nodup distinct more
  refine ⟨sublist_names_splice held each plain, ?_⟩
  rw [(perm_names_splice held each plain).nodup_iff]
  have others : ((outside more sources.layers).map Source.name).Nodup :=
    distinct.sublist (List.filter_sublist.map Source.name)
  refine List.nodup_append.mpr ⟨each, others, fun name among other outer same => ?_⟩
  exact not_mem_names_outside_of_mem among _ (same ▸ outer)

end Assembly

namespace Assembler

/-! ## With the default properties put back -/

theorem names_reading (environment : Environment) :
    (reading environment).sources.names = environment.sources.names := by
  unfold reading
  split
  · rfl
  · next defaults found =>
      have named : defaults.name = Keys.defaultProperties := name_of_find found
      exact Sources.names_replace environment.sources
        (show (Assembly.withoutProfiles defaults).name = Keys.defaultProperties from named)

theorem names_restored (environment loaded : Environment) :
    (restored environment loaded).sources.names = loaded.sources.names ∨
      (restored environment loaded).sources.names =
        (loaded.sources.names.erase Keys.defaultProperties).erase Keys.defaultProperties ++
          [Keys.defaultProperties] := by
  unfold restored
  split
  · exact Or.inl rfl
  · next defaults found =>
      have same : (Assembly.replaceDefaults loaded defaults).sources.names =
          loaded.sources.names := Sources.names_replace _ (name_of_find found)
      unfold Assembly.moveDefaultsLast
      split
      · exact Or.inl same
      · next last there =>
          right
          rw [Sources.names_addLast, Sources.names_erase, same, name_of_find there]

/-- Putting the default properties back repeats no name and keeps the order of the others. -/
theorem nodup_names_restored (environment : Environment) {loaded : Environment}
    (distinct : loaded.sources.names.Nodup) :
    (restored environment loaded).sources.names.Nodup := by
  rcases names_restored environment loaded with same | moved
  · exact same ▸ distinct
  · rw [moved, ← List.concat_eq_append]
    have others := distinct.erase Keys.defaultProperties
    exact (others.erase _).concat others.not_mem_erase

theorem count_names_restored (environment loaded : Environment) {name : String}
    (plain : name ≠ Keys.defaultProperties) :
    (restored environment loaded).sources.names.count name = loaded.sources.names.count name := by
  rcases names_restored environment loaded with same | moved
  · rw [same]
  · rw [moved, List.count_append, List.count_erase_of_ne plain, List.count_erase_of_ne plain,
      List.count_singleton, if_neg (by simpa using Ne.symm plain)]
    rfl

theorem sublist_names_restored (environment loaded : Environment) {names : List String}
    (plain : Keys.defaultProperties ∉ names) (ordered : names.Sublist loaded.sources.names) :
    names.Sublist (restored environment loaded).sources.names := by
  rcases names_restored environment loaded with same | moved
  · exact same ▸ ordered
  · have erased := (ordered.erase Keys.defaultProperties).erase Keys.defaultProperties
    rw [List.erase_of_not_mem plain, List.erase_of_not_mem plain] at erased
    rw [moved]
    exact erased.trans (List.sublist_append_left _ _)

end Assembler
end LayeredConfig

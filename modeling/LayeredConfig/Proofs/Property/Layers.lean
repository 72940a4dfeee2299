import LayeredConfig.Property.Sources
import Mathlib.Data.List.Nodup

namespace LayeredConfig
namespace Property
namespace Sources

/-!
# The layers after an operation

Adding a source in whatever place gives the layers without the one of its name,
and the source.  Where names are distinct the other layers keep their order, and
the source stands before or after the layer that it is put next to.
-/

theorem mem_insertBefore_iff (relative : String) (inserted layer : Source)
    (layers : List Source) :
    layer ∈ insertBefore relative inserted layers ↔ layer = inserted ∨ layer ∈ layers := by
  induction layers with
  | nil => simp [insertBefore]
  | cons head tail ih =>
      unfold insertBefore
      split
      · rw [List.mem_cons]
      · rw [List.mem_cons, ih, List.mem_cons]
        exact or_left_comm

theorem mem_insertAfter_iff (relative : String) (inserted layer : Source)
    (layers : List Source) :
    layer ∈ insertAfter relative inserted layers ↔ layer = inserted ∨ layer ∈ layers := by
  induction layers with
  | nil => simp [insertAfter]
  | cons head tail ih =>
      unfold insertAfter
      split
      · rw [List.mem_cons, List.mem_cons, List.mem_cons]
        exact or_left_comm
      · rw [List.mem_cons, ih, List.mem_cons]
        exact or_left_comm

theorem mem_addFirst_iff (sources : Sources) (source layer : Source) :
    layer ∈ (sources.addFirst source).layers ↔
      layer = source ∨ layer ∈ (sources.erase source.name).layers :=
  List.mem_cons

theorem mem_addLast_iff (sources : Sources) (source layer : Source) :
    layer ∈ (sources.addLast source).layers ↔
      layer = source ∨ layer ∈ (sources.erase source.name).layers := by
  unfold addLast
  rw [List.mem_append, List.mem_singleton, or_comm]

theorem mem_addBefore_iff (sources : Sources) (relative : String) (source layer : Source) :
    layer ∈ (sources.addBefore relative source).layers ↔
      layer = source ∨ layer ∈ (sources.erase source.name).layers :=
  mem_insertBefore_iff relative source layer _

theorem mem_addAfter_iff (sources : Sources) (relative : String) (source layer : Source) :
    layer ∈ (sources.addAfter relative source).layers ↔
      layer = source ∨ layer ∈ (sources.erase source.name).layers :=
  mem_insertAfter_iff relative source layer _

theorem mem_of_mem_erase {sources : Sources} {name : String} {layer : Source}
    (member : layer ∈ (sources.erase name).layers) : layer ∈ sources.layers :=
  List.mem_of_mem_eraseP member

theorem mem_erase_of_ne {sources : Sources} {name : String} {layer : Source}
    (member : layer ∈ sources.layers) (different : layer.name ≠ name) :
    layer ∈ (sources.erase name).layers :=
  (List.mem_eraseP_of_neg (by simpa using different)).mpr member

theorem contains_iff (sources : Sources) (name : String) :
    sources.contains name = true ↔ ∃ layer ∈ sources.layers, layer.name = name := by
  simp only [contains, List.any_eq_true, decide_eq_true_eq]

theorem contains_iff_mem_names (sources : Sources) (name : String) :
    sources.contains name = true ↔ name ∈ sources.names := by
  rw [contains_iff, names, List.mem_map]

theorem mem_names_of_adds {sources later : Sources} {added : Source}
    (adds : ∀ layer, layer ∈ later.layers ↔
      layer = added ∨ layer ∈ (sources.erase added.name).layers) (name : String) :
    name ∈ later.names ↔ name = added.name ∨ name ∈ sources.names := by
  simp only [names, List.mem_map]
  constructor
  · rintro ⟨layer, inside, rfl⟩
    rcases (adds layer).mp inside with rfl | before
    · exact Or.inl rfl
    · exact Or.inr ⟨layer, mem_of_mem_erase before, rfl⟩
  · intro listed
    by_cases same : name = added.name
    · exact ⟨added, (adds added).mpr (Or.inl rfl), same.symm⟩
    · rcases listed.resolve_left same with ⟨layer, member, rfl⟩
      exact ⟨layer, (adds layer).mpr (Or.inr (mem_erase_of_ne member same)), rfl⟩

theorem eq_or_mem_of_mem_replaceLayer {name : String} {source layer : Source}
    {layers : List Source} (member : layer ∈ replaceLayer name source layers) :
    layer = source ∨ layer ∈ layers := by
  induction layers with
  | nil => cases member
  | cons head tail ih =>
      unfold replaceLayer at member
      split at member
      · rcases List.mem_cons.mp member with same | later
        · exact Or.inl same
        · exact Or.inr (List.mem_cons_of_mem _ later)
      · rcases List.mem_cons.mp member with same | later
        · exact Or.inr (List.mem_cons.mpr (Or.inl same))
        · exact (ih later).imp_right (List.mem_cons_of_mem _)

/-! ## The order of the layers -/

theorem names_erase (sources : Sources) (name : String) :
    (sources.erase name).names = sources.names.erase name := by
  have same : (fun layer : Source => decide (layer.name = name)) =
      (fun other => name == other) ∘ Source.name := by
    funext layer
    rw [Function.comp_apply, Bool.eq_iff_iff, decide_eq_true_eq, beq_iff_eq, eq_comm]
  rw [names, names, erase, List.erase_eq_eraseP, List.eraseP_map, same]

/-- Erasing a name that no two layers have leaves no layer of that name. -/
theorem layers_erase {sources : Sources} {name : String} (once : sources.names.count name ≤ 1) :
    (sources.erase name).layers = sources.layers.filter fun layer => layer.name ≠ name := by
  obtain ⟨layers⟩ := sources
  simp only [names, erase] at once ⊢
  induction layers with
  | nil => rfl
  | cons head tail ih =>
      by_cases same : head.name = name
      · rw [List.map_cons, same, List.count_cons_self] at once
        have absent : name ∉ tail.map Source.name := List.count_eq_zero.mp (by omega)
        rw [List.eraseP_cons_of_pos (by simpa using same),
          List.filter_cons_of_neg (by simpa using same)]
        symm
        apply List.filter_eq_self.mpr
        intro layer member
        exact decide_eq_true fun repeated => absent (repeated ▸ List.mem_map_of_mem member)
      · rw [List.map_cons, List.count_cons_of_ne same] at once
        rw [List.eraseP_cons_of_neg (by simpa using same),
          List.filter_cons_of_pos (by simpa using same), ih once]

theorem insertBefore_eq (relative : String) (inserted : Source) (layers : List Source) :
    insertBefore relative inserted layers =
      layers.takeWhile (fun layer => layer.name ≠ relative) ++
        inserted :: layers.dropWhile (fun layer => layer.name ≠ relative) := by
  induction layers with
  | nil => rfl
  | cons head tail ih =>
      unfold insertBefore
      by_cases same : head.name = relative
      · simp [same]
      · simp [same, ih]

theorem insertAfter_append {relative : String} (inserted : Source) {before after : List Source}
    {previous : Source} (named : previous.name = relative)
    (absent : relative ∉ before.map Source.name) :
    insertAfter relative inserted (before ++ previous :: after) =
      before ++ previous :: inserted :: after := by
  induction before with
  | nil => rw [List.nil_append, insertAfter, if_pos named, List.nil_append]
  | cons head tail ih =>
      rw [List.map_cons, List.mem_cons, not_or] at absent
      rw [List.cons_append, insertAfter, if_neg (Ne.symm absent.1), ih absent.2, List.cons_append]

/-- A name that no two layers had is not repeated either when a source takes the place of the one
of its name. -/
theorem count_names_joined {sources : Sources} {source : Source} {before after : List Source}
    (split : (sources.erase source.name).layers = before ++ after) {name : String}
    (once : sources.names.count name ≤ 1) :
    ((before ++ source :: after).map Source.name).count name ≤ 1 := by
  have others : (before ++ after).map Source.name = sources.names.erase source.name := by
    rw [← split, ← names, names_erase]
  have moved : ((before ++ source :: after).map Source.name).Perm
      (source.name :: sources.names.erase source.name) := by
    rw [← others, List.map_append, List.map_append, List.map_cons]
    exact List.perm_middle
  rw [moved.count_eq]
  by_cases same : source.name = name
  · rw [same, List.count_cons_self, List.count_erase_self]
    omega
  · rw [List.count_cons_of_ne same, List.count_erase_of_ne (Ne.symm same)]
    exact once

theorem names_replace (sources : Sources) {name : String} {source : Source}
    (named : source.name = name) : (sources.replace name source).names = sources.names := by
  obtain ⟨layers⟩ := sources
  simp only [names, replace]
  induction layers with
  | nil => rfl
  | cons head tail ih =>
      unfold replaceLayer
      split
      · next same => rw [List.map_cons, List.map_cons, named, same]
      · rw [List.map_cons, List.map_cons, ih]

/-! ## The first layer of a name -/

/-- A layer that is found stands after layers of other names. -/
theorem exists_split_of_find {sources : Sources} {name : String} {layer : Source}
    (found : sources.find? name = some layer) :
    layer.name = name ∧ ∃ before after, sources.layers = before ++ layer :: after ∧
      name ∉ before.map Source.name := by
  rcases List.find?_eq_some_iff_append.mp found with ⟨named, before, after, split, others⟩
  refine ⟨of_decide_eq_true named, before, after, split, ?_⟩
  intro earlier
  rcases List.mem_map.mp earlier with ⟨other, member, same⟩
  simpa [same] using others other member

theorem find?_eq_none_iff (sources : Sources) (name : String) :
    sources.find? name = none ↔ name ∉ sources.names := by
  rw [find?, List.find?_eq_none, names, List.mem_map]
  simp only [decide_eq_true_eq, not_exists, not_and]

/-- Where names are distinct, the name of one layer is not among those of the others. -/
theorem not_mem_names_others {sources : Sources} (distinct : sources.names.Nodup)
    {before after : List Source} {layer : Source}
    (split : sources.layers = before ++ layer :: after) :
    layer.name ∉ before.map Source.name ∧ layer.name ∉ after.map Source.name := by
  rw [names, split, List.map_append, List.map_cons, List.nodup_middle, List.nodup_cons,
    List.mem_append, not_or] at distinct
  exact distinct.1

theorem find?_append {sources : Sources} {name : String} {layer : Source}
    {before after : List Source} (split : sources.layers = before ++ layer :: after)
    (named : layer.name = name) (absent : name ∉ before.map Source.name) :
    sources.find? name = some layer := by
  refine List.find?_eq_some_iff_append.mpr ⟨decide_eq_true named, before, after, split, ?_⟩
  intro other member
  rw [Bool.not_eq_true', decide_eq_false_iff_not]
  intro same
  exact absent (same ▸ List.mem_map_of_mem member)

theorem replaceLayer_append {name : String} {before after : List Source} {layer : Source}
    (source : Source) (named : layer.name = name) (absent : name ∉ before.map Source.name) :
    replaceLayer name source (before ++ layer :: after) = before ++ source :: after := by
  induction before with
  | nil => rw [List.nil_append, replaceLayer, if_pos named, List.nil_append]
  | cons head tail ih =>
      rw [List.map_cons, List.mem_cons, not_or] at absent
      rw [List.cons_append, replaceLayer, if_neg (Ne.symm absent.1), ih absent.2,
        List.cons_append]

theorem layers_erase_append {sources : Sources} {name : String} {before after : List Source}
    {layer : Source} (split : sources.layers = before ++ layer :: after)
    (named : layer.name = name) (absent : name ∉ before.map Source.name) :
    (sources.erase name).layers = before ++ after := by
  have others : ∀ other ∈ before, ¬ decide (other.name = name) = true := by
    intro other member same
    exact absent (of_decide_eq_true same ▸ List.mem_map_of_mem member)
  rw [erase, split, List.eraseP_append_right _ others,
    List.eraseP_cons_of_pos (by simpa using named)]

theorem layers_erase_of_not_mem {sources : Sources} {name : String}
    (absent : name ∉ sources.names) : (sources.erase name).layers = sources.layers := by
  apply List.eraseP_of_forall_not
  intro layer member same
  exact absent (of_decide_eq_true same ▸ List.mem_map_of_mem member)

/-! ## Values -/

theorem isSome_get?_iff (source : Source) (key : String) :
    (source.get? key).isSome = true ↔ source.contains key = true := by
  rw [Source.get?, KeyedList.get?, Option.isSome_map, List.find?_isSome, Source.contains,
    KeyedList.contains, List.any_eq_true]

/-- The layers on top decide the value of a key that one of them holds. -/
theorem get?_append {sources : Sources} {first rest : List Source}
    (split : sources.layers = first ++ rest) {key : String}
    (held : ∃ source ∈ first, source.contains key = true) :
    sources.get? key = first.findSome? fun layer => layer.get? key := by
  rcases held with ⟨source, member, holds⟩
  have found : (first.findSome? fun layer => layer.get? key).isSome = true :=
    List.findSome?_isSome_iff.mpr ⟨source, member, (isSome_get?_iff source key).mpr holds⟩
  rw [get?, split, List.findSome?_append, Option.or_of_isSome found]

theorem names_addLast (sources : Sources) (source : Source) :
    (sources.addLast source).names = sources.names.erase source.name ++ [source.name] := by
  rw [← names_erase, names, addLast, List.map_append, List.map_singleton, names]

end Sources
end Property
end LayeredConfig

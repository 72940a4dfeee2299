import LayeredConfig.Proofs.Property.Layers
import Mathlib.Data.List.Forall2

namespace LayeredConfig
namespace Property
namespace Sources

/-!
# Sources in pairs

Where a source is put, and which one is taken away for it, hangs on names only.
So two lists of sources that are related layer by layer stay so under every
operation, if related sources have one name.
-/

/-- The layers are related in pairs, from the first to the last. -/
def Paired (related : Source → Source → Prop) (left right : Sources) : Prop :=
  List.Forall₂ related left.layers right.layers

variable {related : Source → Source → Prop} {left right : Sources}

/-- A search through the layers finds the same, if it does so in related sources. -/
theorem Paired.findSome? {Found : Type} {find : Source → Option Found}
    (paired : Paired related left right)
    (same : ∀ source other, related source other → find source = find other) :
    left.layers.findSome? find = right.layers.findSome? find := by
  obtain ⟨layers⟩ := left
  obtain ⟨others⟩ := right
  unfold Paired at paired
  simp only at paired ⊢
  induction paired with
  | nil => rfl
  | cons first _ ih => rw [List.findSome?_cons, List.findSome?_cons, same _ _ first, ih]

variable (named : ∀ source other : Source, related source other → source.name = other.name)

include named

theorem Paired.names (paired : Paired related left right) : left.names = right.names := by
  unfold Sources.names
  rw [← List.forall₂_eq_eq_eq, List.forall₂_map_left_iff, List.forall₂_map_right_iff]
  exact paired.imp named

theorem Paired.contains (paired : Paired related left right) (name : String) :
    left.contains name = right.contains name := by
  rw [Bool.eq_iff_iff, contains_iff_mem_names, contains_iff_mem_names, paired.names named]

/-- Looking up a name finds related sources, or nothing in both. -/
theorem Paired.find? (paired : Paired related left right) (name : String) :
    Option.Rel related (left.find? name) (right.find? name) := by
  obtain ⟨layers⟩ := left
  obtain ⟨others⟩ := right
  unfold Paired at paired
  unfold Sources.find?
  simp only at paired ⊢
  induction paired with
  | nil => exact .none
  | cons first _ ih =>
      rw [List.find?_cons, List.find?_cons, named _ _ first]
      split
      · exact .some first
      · exact ih

theorem Paired.erase (paired : Paired related left right) (name : String) :
    Paired related (left.erase name) (right.erase name) := by
  obtain ⟨layers⟩ := left
  obtain ⟨others⟩ := right
  unfold Paired at paired ⊢
  unfold Sources.erase
  simp only at paired ⊢
  induction paired with
  | nil => exact .nil
  | @cons source other _ _ first rest ih =>
      rw [List.eraseP_cons, List.eraseP_cons, named _ _ first]
      cases decide (other.name = name) with
      | true => exact rest
      | false => exact .cons first ih

theorem forall₂_insertBefore {relative : String} {source other : Source}
    {layers others : List Source} (both : related source other)
    (paired : List.Forall₂ related layers others) :
    List.Forall₂ related (insertBefore relative source layers)
      (insertBefore relative other others) := by
  induction paired with
  | nil => exact .cons both .nil
  | cons first rest ih =>
      unfold insertBefore
      rw [named _ _ first]
      split
      · exact .cons both (.cons first rest)
      · exact .cons first ih

theorem forall₂_insertAfter {relative : String} {source other : Source}
    {layers others : List Source} (both : related source other)
    (paired : List.Forall₂ related layers others) :
    List.Forall₂ related (insertAfter relative source layers)
      (insertAfter relative other others) := by
  induction paired with
  | nil => exact .cons both .nil
  | cons first rest ih =>
      unfold insertAfter
      rw [named _ _ first]
      split
      · exact .cons first (.cons both rest)
      · exact .cons first ih

variable {source other : Source}

theorem Paired.addFirst (paired : Paired related left right) (both : related source other) :
    Paired related (left.addFirst source) (right.addFirst other) := by
  unfold Sources.addFirst
  rw [named _ _ both]
  exact .cons both (paired.erase named other.name)

theorem Paired.addLast (paired : Paired related left right) (both : related source other) :
    Paired related (left.addLast source) (right.addLast other) := by
  unfold Sources.addLast
  rw [named _ _ both]
  exact List.rel_append (paired.erase named other.name) (.cons both .nil)

theorem Paired.addBefore (paired : Paired related left right) (both : related source other)
    (relative : String) :
    Paired related (left.addBefore relative source) (right.addBefore relative other) := by
  unfold Sources.addBefore
  rw [named _ _ both]
  exact forall₂_insertBefore named both (paired.erase named other.name)

theorem Paired.addAfter (paired : Paired related left right) (both : related source other)
    (relative : String) :
    Paired related (left.addAfter relative source) (right.addAfter relative other) := by
  unfold Sources.addAfter
  rw [named _ _ both]
  exact forall₂_insertAfter named both (paired.erase named other.name)

theorem Paired.replace (paired : Paired related left right) (both : related source other)
    (name : String) : Paired related (left.replace name source) (right.replace name other) := by
  obtain ⟨layers⟩ := left
  obtain ⟨others⟩ := right
  unfold Paired at paired ⊢
  unfold Sources.replace
  simp only at paired ⊢
  induction paired with
  | nil => exact .nil
  | cons first rest ih =>
      unfold replaceLayer
      rw [named _ _ first]
      split
      · exact .cons both rest
      · exact .cons first ih

end Sources
end Property
end LayeredConfig

import LayeredConfig.Proofs.KeyedList
import LayeredConfig.Proofs.Text.CommaList
import LayeredConfig.Proofs.Text.Marks
import LayeredConfig.Property.Flattening
import Mathlib.Data.List.Nodup
import Mathlib.Data.List.Perm.Subperm

namespace LayeredConfig
namespace Property

/-!
# The spellings of a list

A list is one text with commas, a value for each item under a key with its
position, or a sequence of a document, which is flattened to such keys.  The keys
of different positions differ, so that a source holds at least as many properties
as items and the search for them ends at the first missing one only.
-/

open Yaml (Value)

/-! ## The keys of the items -/

namespace Source

theorem toList_itemKey (key : String) (index : Nat) :
    (itemKey key index).toList = key.toList ++ '[' :: ((toString index).toList ++ [']']) := by
  have opening : "[".toList = ['['] := by decide
  have closing : "]".toList = [']'] := by decide
  rw [itemKey, String.toList_append, String.toList_append, String.toList_append, opening, closing,
    List.append_assoc, List.append_assoc, List.singleton_append]

theorem itemKey_inj {key : String} {left right : Nat}
    (same : itemKey key left = itemKey key right) : left = right := by
  have lists := congrArg String.toList same
  rw [toList_itemKey, toList_itemKey, List.append_cancel_left_eq, List.cons.injEq,
    List.append_cancel_right_eq] at lists
  exact Text.toString_nat_inj lists.2

theorem itemKey_ne (key : String) (index : Nat) : itemKey key index ≠ key := by
  intro same
  have lists := congrArg String.toList same
  rw [toList_itemKey, List.append_right_eq_self] at lists
  cases lists

/-! ## Reading item by item -/

variable {source : Source} {key : String} {items : List String}

/-- Items are read in their order, up to the bound. -/
theorem itemsFrom_eq (held : ∀ index, source.get? (itemKey key index) = items[index]?)
    (index bound : Nat) : source.itemsFrom key index bound = (items.drop index).take bound := by
  induction bound generalizing index with
  | zero => rw [itemsFrom, List.take_zero]
  | succ bound ih =>
      rw [itemsFrom, held]
      cases item : items[index]? with
      | none =>
          rw [List.drop_eq_nil_of_le (List.getElem?_eq_none_iff.mp item), List.take_nil]
      | some value =>
          rcases List.getElem?_eq_some_iff.mp item with ⟨inside, rfl⟩
          rw [List.drop_eq_getElem_cons inside, List.take_succ_cons, ih]

/-- A source has at least as many properties as items that it holds. -/
theorem length_le_size (held : ∀ index, source.get? (itemKey key index) = items[index]?) :
    items.length ≤ source.properties.size := by
  have distinct : ((List.range items.length).map (itemKey key)).Nodup :=
    List.nodup_range.map fun _ _ => itemKey_inj
  have inside : (List.range items.length).map (itemKey key) ⊆ source.properties.keys := by
    intro name member
    rcases List.mem_map.mp member with ⟨index, bounded, rfl⟩
    have found := held index
    rw [List.getElem?_eq_getElem (List.mem_range.mp bounded)] at found
    have listed := (KeyedList.get?_eq_some_iff _ _ _).mp found
    exact List.mem_map.mpr ⟨_, listed, rfl⟩
  have lengths := (distinct.subperm inside).length_le
  rwa [List.length_map, List.length_range, KeyedList.keys, List.length_map] at lengths

/-- Items under keys with their positions are all read. -/
theorem list?_of_items (absent : source.get? key = none)
    (held : ∀ index, source.get? (itemKey key index) = items[index]?) (nonempty : items ≠ []) :
    source.list? key = some ((items.map Text.trim).filter (· ≠ "")) := by
  have read : source.itemsFrom key 0 source.properties.size = items := by
    rw [itemsFrom_eq held, List.drop_zero, List.take_of_length_le (length_le_size held)]
  rw [list?, absent, read]
  cases items with
  | nil => exact absurd rfl nonempty
  | cons item rest => rfl

end Source

/-! ## Sequences of texts -/

open Source

/-- Items under keys with their positions. -/
def itemPairs (key : String) (index : Nat) (items : List String) : List (String × String) :=
  (items.zipIdx index).map fun entry => (itemKey key entry.2, entry.1)

theorem nodup_itemPairs (key : String) (index : Nat) (items : List String) :
    ((itemPairs key index items).map Prod.fst).Nodup := by
  have keys : (itemPairs key index items).map Prod.fst =
      ((items.zipIdx index).map Prod.snd).map (itemKey key) := by
    rw [itemPairs, List.map_map, List.map_map]
    rfl
  rw [keys, List.zipIdx_map_snd]
  exact (List.nodup_range' 1).map fun _ _ => itemKey_inj

theorem get?_itemPairs (key : String) (items : List String) (index : Nat) :
    (KeyedList.ofList (itemPairs key 0 items)).get? (itemKey key index) = items[index]? := by
  apply Option.ext
  intro value
  rw [KeyedList.get?_eq_some_iff, KeyedList.entries_ofList (nodup_itemPairs key 0 items),
    itemPairs, List.mem_map]
  constructor
  · rintro ⟨⟨item, place⟩, member, same⟩
    rcases Prod.mk.inj same with ⟨sameKey, rfl⟩
    rw [← itemKey_inj sameKey]
    exact List.mem_zipIdx_iff_getElem?.mp member
  · intro item
    exact ⟨(value, index), List.mem_zipIdx_iff_getElem?.mpr item, rfl⟩

theorem get?_itemPairs_key (key : String) (items : List String) :
    (KeyedList.ofList (itemPairs key 0 items)).get? key = none := by
  rw [KeyedList.get?_eq_none_iff, KeyedList.keys,
    KeyedList.entries_ofList (nodup_itemPairs key 0 items), itemPairs, List.map_map, List.mem_map]
  rintro ⟨entry, _, same⟩
  exact itemKey_ne key entry.2 same

/-- A document in which one key has a sequence of texts. -/
def sequenceUnder (key : String) (items : List String) : Value :=
  .mapping [(.string key, .sequence (items.map .string))]

theorem flattenItems_strings (path : String) (index : Nat) (items : List String) :
    flattenItems path index (items.map .string) = itemPairs path index items := by
  induction items generalizing index with
  | nil => rw [List.map_nil, flattenItems, itemPairs, List.zipIdx_nil, List.map_nil]
  | cons item rest ih =>
      have leaf : flatten (some (itemKey path index)) (.string item) =
          [(itemKey path index, item)] := by
        simp [flatten, leafText]
      rw [List.map_cons, flattenItems, leaf, ih, itemPairs, itemPairs, List.zipIdx_cons,
        List.map_cons, List.singleton_append]

/-- A sequence is flattened to its items under keys with their positions. -/
theorem ofValue_sequenceUnder (key : String) (items : List String) :
    ofValue (sequenceUnder key items) = KeyedList.ofList (itemPairs key 0 items) := by
  rw [ofValue, sequenceUnder, flatten, flattenEntries, flattenEntries, leafText, List.append_nil]
  simp only [fieldPath]
  rw [flatten, Option.getD_some, flattenItems_strings]

/-! ## Main result -/

/-- Texts without commas are read as the same list, trimmed and without blank ones, whether a
source holds them joined by commas, each under the key with its position, or flattened from a
document with a sequence. -/
theorem list_spellings_agree {key : String} {items : List String} (nonempty : items ≠ [])
    (free : ∀ item ∈ items, ',' ∉ item.toList) {joined indexed flattened : Source}
    (together : joined.get? key = some (",".intercalate items))
    (absent : indexed.get? key = none)
    (apart : ∀ index, indexed.get? (itemKey key index) = items[index]?)
    (nested : flattened.properties = ofValue (sequenceUnder key items)) :
    joined.list? key = some ((items.map Text.trim).filter (· ≠ "")) ∧
      indexed.list? key = some ((items.map Text.trim).filter (· ≠ "")) ∧
      flattened.list? key = some ((items.map Text.trim).filter (· ≠ "")) := by
  refine ⟨?_, list?_of_items absent apart nonempty, ?_⟩
  · rw [list?, together, ← Text.flatMap_commaList_of_not_mem free, ← Text.commaList_intercalate]
  · rw [ofValue_sequenceUnder] at nested
    refine list?_of_items ?_ ?_ nonempty
    · rw [get?, nested, get?_itemPairs_key]
    · intro index
      rw [get?, nested, get?_itemPairs]

/-- A blank item inside the list is passed over and does not end it. -/
theorem list_spellings_agree_blank :
    [" a", " ", "b"] ≠ [] ∧ (∀ item ∈ [" a", " ", "b"], ',' ∉ item.toList) ∧
      ((Source.named "text").set "k" " a, ,b").list? "k" = some ["a", "b"] ∧
      ((((Source.named "items").set "k[0]" " a").set "k[1]" " ").set "k[2]" "b").list? "k" =
        some ["a", "b"] ∧
      (Source.mk "document" (ofValue (sequenceUnder "k" [" a", " ", "b"]))).list? "k" =
        some ["a", "b"] := by
  have nonempty : [" a", " ", "b"] ≠ [] := List.cons_ne_nil _ _
  have free : ∀ item ∈ [" a", " ", "b"], ',' ∉ item.toList := by decide
  have listed : (([" a", " ", "b"].map Text.trim).filter (· ≠ "")) = ["a", "b"] := by decide
  have agree := @list_spellings_agree "k" [" a", " ", "b"] nonempty free
    ((Source.named "text").set "k" " a, ,b")
    ((((Source.named "items").set "k[0]" " a").set "k[1]" " ").set "k[2]" "b")
    (Source.mk "document" (ofValue (sequenceUnder "k" [" a", " ", "b"])))
    (by decide) (by decide) (get?_itemPairs "k" [" a", " ", "b"]) rfl
  rw [listed] at agree
  exact ⟨nonempty, free, agree⟩

end Property
end LayeredConfig

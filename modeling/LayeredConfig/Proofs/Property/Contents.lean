import LayeredConfig.Property.Sources
import Mathlib.Data.List.Perm.Basic
import Mathlib.Data.List.Nodup

namespace LayeredConfig

/-!
# Sources that hold the same

Two lists of pairs that have the same value under every key hold the same pairs.
So a source is known by its values, and nothing that is read from it hangs on the
order of its properties.
-/

namespace KeyedList

variable {Key Value : Type} [DecidableEq Key]

/-- Lists with the same values hold the same pairs, in whatever order. -/
theorem perm_of_get? {left right : KeyedList Key Value}
    (same : ∀ key, left.get? key = right.get? key) : left.entries.Perm right.entries := by
  rw [List.perm_ext_iff_of_nodup left.distinct.of_map right.distinct.of_map]
  rintro ⟨key, value⟩
  rw [← get?_eq_some_iff, ← get?_eq_some_iff, same]

theorem get?_filterKeys (list : KeyedList Key Value) (keep : Key → Bool) (key : Key) :
    (list.filterKeys keep).get? key = if keep key then list.get? key else none := by
  apply Option.ext
  intro value
  rw [get?_eq_some_iff, filterKeys, List.mem_filter]
  split
  · next kept => rw [get?_eq_some_iff, and_iff_left kept]
  · next dropped => simp [dropped]

end KeyedList

namespace Property
namespace Source

variable {left right : Source}

theorem itemsFrom_of_get? (same : ∀ key, left.get? key = right.get? key) (key : String)
    (index bound : Nat) : left.itemsFrom key index bound = right.itemsFrom key index bound := by
  induction bound generalizing index with
  | zero => rfl
  | succ bound ih => simp only [itemsFrom, same, ih]

/-- A list is read alike from sources with the same values. -/
theorem list?_of_get? (same : ∀ key, left.get? key = right.get? key) (key : String) :
    left.list? key = right.list? key := by
  have size : left.properties.size = right.properties.size :=
    (KeyedList.perm_of_get? same).length_eq
  simp only [list?, same, itemsFrom_of_get? same, size]

end Source
end Property
end LayeredConfig

import LayeredConfig.KeyedList
import LayeredConfig.Proofs.Names

namespace LayeredConfig
namespace KeyedList

/-!
# Where a change is made

Changing a value keeps all pairs in their places and changes one of them, or adds
a last one when the key is new.
-/

variable {Key Value : Type} [DecidableEq Key]

theorem put_append_of_not_mem {key : Key} {first : List (Key × Value)}
    (fresh : key ∉ first.map Prod.fst) (value : Value) (rest : List (Key × Value)) :
    put key value (first ++ rest) = first ++ put key value rest := by
  induction first with
  | nil => rfl
  | cons head tail ih =>
      obtain ⟨known, old⟩ := head
      simp only [List.map_cons, List.mem_cons, not_or] at fresh
      rw [List.cons_append, put, if_neg (Ne.symm fresh.1), ih fresh.2, List.cons_append]

theorem put_append_of_mem {key : Key} {first : List (Key × Value)}
    (known : key ∈ first.map Prod.fst) (value : Value) (rest : List (Key × Value)) :
    put key value (first ++ rest) = put key value first ++ rest := by
  induction first with
  | nil => cases known
  | cons head tail ih =>
      obtain ⟨other, old⟩ := head
      rw [List.map_cons, List.mem_cons] at known
      rw [List.cons_append, put, put]
      split
      · rfl
      · next different =>
          rw [ih (known.resolve_left (Ne.symm different)), List.cons_append]

theorem get?_eq_none_iff (list : KeyedList Key Value) (key : Key) :
    list.get? key = none ↔ key ∉ list.keys := by
  rw [← contains_iff_mem_keys, get?, Option.map_eq_none_iff, List.find?_eq_none, contains,
    List.any_eq_true]
  simp only [not_exists, not_and]

/-- A value is changed where it stands, or begins a last pair. -/
theorem entries_update (list : KeyedList Key Value) (key : Key) (initial : Value)
    (change : Value → Value) :
    (∃ before old after, list.entries = before ++ (key, old) :: after ∧
      (list.update key initial change).entries = before ++ (key, change old) :: after) ∨
    (key ∉ list.keys ∧
      (list.update key initial change).entries = list.entries ++ [(key, change initial)]) := by
  cases found : list.get? key with
  | none =>
      have fresh := (get?_eq_none_iff list key).mp found
      refine Or.inr ⟨fresh, ?_⟩
      have written := put_append_of_not_mem fresh (change initial) []
      rw [List.append_nil] at written
      rw [update, found]
      exact written
  | some old =>
      left
      rcases List.append_of_mem ((get?_eq_some_iff list key old).mp found) with
        ⟨before, after, split⟩
      have distinct := list.distinct
      rw [split, List.map_append, List.map_cons, List.nodup_append] at distinct
      have fresh : key ∉ before.map Prod.fst := fun earlier =>
        distinct.2.2 key earlier key List.mem_cons_self rfl
      refine ⟨before, old, after, split, ?_⟩
      rw [update, found]
      simp only [insert, Option.getD_some]
      rw [split, put_append_of_not_mem fresh, put, if_pos rfl]

/-- The value of the first key is changed in the first place. -/
theorem entries_update_cons {list : KeyedList Key Value} {key : Key} {value : Value}
    {rest : List (Key × Value)} (begins : list.entries = (key, value) :: rest) (initial : Value)
    (change : Value → Value) :
    (list.update key initial change).entries = (key, change value) :: rest := by
  have found : list.get? key = some value :=
    (get?_eq_some_iff list key value).mpr (begins ▸ List.mem_cons_self)
  rw [update, found]
  simp only [insert, begins, put, if_true, Option.getD_some]

/-- A key that the first pairs lack is changed among the others. -/
theorem entries_update_of_append {list first rest : KeyedList Key Value}
    (split : list.entries = first.entries ++ rest.entries) {key : Key} (fresh : key ∉ first.keys)
    (initial : Value) (change : Value → Value) :
    (list.update key initial change).entries =
      first.entries ++ (rest.update key initial change).entries := by
  have same : list.get? key = rest.get? key := by
    have missing := (get?_eq_none_iff first key).mpr fresh
    rw [get?, Option.map_eq_none_iff] at missing
    rw [get?, get?, split, List.find?_append, missing, Option.none_or]
  simp only [update, insert]
  rw [same, split, put_append_of_not_mem fresh]

/-- A key that the first pairs have is changed among them. -/
theorem entries_update_of_mem_append {list first rest : KeyedList Key Value}
    (split : list.entries = first.entries ++ rest.entries) {key : Key} (known : key ∈ first.keys)
    (initial : Value) (change : Value → Value) :
    (list.update key initial change).entries =
      (first.update key initial change).entries ++ rest.entries := by
  have same : list.get? key = first.get? key := by
    cases found : first.get? key with
    | none => exact absurd known ((get?_eq_none_iff first key).mp found)
    | some value =>
        rw [get?_eq_some_iff, split]
        exact List.mem_append_left _ ((get?_eq_some_iff first key value).mp found)
  simp only [update, insert]
  rw [same, split, put_append_of_mem known]

theorem filter_of_not_mem {key : Key} {pairs : List (Key × Value)}
    (absent : key ∉ pairs.map Prod.fst) : pairs.filter (fun entry => entry.1 = key) = [] := by
  rw [List.filter_eq_nil_iff]
  rintro ⟨known, value⟩ inside same
  cases of_decide_eq_true same
  exact absent (List.mem_map_of_mem inside)

/-- A key has one pair, that of its value, or none. -/
theorem filter_entries (list : KeyedList Key Value) (key : Key) :
    list.entries.filter (fun entry => entry.1 = key) =
      (list.get? key).toList.map fun value => (key, value) := by
  cases found : list.get? key with
  | none => exact filter_of_not_mem ((get?_eq_none_iff list key).mp found)
  | some value =>
      rcases List.append_of_mem ((get?_eq_some_iff list key value).mp found) with
        ⟨before, after, split⟩
      have distinct := list.distinct
      rw [split, List.map_append, List.map_cons, List.nodup_append, List.nodup_cons] at distinct
      have sooner : key ∉ before.map Prod.fst := fun inside =>
        distinct.2.2 key inside key List.mem_cons_self rfl
      rw [split, List.filter_append, filter_of_not_mem sooner, List.filter_cons,
        filter_of_not_mem distinct.2.1.1]
      simp only [decide_true, if_true, List.nil_append, Option.toList_some, List.map_singleton]

/-! ## Pairs written one by one -/

/-- A new key is the last one. -/
theorem keys_put (key : Key) (value : Value) (pairs : List (Key × Value)) :
    (put key value pairs).map Prod.fst =
      if key ∈ pairs.map Prod.fst then pairs.map Prod.fst else pairs.map Prod.fst ++ [key] := by
  induction pairs with
  | nil => rfl
  | cons head tail ih =>
      obtain ⟨known, old⟩ := head
      rw [put]
      by_cases same : known = key
      · simp [same]
      · rw [if_neg same, List.map_cons, ih]
        by_cases member : key ∈ tail.map Prod.fst
        · simp [member]
        · simp [member, Ne.symm same]

theorem insertAll_append (list : KeyedList Key Value) (first second : List (Key × Value)) :
    list.insertAll (first ++ second) = (list.insertAll first).insertAll second :=
  List.foldl_append

theorem insertAll_concat (list : KeyedList Key Value) (pairs : List (Key × Value))
    (pair : Key × Value) :
    list.insertAll (pairs ++ [pair]) = (list.insertAll pairs).insert pair.1 pair.2 :=
  insertAll_append list pairs [pair]

theorem ofList_concat (pairs : List (Key × Value)) (pair : Key × Value) :
    ofList (pairs ++ [pair]) = (ofList pairs).insert pair.1 pair.2 :=
  insertAll_concat empty pairs pair

/-- Pairs without a repeated key are held as they are written. -/
theorem entries_ofList {pairs : List (Key × Value)} (distinct : (pairs.map Prod.fst).Nodup) :
    (ofList pairs).entries = pairs := by
  induction pairs using List.reverseRecOn with
  | nil => rfl
  | append_singleton pairs pair ih =>
      rw [List.map_append, List.nodup_append] at distinct
      have fresh : pair.1 ∉ pairs.map Prod.fst := fun earlier =>
        distinct.2.2 pair.1 earlier pair.1 List.mem_cons_self rfl
      have written := put_append_of_not_mem fresh pair.2 []
      rw [List.append_nil] at written
      calc (ofList (pairs ++ [pair])).entries
        _ = put pair.1 pair.2 (ofList pairs).entries := by rw [ofList_concat, insert]
        _ = put pair.1 pair.2 pairs := by rw [ih distinct.1]
        _ = pairs ++ [pair] := written

/-- Keys that the list lacks come behind its own, each in its first position. -/
theorem keys_insertAll (list : KeyedList Key Value) (pairs : List (Key × Value)) :
    (list.insertAll pairs).keys =
      list.keys ++ (pairs.map Prod.fst).eraseDups.filter fun key => key ∉ list.keys := by
  induction pairs using List.reverseRecOn with
  | nil => simp [insertAll]
  | append_singleton pairs pair ih =>
      have written := keys_put pair.1 pair.2 (list.insertAll pairs).entries
      rw [← keys, ih] at written
      rw [insertAll_concat, keys, insert, written, List.map_append, List.map_singleton,
        Names.eraseDups_concat]
      by_cases held : pair.1 ∈ list.keys
      · by_cases repeated : pair.1 ∈ (pairs.map Prod.fst).eraseDups
        · simp [held, repeated]
        · simp [held, repeated]
      · by_cases repeated : pair.1 ∈ (pairs.map Prod.fst).eraseDups
        · simp [held, repeated]
        · simp [held, repeated]

/-- Values that are written take the place of those that the list has. -/
theorem get?_insertAll (list : KeyedList Key Value) (pairs : List (Key × Value)) (key : Key) :
    (list.insertAll pairs).get? key = (pairs.reverse.lookup key).or (list.get? key) := by
  induction pairs using List.reverseRecOn with
  | nil => rfl
  | append_singleton pairs pair ih =>
      rw [insertAll_concat, get?_insert, ih, List.reverse_concat, List.lookup_cons]
      by_cases same : key = pair.1
      · rw [if_pos same, beq_iff_eq.mpr same]
        rfl
      · rw [if_neg same, beq_false_of_ne same]

/-- A repeated key keeps its first position. -/
theorem keys_ofList (pairs : List (Key × Value)) :
    (ofList pairs).keys = (pairs.map Prod.fst).eraseDups := by
  rw [ofList, keys_insertAll]
  simp [keys]

/-- A repeated key takes its last value. -/
theorem get?_ofList (pairs : List (Key × Value)) (key : Key) :
    (ofList pairs).get? key = pairs.reverse.lookup key := by
  rw [ofList, get?_insertAll]
  exact Option.or_none

/-! ## Lists with the same content -/

omit [DecidableEq Key] in
theorem ext_of_entries {left right : KeyedList Key Value} (same : left.entries = right.entries) :
    left = right := by
  cases left
  cases right
  cases same
  rfl

/-- A list is what its pairs are written into. -/
theorem ofList_entries (list : KeyedList Key Value) : ofList list.entries = list :=
  ext_of_entries (entries_ofList list.distinct)

/-- Keys in their order and the value of each are all there is to a list. -/
theorem ext_of_get? {left right : KeyedList Key Value} (sameKeys : left.keys = right.keys)
    (sameValues : ∀ key, left.get? key = right.get? key) : left = right := by
  have regained : ∀ list : KeyedList Key Value,
      list.keys.filterMap (fun key => (list.get? key).map fun value => (key, value)) =
        list.entries := by
    intro list
    have each : ∀ entry ∈ list.entries,
        ((list.get? entry.1).map fun value => (entry.1, value)) = some entry := by
      intro entry member
      rw [(get?_eq_some_iff list entry.1 entry.2).mpr member]
      rfl
    rw [keys, List.filterMap_map]
    exact (List.filterMap_congr each).trans List.filterMap_some
  apply ext_of_entries
  rw [← regained left, ← regained right, sameKeys, funext sameValues]

/-- Pairs may be brought together before they are written into a list. -/
theorem insertAll_ofList (list : KeyedList Key Value) (pairs : List (Key × Value)) :
    list.insertAll (ofList pairs).entries = list.insertAll pairs := by
  apply ext_of_get?
  · rw [keys_insertAll, keys_insertAll, ← keys_ofList, ← keys_ofList, ofList_entries]
  · intro key
    rw [get?_insertAll, get?_insertAll, ← get?_ofList, ← get?_ofList, ofList_entries]

/-! ## Lists written into a list -/

theorem keys_merge (list other : KeyedList Key Value) :
    (list.insertAll other.entries).keys =
      list.keys ++ other.keys.filter fun key => key ∉ list.keys := by
  rw [keys_insertAll, ← keys_ofList, ofList_entries]

theorem get?_merge (list other : KeyedList Key Value) (key : Key) :
    (list.insertAll other.entries).get? key = (other.get? key).or (list.get? key) := by
  rw [get?_insertAll, ← get?_ofList, ofList_entries]

/-- Two lists may be brought together before they are written into a third. -/
theorem merge_merge (list first second : KeyedList Key Value) :
    list.insertAll (first.insertAll second.entries).entries =
      (list.insertAll first.entries).insertAll second.entries := by
  have together : first.insertAll second.entries = ofList (first.entries ++ second.entries) := by
    rw [ofList, insertAll_append, ← ofList, ofList_entries]
  rw [together, insertAll_ofList, insertAll_append]

end KeyedList
end LayeredConfig

namespace LayeredConfig

/-!
Lists of key and value pairs in which no key repeats.  A new key goes to the
end; writing a key that is present replaces its value in place.
-/

structure KeyedList (Key Value : Type) where
  entries : List (Key × Value)
  distinct : (entries.map Prod.fst).Nodup

namespace KeyedList

variable {Key Value : Type} [DecidableEq Key]

/-- Write `value` under `key` in a list of pairs. -/
def put (key : Key) (value : Value) : List (Key × Value) → List (Key × Value)
  | [] => [(key, value)]
  | (known, old) :: rest =>
      if known = key then (known, value) :: rest else (known, old) :: put key value rest

theorem mem_keys_put (key other : Key) (value : Value) (pairs : List (Key × Value)) :
    other ∈ (put key value pairs).map Prod.fst ↔ other = key ∨ other ∈ pairs.map Prod.fst := by
  induction pairs with
  | nil => simp [put]
  | cons head tail ih =>
      obtain ⟨known, old⟩ := head
      unfold put
      split
      · next same => subst known; simp
      · simp only [List.map_cons, List.mem_cons, ih]
        exact or_left_comm

theorem nodup_keys_put (key : Key) (value : Value) (pairs : List (Key × Value))
    (distinct : (pairs.map Prod.fst).Nodup) :
    ((put key value pairs).map Prod.fst).Nodup := by
  induction pairs with
  | nil => simp [put]
  | cons head tail ih =>
      obtain ⟨known, old⟩ := head
      simp only [List.map_cons, List.nodup_cons] at distinct
      unfold put
      split
      · simpa using distinct
      · next different =>
          simp only [List.map_cons, List.nodup_cons, mem_keys_put, not_or]
          exact ⟨⟨different, distinct.1⟩, ih distinct.2⟩

def empty : KeyedList Key Value where
  entries := []
  distinct := by simp

instance : Inhabited (KeyedList Key Value) where
  default := empty

/-- Write `value` under `key`: in place when the key is present, else at the end. -/
def insert (list : KeyedList Key Value) (key : Key) (value : Value) : KeyedList Key Value where
  entries := put key value list.entries
  distinct := nodup_keys_put key value list.entries list.distinct

/-- The list without `key`; the order of the rest is kept. -/
def erase (list : KeyedList Key Value) (key : Key) : KeyedList Key Value where
  entries := list.entries.filter (fun entry => entry.1 ≠ key)
  distinct := list.distinct.sublist (List.filter_sublist.map Prod.fst)

/-- The entries whose key satisfies `keep`. -/
def filterKeys (list : KeyedList Key Value) (keep : Key → Bool) : KeyedList Key Value where
  entries := list.entries.filter (fun entry => keep entry.1)
  distinct := list.distinct.sublist (List.filter_sublist.map Prod.fst)

def get? (list : KeyedList Key Value) (key : Key) : Option Value :=
  (list.entries.find? (fun entry => entry.1 = key)).map Prod.snd

def contains (list : KeyedList Key Value) (key : Key) : Bool :=
  list.entries.any (fun entry => entry.1 = key)

def keys (list : KeyedList Key Value) : List Key :=
  list.entries.map Prod.fst

def size (list : KeyedList Key Value) : Nat :=
  list.entries.length

def isEmpty (list : KeyedList Key Value) : Bool :=
  list.entries.isEmpty

/-- Write all pairs, in order, into `list`. -/
def insertAll (list : KeyedList Key Value) (pairs : List (Key × Value)) : KeyedList Key Value :=
  pairs.foldl (fun acc pair => acc.insert pair.1 pair.2) list

/-- A repeated key keeps its first position and takes its last value. -/
def ofList (pairs : List (Key × Value)) : KeyedList Key Value :=
  empty.insertAll pairs

/-- Change the value under `key`, which starts from `initial` when the key is new. -/
def update (list : KeyedList Key Value) (key : Key) (initial : Value) (change : Value → Value) :
    KeyedList Key Value :=
  list.insert key (change ((list.get? key).getD initial))

/-- The two lists hold the same pairs, in whatever order. -/
def sameEntries [DecidableEq Value] (left right : KeyedList Key Value) : Bool :=
  left.size = right.size && left.entries.all (fun entry => right.get? entry.1 = some entry.2)

omit [DecidableEq Key] in
@[simp] theorem entries_empty : (empty : KeyedList Key Value).entries = [] := rfl

theorem get?_insert (list : KeyedList Key Value) (key other : Key) (value : Value) :
    (list.insert key value).get? other = if other = key then some value else list.get? other := by
  obtain ⟨pairs, distinct⟩ := list
  simp only [get?, insert]
  clear distinct
  induction pairs with
  | nil => by_cases same : key = other <;> simp [put, same, Ne.symm]
  | cons head tail ih =>
      obtain ⟨known, old⟩ := head
      unfold put
      by_cases same : known = key
      · subst known
        by_cases wanted : key = other
        · subst wanted; simp
        · simp [wanted, Ne.symm wanted]
      · simp only [same, if_false]
        by_cases wanted : known = other
        · subst wanted; simp [same]
        · simpa [wanted] using ih

theorem get?_eq_some_iff (list : KeyedList Key Value) (key : Key) (value : Value) :
    list.get? key = some value ↔ (key, value) ∈ list.entries := by
  obtain ⟨pairs, distinct⟩ := list
  simp only [get?]
  induction pairs with
  | nil => simp
  | cons head tail ih =>
      obtain ⟨known, old⟩ := head
      simp only [List.map_cons, List.nodup_cons] at distinct
      by_cases same : known = key
      · subst known
        have absent : (key, value) ∉ tail := fun member =>
          distinct.1 (List.mem_map.2 ⟨_, member, rfl⟩)
        simp [absent, eq_comm]
      · have flipped : key ≠ known := fun equal => same equal.symm
        simpa [same, flipped] using ih distinct.2

theorem contains_iff_mem_keys (list : KeyedList Key Value) (key : Key) :
    list.contains key = true ↔ key ∈ list.keys := by
  simp [contains, keys, List.any_eq_true]

theorem mem_keys_insert (list : KeyedList Key Value) (key other : Key) (value : Value) :
    other ∈ (list.insert key value).keys ↔ other = key ∨ other ∈ list.keys :=
  mem_keys_put key other value list.entries

end KeyedList
end LayeredConfig

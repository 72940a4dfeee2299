import LayeredConfig.Proofs.KeyedList
import LayeredConfig.Proofs.Property.ListSpellings
import Mathlib.Data.List.Nodup

namespace LayeredConfig

/-!
# Leaves under their paths

A document is flattened to one property for each leaf.  The key spells the path
to the leaf: the names on the way, joined by points, and positions in brackets.
Where no name holds a point or an opening bracket, a path can be read off its
spelling, step by step from the front, so that no leaf writes over another one.
-/

open Property (leafText flatten flattenEntries flattenItems fieldPath ofValue)
open Property.Source (itemKey)

namespace Yaml

/-! ## Steps and paths -/

/-- One step into a collection. -/
inductive Step where
  | field (name : String)
  | item (index : Nat)
deriving DecidableEq

/-- A name in which no path can be cut. -/
def IsPlainName (name : String) : Prop :=
  '.' ∉ name.toList ∧ '[' ∉ name.toList

instance (name : String) : Decidable (IsPlainName name) :=
  inferInstanceAs (Decidable (_ ∧ _))

/-- A name on the step, if there is one, is plain. -/
def Step.IsPlain : Step → Prop
  | .field name => IsPlainName name
  | .item _ => True

namespace Value

/-- Whether the value is a mapping, tags apart. -/
def isMapping : Value → Bool
  | .tagged _ inner => inner.isMapping
  | .mapping _ => true
  | _ => false

/-- The entry of a mapping as a step with what it leads to, when its key is a string. -/
def entryStep : Value × Value → Option (Step × Value)
  | (.string name, value) => some (.field name, value)
  | _ => none

/-- What a collection holds, each with the step to it, in order. -/
def children : Value → List (Step × Value)
  | .tagged _ inner => inner.children
  | .sequence items => items.zipIdx.map fun entry => (.item entry.2, entry.1)
  | .mapping entries => entries.filterMap entryStep
  | _ => []

/-- The value at the end of a path. -/
def at? (value : Value) : List Step → Option Value
  | [] => some value
  | step :: rest => (value.children.lookup step).bind fun child => child.at? rest

/-- The numbers of the children along a path.  Paths stand in the order of the document when
these are in lexicographic order. -/
def position (value : Value) : List Step → List Nat
  | [] => []
  | step :: rest =>
      (value.children.map Prod.fst).idxOf step ::
        ((value.children.lookup step).map fun child => child.position rest).getD []

/-- The keys of a mapping are plain names, each once. -/
def HasPlainKeys : Value → Prop
  | .tagged _ inner => inner.HasPlainKeys
  | .mapping entries => ∃ names : List String, entries.map Prod.fst = names.map .string ∧
      names.Nodup ∧ ∀ name ∈ names, IsPlainName name
  | _ => True

/-- The keys of all mappings, at every level, are plain names. -/
inductive PlainKeys : Value → Prop where
  | intro {value : Value} (here : value.HasPlainKeys)
      (inside : ∀ entry ∈ value.children, PlainKeys entry.2) : PlainKeys value

theorem sizeOf_child_lt {value : Value} {entry : Step × Value} (member : entry ∈ value.children) :
    sizeOf entry.2 < sizeOf value := by
  fun_induction children value with
  | case1 tag inner ih =>
      have smaller := ih member
      simp only [tagged.sizeOf_spec]
      omega
  | case2 items =>
      rcases List.mem_map.mp member with ⟨⟨item, index⟩, listed, rfl⟩
      have smaller := List.sizeOf_lt_of_mem (List.fst_mem_of_mem_zipIdx listed)
      simp only [sequence.sizeOf_spec] at smaller ⊢
      omega
  | case3 entries =>
      rcases List.mem_filterMap.mp member with ⟨⟨key, value⟩, listed, made⟩
      have smaller := List.sizeOf_lt_of_mem listed
      cases key <;> cases made
      simp only [Prod.mk.sizeOf_spec, mapping.sizeOf_spec] at smaller ⊢
      omega
  | case4 => cases member

/-- The paths to the leaves with their texts, in the order of the document. -/
def leaves (value : Value) : List (List Step × String) :=
  match leafText value with
  | some text => [([], text)]
  | none => value.children.attach.flatMap fun entry =>
      entry.1.2.leaves.map fun leaf => (entry.1.1 :: leaf.1, leaf.2)
termination_by sizeOf value
decreasing_by exact sizeOf_child_lt entry.2

theorem leaves_of_leaf {value : Value} {text : String} (leaf : leafText value = some text) :
    value.leaves = [([], text)] := by
  rw [leaves, leaf]

/-- The leaves of a collection are those of its children, each one step further away. -/
theorem leaves_of_collection {value : Value} (collection : leafText value = none) :
    value.leaves = value.children.flatMap fun entry =>
      entry.2.leaves.map fun leaf => (entry.1 :: leaf.1, leaf.2) := by
  rw [leaves, collection]
  simp only [List.flatMap_subtype, List.unattach_attach]

/-! ## The children of a value -/

theorem children_of_leaf {value : Value} {text : String} (leaf : leafText value = some text) :
    value.children = [] := by
  fun_induction leafText value with
  | case1 => rfl
  | case2 => rfl
  | case3 => rfl
  | case4 => rfl
  | case5 tag inner ih => exact ih leaf
  | case6 => cases leaf
  | case7 => cases leaf

theorem leafText_of_isMapping {value : Value} (mapping : value.isMapping = true) :
    leafText value = none := by
  fun_induction isMapping value with
  | case1 tag inner ih => exact ih mapping
  | case2 => rfl
  | case3 => cases mapping

theorem filterMap_string (name : String) (value : Value) (rest : List (Value × Value)) :
    ((.string name, value) :: rest).filterMap entryStep =
      (.field name, value) :: rest.filterMap entryStep :=
  rfl

/-- The steps into a mapping are its keys. -/
theorem steps_of_strings {entries : List (Value × Value)} {names : List String}
    (keys : entries.map Prod.fst = names.map .string) :
    (entries.filterMap entryStep).map Prod.fst = names.map .field := by
  induction entries generalizing names with
  | nil =>
      cases names with
      | nil => rfl
      | cons name others => cases keys
  | cons entry rest ih =>
      cases names with
      | nil => cases keys
      | cons name others =>
          rcases entry with ⟨key, value⟩
          rcases List.cons.inj keys with ⟨rfl, later⟩
          rw [filterMap_string, List.map_cons, ih later, List.map_cons]

/-- No step into a value with plain keys is taken twice, and the names on them are plain. -/
theorem HasPlainKeys.steps {value : Value} (plain : value.HasPlainKeys) :
    (value.children.map Prod.fst).Nodup ∧ ∀ entry ∈ value.children, entry.1.IsPlain := by
  fun_induction children value with
  | case1 tag inner ih => exact ih plain
  | case2 items =>
      have steps : (items.zipIdx.map fun entry => (Step.item entry.2, entry.1)).map Prod.fst =
          (items.zipIdx.map Prod.snd).map Step.item := by
        rw [List.map_map, List.map_map]
        rfl
      refine ⟨?_, fun entry member => ?_⟩
      · rw [steps, List.zipIdx_map_snd]
        exact (List.nodup_range' 1).map fun _ _ => Step.item.inj
      · rcases List.mem_map.mp member with ⟨_, _, rfl⟩
        trivial
  | case3 entries =>
      rcases plain with ⟨names, keys, distinct, each⟩
      have steps := steps_of_strings keys
      refine ⟨?_, fun entry member => ?_⟩
      · rw [steps]
        exact distinct.map fun _ _ => Step.field.inj
      · have listed := List.mem_map_of_mem (f := Prod.fst) member
        rw [steps] at listed
        rcases List.mem_map.mp listed with ⟨name, inside, same⟩
        rw [← same]
        exact each name inside
  | case4 => exact ⟨List.nodup_nil, fun _ member => by cases member⟩

end Value

/-! ## Flattening by children -/

/-- The text of a path that is one step longer. -/
def Step.below (path : Option String) : Step → String
  | .field name => fieldPath path name
  | .item index => itemKey (path.getD "") index

namespace Value

theorem flatten_of_leaf {value : Value} {text : String} (leaf : leafText value = some text)
    (path : String) : flatten (some path) value = [(path, text)] := by
  fun_induction leafText value with
  | case1 => cases leaf; simp [flatten, leafText]
  | case2 truth => cases leaf; simp [flatten, leafText]
  | case3 number => cases leaf; simp [flatten, leafText]
  | case4 content => cases leaf; simp [flatten, leafText]
  | case5 tag inner ih => rw [flatten, ih leaf]
  | case6 => cases leaf
  | case7 => cases leaf

theorem flattenItems_eq (path : String) (index : Nat) (items : List Value) :
    flattenItems path index items =
      (items.zipIdx index).flatMap fun entry => flatten (some (itemKey path entry.2)) entry.1 := by
  induction items generalizing index with
  | nil => rw [flattenItems, List.zipIdx_nil, List.flatMap_nil]
  | cons item rest ih => rw [flattenItems, ih, List.zipIdx_cons, List.flatMap_cons]

theorem flattenEntries_eq (path : Option String) {entries : List (Value × Value)}
    {names : List String} (keys : entries.map Prod.fst = names.map .string) :
    flattenEntries path entries =
      (entries.filterMap entryStep).flatMap fun entry =>
        flatten (some (entry.1.below path)) entry.2 := by
  induction entries generalizing names with
  | nil => rw [flattenEntries, List.filterMap_nil, List.flatMap_nil]
  | cons entry rest ih =>
      cases names with
      | nil => cases keys
      | cons name others =>
          rcases entry with ⟨key, value⟩
          rcases List.cons.inj keys with ⟨rfl, later⟩
          rw [flattenEntries, ih later, filterMap_string, List.flatMap_cons]
          rfl

/-- The properties of a collection are those of its children, each below the step to it. -/
theorem flatten_of_collection {value : Value} (collection : leafText value = none)
    (plain : value.HasPlainKeys) (path : Option String) :
    flatten path value =
      value.children.flatMap fun entry => flatten (some (entry.1.below path)) entry.2 := by
  fun_induction children value with
  | case1 tag inner ih => rw [flatten, ih collection plain]
  | case2 items =>
      rw [flatten, flattenItems_eq, List.flatMap_map]
      rfl
  | case3 entries =>
      rcases plain with ⟨names, keys, _⟩
      rw [flatten, flattenEntries_eq path keys]
  | case4 value untagged sequence mapping =>
      cases value with
      | null => cases collection
      | boolean truth => cases collection
      | number number => cases collection
      | string content => cases collection
      | sequence items => exact absurd rfl (sequence items)
      | mapping entries => exact absurd rfl (mapping entries)
      | tagged tag inner => exact absurd rfl (untagged tag inner)

end Value

/-! ## Paths as keys -/

/-- What a path adds to the text before it: names after points and positions in brackets. -/
def extension : List Step → String
  | [] => ""
  | .field name :: rest => "." ++ name ++ extension rest
  | .item index :: rest => "[" ++ toString index ++ "]" ++ extension rest

/-- The key of a path, which begins with the first name on it. -/
def pathKey : List Step → String
  | .field name :: rest => name ++ extension rest
  | path => extension path

theorem below_append_extension (outer : String) (step : Step) (rest : List Step) :
    step.below (some outer) ++ extension rest = outer ++ extension (step :: rest) := by
  cases step with
  | field name => simp only [Step.below, fieldPath, extension, String.append_assoc]
  | item index =>
      simp only [Step.below, itemKey, extension, Option.getD_some, String.append_assoc]

theorem below_append_pathKey (step : Step) (rest : List Step) :
    step.below none ++ extension rest = pathKey (step :: rest) := by
  cases step with
  | field name => rfl
  | item index =>
      simp only [Step.below, itemKey, pathKey, extension, Option.getD_none, String.append_assoc,
        String.empty_append]

namespace Value

variable {value : Value}

/-- Below a path the properties are the leaves, each under the path with its own added. -/
theorem flatten_eq (plain : value.PlainKeys) (outer : String) :
    flatten (some outer) value =
      value.leaves.map fun leaf => (outer ++ extension leaf.1, leaf.2) := by
  induction plain generalizing outer with
  | @intro value here _ ih =>
      cases leaf : leafText value with
      | some text =>
          rw [flatten_of_leaf leaf, leaves_of_leaf leaf, List.map_singleton, extension,
            String.append_empty]
      | none =>
          rw [flatten_of_collection leaf here, leaves_of_collection leaf, List.map_flatMap]
          refine List.flatMap_congr fun entry member => ?_
          rw [ih entry member, List.map_map]
          refine List.map_congr_left fun leaf _ => ?_
          rw [below_append_extension]
          rfl

theorem flatten_none_eq (plain : value.PlainKeys) (collection : leafText value = none) :
    flatten none value = value.leaves.map fun leaf => (pathKey leaf.1, leaf.2) := by
  rcases plain with ⟨here, inside⟩
  rw [flatten_of_collection collection here, leaves_of_collection collection, List.map_flatMap]
  refine List.flatMap_congr fun entry member => ?_
  rw [flatten_eq (inside entry member), List.map_map]
  refine List.map_congr_left fun leaf _ => ?_
  rw [below_append_pathKey]
  rfl

end Value

/-! ## Reading a path off its key -/

/-- The characters with which a step after the first begins. -/
def beginsStep (c : Char) : Bool :=
  c == '.' || c == '['

theorem toList_extension_field (name : String) (rest : List Step) :
    (extension (.field name :: rest)).toList =
      '.' :: (name.toList ++ (extension rest).toList) := by
  have point : ".".toList = ['.'] := by decide
  rw [extension, String.toList_append, String.toList_append, point, List.append_assoc]
  rfl

theorem toList_extension_item (index : Nat) (rest : List Step) :
    (extension (.item index :: rest)).toList =
      '[' :: ((toString index).toList ++ ']' :: (extension rest).toList) := by
  have opening : "[".toList = ['['] := by decide
  have closing : "]".toList = [']'] := by decide
  simp only [extension, String.toList_append, opening, closing, List.append_assoc,
    List.cons_append, List.nil_append]

theorem beginsWithMark_extension (path : List Step) :
    Text.BeginsWithMark beginsStep (extension path).toList := by
  intro c first
  match path with
  | [] => cases first
  | .field name :: rest =>
      rw [toList_extension_field] at first
      cases first
      decide
  | .item index :: rest =>
      rw [toList_extension_item] at first
      cases first
      decide

theorem IsPlainName.not_beginsStep {name : String} (plain : IsPlainName name) :
    ∀ c ∈ name.toList, beginsStep c = false := by
  intro c member
  rw [beginsStep, Bool.or_eq_false_iff, beq_eq_false_iff_ne, beq_eq_false_iff_ne]
  exact ⟨fun point => plain.1 (point ▸ member), fun opening => plain.2 (opening ▸ member)⟩

theorem name_inj {left right : String} {first second : List Step} (plainLeft : IsPlainName left)
    (plainRight : IsPlainName right)
    (same : left.toList ++ (extension first).toList = right.toList ++ (extension second).toList) :
    left = right ∧ (extension first).toList = (extension second).toList := by
  rcases Text.append_inj_of_marked same plainLeft.not_beginsStep plainRight.not_beginsStep
      (beginsWithMark_extension first) (beginsWithMark_extension second) with ⟨names, rests⟩
  exact ⟨String.toList_inj.mp names, rests⟩

theorem index_inj {left right : Nat} {first second : List Char}
    (same : (toString left).toList ++ ']' :: first = (toString right).toList ++ ']' :: second) :
    left = right ∧ first = second := by
  have digits : ∀ index : Nat, ∀ c ∈ (toString index).toList, (c == ']') = false := by
    intro index c member
    rw [beq_eq_false_iff_ne]
    rintro rfl
    exact Text.not_mem_digits (by decide) index member
  rcases Text.append_inj_of_marked same (digits left) (digits right)
      (fun c first => by cases first; rfl) (fun c first => by cases first; rfl)
    with ⟨numbers, rests⟩
  exact ⟨Text.toString_nat_inj numbers, (List.cons.inj rests).2⟩

/-- Paths with plain names are told apart by what they add. -/
theorem extension_inj {first second : List Step} (plainFirst : ∀ step ∈ first, step.IsPlain)
    (plainSecond : ∀ step ∈ second, step.IsPlain)
    (same : (extension first).toList = (extension second).toList) : first = second := by
  induction first generalizing second with
  | nil =>
      match second with
      | [] => rfl
      | .field name :: rest => rw [toList_extension_field] at same; cases same
      | .item index :: rest => rw [toList_extension_item] at same; cases same
  | cons step rest ih =>
      rw [List.forall_mem_cons] at plainFirst
      match step, second with
      | .field name, [] => rw [toList_extension_field] at same; cases same
      | .item index, [] => rw [toList_extension_item] at same; cases same
      | .field name, .item index :: others =>
          rw [toList_extension_field, toList_extension_item] at same
          exact absurd (List.cons.inj same).1 (by decide)
      | .item index, .field name :: others =>
          rw [toList_extension_item, toList_extension_field] at same
          exact absurd (List.cons.inj same).1 (by decide)
      | .field name, .field other :: others =>
          rw [List.forall_mem_cons] at plainSecond
          rw [toList_extension_field, toList_extension_field] at same
          rcases name_inj plainFirst.1 plainSecond.1 (List.cons.inj same).2 with ⟨rfl, rests⟩
          rw [ih plainFirst.2 plainSecond.2 rests]
      | .item index, .item other :: others =>
          rw [List.forall_mem_cons] at plainSecond
          rw [toList_extension_item, toList_extension_item] at same
          rcases index_inj (List.cons.inj same).2 with ⟨rfl, rests⟩
          rw [ih plainFirst.2 plainSecond.2 rests]

theorem pathKey_inj {left right : String} {first second : List Step}
    (plainFirst : ∀ step ∈ .field left :: first, step.IsPlain)
    (plainSecond : ∀ step ∈ .field right :: second, step.IsPlain)
    (same : pathKey (.field left :: first) = pathKey (.field right :: second)) :
    Step.field left :: first = .field right :: second := by
  rw [List.forall_mem_cons] at plainFirst plainSecond
  have lists := congrArg String.toList same
  rw [pathKey, pathKey, String.toList_append, String.toList_append] at lists
  rcases name_inj plainFirst.1 plainSecond.1 lists with ⟨rfl, rests⟩
  rw [extension_inj plainFirst.2 plainSecond.2 rests]

namespace Value

variable {value : Value}

/-! ## The leaves of a value -/

theorem cons_mem_leaves_iff (collection : leafText value = none) {step : Step}
    {path : List Step} {text : String} :
    (step :: path, text) ∈ value.leaves ↔
      ∃ child, (step, child) ∈ value.children ∧ (path, text) ∈ child.leaves := by
  rw [leaves_of_collection collection, List.mem_flatMap]
  constructor
  · rintro ⟨entry, member, below⟩
    rcases List.mem_map.mp below with ⟨leaf, inside, same⟩
    cases same
    exact ⟨entry.2, member, inside⟩
  · rintro ⟨child, member, inside⟩
    exact ⟨(step, child), member, List.mem_map.mpr ⟨(path, text), inside, rfl⟩⟩

theorem nil_not_mem_leaves (collection : leafText value = none) (text : String) :
    ([], text) ∉ value.leaves := by
  rw [leaves_of_collection collection, List.mem_flatMap]
  rintro ⟨entry, _, below⟩
  rcases List.mem_map.mp below with ⟨leaf, _, same⟩
  cases same

/-- A step leads to the child that stands with it. -/
theorem lookup_eq_some_iff (plain : value.HasPlainKeys) {step : Step} {child : Value} :
    value.children.lookup step = some child ↔ (step, child) ∈ value.children := by
  have distinct := plain.steps.1
  rw [List.lookup_eq_some_iff]
  constructor
  · rintro ⟨before, after, split, _⟩
    rw [split]
    exact List.mem_append_right _ List.mem_cons_self
  · intro member
    rcases List.append_of_mem member with ⟨before, after, split⟩
    refine ⟨before, after, split, fun entry earlier => ?_⟩
    rw [split, List.map_append, List.map_cons, List.nodup_append] at distinct
    rw [bne_iff_ne]
    rintro rfl
    exact distinct.2.2 _ (List.mem_map_of_mem earlier) _ List.mem_cons_self rfl

/-- The leaves are what stands at the end of a path and has a text. -/
theorem mem_leaves_iff (plain : value.PlainKeys) {path : List Step} {text : String} :
    (path, text) ∈ value.leaves ↔ (value.at? path).bind leafText = some text := by
  induction plain generalizing path with
  | @intro value here _ ih =>
      cases leaf : leafText value with
      | some content =>
          rw [leaves_of_leaf leaf, List.mem_singleton, Prod.mk.injEq]
          cases path with
          | nil =>
              rw [at?, Option.bind_some, leaf, Option.some.injEq, eq_self, true_and]
              exact eq_comm
          | cons step rest => simp [at?, children_of_leaf leaf]
      | none =>
          cases path with
          | nil =>
              rw [at?, Option.bind_some, leaf]
              exact iff_of_false (nil_not_mem_leaves leaf text) nofun
          | cons step rest =>
              rw [cons_mem_leaves_iff leaf, at?, Option.bind_assoc, Option.bind_eq_some_iff]
              constructor
              · rintro ⟨child, member, inside⟩
                exact ⟨child, (lookup_eq_some_iff here).mpr member, (ih _ member).mp inside⟩
              · rintro ⟨child, found, inside⟩
                have member := (lookup_eq_some_iff here).mp found
                exact ⟨child, member, (ih _ member).mpr inside⟩

theorem plain_of_mem_leaves (plain : value.PlainKeys) {leaf : List Step × String}
    (member : leaf ∈ value.leaves) : ∀ step ∈ leaf.1, step.IsPlain := by
  induction plain generalizing leaf with
  | @intro value here _ ih =>
      rcases leaf with ⟨path, text⟩
      cases collection : leafText value with
      | some content =>
          rw [leaves_of_leaf collection, List.mem_singleton, Prod.mk.injEq] at member
          rw [member.1]
          exact List.forall_mem_nil _
      | none =>
          cases path with
          | nil => exact List.forall_mem_nil _
          | cons step rest =>
              rcases (cons_mem_leaves_iff collection).mp member with ⟨child, inside, below⟩
              exact List.forall_mem_cons.mpr ⟨here.steps.2 _ inside, ih _ inside below⟩

/-! ## The order of the document -/

theorem position_cons (plain : value.HasPlainKeys) {step : Step} {child : Value}
    (member : (step, child) ∈ value.children) (rest : List Step) :
    value.position (step :: rest) =
      (value.children.map Prod.fst).idxOf step :: child.position rest := by
  rw [position, (lookup_eq_some_iff plain).mpr member]
  rfl

/-- Of two children the one that stands first has the lower number. -/
theorem pairwise_children (plain : value.HasPlainKeys) :
    value.children.Pairwise fun first second =>
      (value.children.map Prod.fst).idxOf first.1 <
        (value.children.map Prod.fst).idxOf second.1 := by
  have distinct := plain.steps.1
  have numbers : ∀ index (inside : index < value.children.length),
      (value.children.map Prod.fst).idxOf value.children[index].1 = index := by
    intro index inside
    have numbered := distinct.idxOf_getElem index (by rwa [List.length_map])
    rwa [List.getElem_map] at numbered
  rw [List.pairwise_iff_getElem]
  intro early late earlyIn lateIn before
  rwa [numbers, numbers]

/-- The leaves stand in the order of the document. -/
theorem pairwise_leaves (plain : value.PlainKeys) :
    value.leaves.Pairwise fun first second =>
      value.position first.1 < value.position second.1 := by
  induction plain with
  | @intro value here _ ih =>
      cases leaf : leafText value with
      | some text =>
          rw [leaves_of_leaf leaf]
          exact List.pairwise_singleton _ _
      | none =>
          rw [leaves_of_collection leaf, List.pairwise_flatMap]
          constructor
          · intro entry member
            rw [List.pairwise_map]
            refine (ih entry member).imp fun before => ?_
            rw [position_cons here member, position_cons here member, List.cons_lt_cons_iff]
            exact .inr ⟨rfl, before⟩
          · refine (pairwise_children here).imp_of_mem fun firstIn secondIn before => ?_
            intro first firstBelow second secondBelow
            rcases List.mem_map.mp firstBelow with ⟨_, _, rfl⟩
            rcases List.mem_map.mp secondBelow with ⟨_, _, rfl⟩
            rw [position_cons here firstIn, position_cons here secondIn, List.cons_lt_cons_iff]
            exact .inl before

/-! ## Main result -/

/-- Every leaf of a mapping is at the end of a path that begins with a name. -/
theorem exists_field_of_mem_leaves (mapping : value.isMapping = true) {leaf : List Step × String}
    (member : leaf ∈ value.leaves) : ∃ name rest, leaf.1 = .field name :: rest := by
  have collection := leafText_of_isMapping mapping
  rcases leaf with ⟨path, text⟩
  cases path with
  | nil => exact absurd member (nil_not_mem_leaves collection text)
  | cons step rest =>
      rcases (cons_mem_leaves_iff collection).mp member with ⟨child, inside, _⟩
      have field : ∃ name, step = .field name := by
        clear member collection
        fun_induction children value with
        | case1 tag inner ih => exact ih mapping inside
        | case2 items => cases mapping
        | case3 entries =>
            rcases List.mem_filterMap.mp inside with ⟨⟨key, value⟩, _, made⟩
            cases key <;> cases made
            exact ⟨_, rfl⟩
        | case4 => cases inside
      rcases field with ⟨name, rfl⟩
      exact ⟨name, rest, rfl⟩

/-- No two leaves of a mapping have one key. -/
theorem nodup_pathKeys (mapping : value.isMapping = true) (plain : value.PlainKeys) :
    (value.leaves.map fun leaf => pathKey leaf.1).Nodup := by
  rw [List.Nodup, List.pairwise_map]
  refine (pairwise_leaves plain).imp_of_mem fun {first second} firstIn secondIn before same => ?_
  have plainFirst := plain_of_mem_leaves plain firstIn
  have plainSecond := plain_of_mem_leaves plain secondIn
  rcases exists_field_of_mem_leaves mapping firstIn with ⟨left, lefts, firstPath⟩
  rcases exists_field_of_mem_leaves mapping secondIn with ⟨right, rights, secondPath⟩
  rw [firstPath] at plainFirst
  rw [secondPath] at plainSecond
  rw [firstPath, secondPath] at same before
  rw [pathKey_inj plainFirst plainSecond same] at before
  exact List.lt_irrefl _ before

/-- A mapping whose keys are plain names at every level is flattened to one property for each
leaf, with its text under the key that spells its path; the properties stand in the order of the
document, and no two leaves have one key. -/
theorem leaves_kept_under_paths (mapping : value.isMapping = true) (plain : value.PlainKeys) :
    (ofValue value).entries = value.leaves.map (fun leaf => (pathKey leaf.1, leaf.2)) ∧
      (value.leaves.map fun leaf => pathKey leaf.1).Nodup ∧
      (∀ path text, (path, text) ∈ value.leaves ↔
        (value.at? path).bind leafText = some text) ∧
      value.leaves.Pairwise fun first second =>
        value.position first.1 < value.position second.1 := by
  have distinct := nodup_pathKeys mapping plain
  refine ⟨?_, distinct, fun path text => mem_leaves_iff plain, pairwise_leaves plain⟩
  rw [ofValue, flatten_none_eq plain (leafText_of_isMapping mapping)]
  refine KeyedList.entries_ofList ?_
  rwa [List.map_map]

/-- A mapping with a tagged sequence that holds a mapping and another sequence. -/
def nested : Value :=
  .mapping [
    (.string "hosts", .tagged "set" (.sequence [
      .mapping [(.string "name", .tagged "id" (.string "a")), (.string "port", .null)],
      .sequence [.boolean true]])),
    (.string "hosts1", .string "b")]

theorem plainKeys_nested : nested.PlainKeys := by
  have leaf : ∀ {value : Value}, value.children = [] → value.HasPlainKeys → value.PlainKeys :=
    fun none here => .intro here fun entry member => by rw [none] at member; cases member
  have host : (mapping [(.string "name", .tagged "id" (.string "a")),
      (.string "port", .null)]).PlainKeys := by
    refine .intro ⟨["name", "port"], rfl, by decide, by decide⟩ ?_
    exact List.forall_mem_cons.mpr ⟨leaf rfl trivial, List.forall_mem_singleton.mpr
      (leaf rfl trivial)⟩
  have flags : (sequence [.boolean true]).PlainKeys :=
    .intro trivial (List.forall_mem_singleton.mpr (leaf rfl trivial))
  refine .intro ⟨["hosts", "hosts1"], rfl, by decide, by decide⟩ ?_
  refine List.forall_mem_cons.mpr ⟨.intro trivial ?_, List.forall_mem_singleton.mpr
    (leaf rfl trivial)⟩
  exact List.forall_mem_cons.mpr ⟨host, List.forall_mem_singleton.mpr flags⟩

theorem leaves_kept_under_paths_nested :
    nested.isMapping = true ∧ nested.PlainKeys ∧
      (ofValue nested).entries = [("hosts[0].name", "a"), ("hosts[0].port", ""),
        ("hosts[1][0]", "true"), ("hosts1", "b")] ∧
      ([.field "hosts", .item 0, .field "port"], "") ∈ nested.leaves ∧
      nested.position [.field "hosts", .item 0, .field "port"] = [0, 0, 1] := by
  rcases @leaves_kept_under_paths nested rfl plainKeys_nested with ⟨_, _, leaves, _⟩
  exact ⟨rfl, plainKeys_nested, by decide, (leaves _ _).mpr (by decide), by decide⟩

end Value
end Yaml
end LayeredConfig

import LayeredConfig.Proofs.Property.Layers
import Mathlib.Data.List.Induction

namespace LayeredConfig
namespace Property
namespace Sources

/-!
# Distinct names through any run of operations

Adding a source first takes away the one of its name, so names that are distinct
stay distinct.  Replacing does not: a source that takes the place of another one
may have the name of a third.  That is the only way in which a name comes to be
repeated.  While names are distinct, the source that is named as the origin of a
key holds the value of that key.
-/

/-- What can be done to a list of sources. -/
inductive Operation where
  | addFirst (source : Source)
  | addLast (source : Source)
  | addBefore (relative : String) (source : Source)
  | addAfter (relative : String) (source : Source)
  | replace (name : String) (source : Source)
  | erase (name : String)

namespace Operation

def apply (sources : Sources) : Operation → Sources
  | addFirst source => sources.addFirst source
  | addLast source => sources.addLast source
  | addBefore relative source => sources.addBefore relative source
  | addAfter relative source => sources.addAfter relative source
  | replace name source => sources.replace name source
  | erase name => sources.erase name

/-- The operation puts a source in the place of another one while a third has its name. -/
def Collides (sources : Sources) : Operation → Prop
  | replace name source =>
      name ∈ sources.names ∧ source.name ≠ name ∧ source.name ∈ sources.names
  | _ => False

end Operation

/-- The sources after some operations on none. -/
def run (operations : List Operation) : Sources :=
  operations.foldl Operation.apply empty

theorem run_concat (operations : List Operation) (operation : Operation) :
    run (operations ++ [operation]) = operation.apply (run operations) := by
  rw [run, List.foldl_append]
  rfl

/-! ## One operation -/

/-- A source joins the others at one place among them. -/
theorem exists_split_insertAfter (relative : String) (inserted : Source) (layers : List Source) :
    ∃ before after, layers = before ++ after ∧
      insertAfter relative inserted layers = before ++ inserted :: after := by
  induction layers with
  | nil => exact ⟨[], [], rfl, rfl⟩
  | cons head tail ih =>
      unfold insertAfter
      split
      · exact ⟨[head], tail, rfl, rfl⟩
      · rcases ih with ⟨before, after, split, joined⟩
        exact ⟨head :: before, after, by rw [split, List.cons_append],
          by rw [joined, List.cons_append]⟩

/-- Names stay distinct when a source joins those of other names. -/
theorem nodup_names_joined {sources : Sources} (distinct : sources.names.Nodup) {source : Source}
    {before after : List Source} (split : (sources.erase source.name).layers = before ++ after) :
    ((before ++ source :: after).map Source.name).Nodup :=
  List.nodup_iff_count_le_one.mpr fun name =>
    count_names_joined split (List.nodup_iff_count_le_one.mp distinct name)

/-- A source that takes the place of another one leaves names distinct when it has the old name
or one that no source has. -/
theorem nodup_names_replace_iff {sources : Sources} (distinct : sources.names.Nodup)
    (name : String) (source : Source) :
    (sources.replace name source).names.Nodup ↔
      (name ∈ sources.names → source.name = name ∨ source.name ∉ sources.names) := by
  cases found : sources.find? name with
  | none =>
      have absent := (find?_eq_none_iff sources name).mp found
      have unchanged : sources.replace name source = sources := by
        obtain ⟨layers⟩ := sources
        rw [replace, Sources.mk.injEq]
        clear distinct found
        induction layers with
        | nil => rfl
        | cons head tail ih =>
            rw [names, List.map_cons, List.mem_cons, not_or] at absent
            rw [replaceLayer, if_neg (Ne.symm absent.1), ih absent.2]
      rw [unchanged]
      exact ⟨fun _ member => absurd member absent, fun _ => distinct⟩
  | some layer =>
      rcases exists_split_of_find found with ⟨named, before, after, split, fresh⟩
      have joined : (sources.replace name source).names =
          (before ++ source :: after).map Source.name := by
        rw [names, replace, split, replaceLayer_append source named fresh]
      have whole : sources.names = (before ++ layer :: after).map Source.name := by
        rw [names, split]
      have others : ((before ++ after).map Source.name).Nodup ∧
          name ∉ (before ++ after).map Source.name := by
        rw [whole, List.map_append, List.map_cons, List.nodup_middle, List.nodup_cons, named,
          ← List.map_append] at distinct
        exact distinct.symm
      have among : ∀ other, other ∈ sources.names ↔
          other = name ∨ other ∈ (before ++ after).map Source.name := by
        intro other
        rw [whole, List.map_append, List.map_cons, List.mem_append, List.mem_cons, named,
          List.map_append, List.mem_append]
        exact or_left_comm
      rw [joined, List.map_append, List.map_cons, List.nodup_middle, List.nodup_cons,
        ← List.map_append]
      constructor
      · rintro ⟨free, -⟩ -
        rw [among, not_or]
        by_cases same : source.name = name
        · exact Or.inl same
        · exact Or.inr ⟨same, free⟩
      · intro allowed
        refine ⟨?_, others.1⟩
        rcases allowed ((among name).mpr (Or.inl rfl)) with same | new
        · rw [same]
          exact others.2
        · exact fun member => new ((among _).mpr (Or.inr member))

/-- Distinct names stay distinct unless a replacement collides. -/
theorem nodup_names_apply_iff {sources : Sources} (distinct : sources.names.Nodup)
    (operation : Operation) :
    (operation.apply sources).names.Nodup ↔ ¬ operation.Collides sources := by
  cases operation with
  | addFirst source =>
      refine iff_of_true ?_ id
      exact nodup_names_joined distinct (List.nil_append _).symm
  | addLast source =>
      refine iff_of_true ?_ id
      exact nodup_names_joined distinct (List.append_nil _).symm
  | addBefore relative source =>
      refine iff_of_true ?_ id
      rw [Operation.apply, addBefore, names, insertBefore_eq]
      exact nodup_names_joined distinct List.takeWhile_append_dropWhile.symm
  | addAfter relative source =>
      refine iff_of_true ?_ id
      rcases exists_split_insertAfter relative source (sources.erase source.name).layers with
        ⟨before, after, split, joined⟩
      rw [Operation.apply, addAfter, names, joined]
      exact nodup_names_joined distinct split
  | replace name source =>
      rw [Operation.apply, nodup_names_replace_iff distinct, Operation.Collides]
      tauto
  | erase name =>
      refine iff_of_true ?_ id
      rw [Operation.apply, names_erase]
      exact distinct.erase name

/-! ## Runs -/

/-- Names are distinct all the way exactly when no replacement on the way collides. -/
theorem nodup_names_run_iff (operations : List Operation) :
    (∀ earlier, earlier <+: operations → (run earlier).names.Nodup) ↔
      ∀ earlier operation, earlier ++ [operation] <+: operations →
        ¬ operation.Collides (run earlier) := by
  constructor
  · intro distinct earlier operation reached
    have before := distinct earlier ((List.prefix_append earlier [operation]).trans reached)
    have after := distinct _ reached
    rw [run_concat] at after
    exact (nodup_names_apply_iff before operation).mp after
  · intro clear earlier
    induction earlier using List.reverseRecOn with
    | nil => exact fun _ => List.nodup_nil
    | append_singleton earlier operation ih =>
        intro reached
        have before := ih ((List.prefix_append earlier [operation]).trans reached)
        rw [run_concat]
        exact (nodup_names_apply_iff before operation).mpr (clear earlier operation reached)

/-- The value of a key as the source that is named as its origin holds it. -/
def valueAtOrigin? (sources : Sources) (key : String) : Option String :=
  (sources.origin? key).bind fun name => (sources.find? name).bind fun source => source.get? key

/-- Where names are distinct, the origin of a key holds its value. -/
theorem valueAtOrigin?_eq {sources : Sources} (distinct : sources.names.Nodup) (key : String) :
    sources.valueAtOrigin? key = sources.get? key := by
  cases holder : sources.layers.find? fun layer => layer.contains key with
  | none =>
      have nowhere : sources.get? key = none := by
        rw [get?, List.findSome?_eq_none_iff]
        intro layer member
        rw [← Option.not_isSome_iff_eq_none, isSome_get?_iff]
        exact List.find?_eq_none.mp holder layer member
      rw [nowhere, valueAtOrigin?, origin?, holder]
      rfl
  | some layer =>
      rcases List.find?_eq_some_iff_append.mp holder with ⟨holds, before, after, split, others⟩
      have found := find?_append split rfl (not_mem_names_others distinct split).1
      have silent : before.findSome? (fun other => other.get? key) = none := by
        rw [List.findSome?_eq_none_iff]
        intro other member
        rw [← Option.not_isSome_iff_eq_none, isSome_get?_iff]
        simpa using others other member
      obtain ⟨value, held⟩ := Option.isSome_iff_exists.mp ((isSome_get?_iff layer key).mpr holds)
      rw [valueAtOrigin?, origin?, holder, Option.map_some, Option.bind_some, found,
        Option.bind_some, held, get?, split, List.findSome?_append, silent, Option.none_or,
        List.findSome?_cons, held]

/-- After any operations on no sources: names have been distinct all the way exactly when no
replacement gave a source the name of a third one, and while they are distinct the value of a key
is the one that the source named as its origin holds. -/
theorem distinct_unless_replaced (operations : List Operation) :
    ((∀ earlier, earlier <+: operations → (run earlier).names.Nodup) ↔
      ∀ earlier operation, earlier ++ [operation] <+: operations →
        ¬ operation.Collides (run earlier)) ∧
    ((run operations).names.Nodup →
      ∀ key, (run operations).get? key = (run operations).valueAtOrigin? key) :=
  ⟨nodup_names_run_iff operations, fun distinct key => (valueAtOrigin?_eq distinct key).symm⟩

/-- Two sources, of which the first is replaced by an empty one that has the name of the second. -/
def replacingByNamesake : List Operation :=
  [.addLast (Source.named "a"), .addLast ((Source.named "b").set "port" "80"),
    .replace "a" (Source.named "b")]

/-- Both sources are then called `b`, and the first of them, which is the one that the name finds,
does not hold the key. -/
theorem namesake_repeated :
    (run replacingByNamesake).names = ["b", "b"] ∧
      (run replacingByNamesake).get? "port" = some "80" ∧
      (run replacingByNamesake).valueAtOrigin? "port" = none := by
  decide

/-- A source is added twice and then replaced by one of its own name. -/
def replacingInPlace : List Operation :=
  [.addFirst (Source.named "a"), .addAfter "a" (Source.named "b"),
    .addBefore "b" (Source.named "a"), .replace "a" ((Source.named "a").set "port" "80")]

theorem distinct_unless_replaced_inPlace :
    (run replacingInPlace).names = ["a", "b"] ∧ (run replacingInPlace).names.Nodup ∧
      (run replacingInPlace).valueAtOrigin? "port" = some "80" := by
  have clear : ∀ earlier operation, earlier ++ [operation] <+: replacingInPlace →
      ¬ operation.Collides (run earlier) := by
    rintro earlier operation ⟨rest, split⟩
    rcases earlier with _ | ⟨first, _ | ⟨second, _ | ⟨third, _ | ⟨fourth, more⟩⟩⟩⟩ <;>
      simp only [replacingInPlace, List.nil_append, List.cons_append, List.cons.injEq] at split
    · exact split.1 ▸ id
    · exact split.2.1 ▸ id
    · exact split.2.2.1 ▸ id
    · exact split.2.2.2.1 ▸ fun collides => collides.2.1 rfl
    · exact absurd split.2.2.2.2 (by simp)
  have distinct := (distinct_unless_replaced replacingInPlace).1.mpr clear _ List.prefix_rfl
  refine ⟨by decide, distinct, ?_⟩
  rw [← (distinct_unless_replaced replacingInPlace).2 distinct "port"]
  decide

end Sources
end Property
end LayeredConfig

import LayeredConfig.Proofs.Placeholder.Nesting
import Mathlib

namespace LayeredConfig
namespace Placeholder

/-!
# One set of keys for all calls

The keys that are being resolved can be kept in one set that all calls share.  A
call puts the key into the set, resolves what the key stands for and takes the key
out again, so that a call that succeeds leaves the set as it found it, and what
stands later in a text is resolved as if it stood alone.

Values need not be finite in number here.  Where they are, the recursion ends with
what the text resolves to.
-/

/-! ## Computations on the set -/

/-- A computation on the set of keys that are being resolved. -/
abbrev Shared (Result : Type) : Type :=
  StateT (Finset String) (ExceptT Error Option) Result

/-- Compute with the key in the set, and take it out again. -/
def holding {Result : Type} (name : String) (inner : Shared Result) : Shared Result := do
  modify (insert name)
  let result ← inner
  modify (Finset.erase · name)
  return result

/-- On the set the computation has the outcome, and it leaves the set as it found it. -/
def Leaves {Result : Type} (keys : Finset String) (computation : Shared Result)
    (outcome : ExceptT Error Option Result) : Prop :=
  computation.run keys = (fun result => (result, keys)) <$> outcome

namespace Leaves

variable {Item Result Next : Type} {keys : Finset String}

theorem pure (result : Result) : Leaves keys (Pure.pure result) (Pure.pure result) := by
  simp [Leaves]

theorem throw (error : Error) :
    Leaves keys (throw error : Shared Result) (MonadExcept.throw error) := by
  rfl

theorem get_bind {next : Finset String → Shared Result} {outcome : ExceptT Error Option Result}
    (leaves : Leaves keys (next keys) outcome) : Leaves keys (get >>= next) outcome := by
  rwa [Leaves, StateT.run_bind, StateT.run_get, pure_bind]

theorem bind {first : Shared Item} {outcome : ExceptT Error Option Item}
    {next : Item → Shared Result} {after : Item → ExceptT Error Option Result}
    (leaves : Leaves keys first outcome) (leavesNext : ∀ item, Leaves keys (next item) (after item)) :
    Leaves keys (first >>= next) (outcome >>= after) := by
  unfold Leaves at *
  simp only [StateT.run_bind, leaves, bind_map_left, leavesNext, map_bind]

theorem map {computation : Shared Item} {outcome : ExceptT Error Option Item}
    (change : Item → Result) (leaves : Leaves keys computation outcome) :
    Leaves keys (change <$> computation) (change <$> outcome) := by
  unfold Leaves at *
  simp only [StateT.run_map, leaves, Functor.map_map]

theorem mapM {step : Item → Shared Result} {outcome : Item → ExceptT Error Option Result}
    {items : List Item} (each : ∀ item ∈ items, Leaves keys (step item) (outcome item)) :
    Leaves keys (items.mapM step) (items.mapM outcome) := by
  induction items with
  | nil => exact pure []
  | cons head tail ih =>
      rw [List.mapM_cons, List.mapM_cons]
      refine bind (each head List.mem_cons_self) fun result => ?_
      exact bind (ih fun item later => each item (List.mem_cons_of_mem _ later)) fun results =>
        pure (result :: results)

theorem keys_eq {computation : Shared Result} {outcome : ExceptT Error Option Result}
    (leaves : Leaves keys computation outcome) {result : Result} {after : Finset String}
    (ends : computation.run keys = ended (.ok (result, after))) : after = keys := by
  have same : ended (.ok (result, after)) = (fun result => (result, keys)) <$> outcome :=
    ends.symm.trans leaves
  match outcome, same with
  | some (.ok _), same =>
      cases same
      rfl

/-- The key is in the set only for as long as it is held. -/
theorem holding {name : String} {inner : Shared Result} {outcome : ExceptT Error Option Result}
    (fresh : name ∉ keys) (leaves : Leaves (insert name keys) inner outcome) :
    Leaves keys (holding name inner) outcome := by
  unfold Leaves at *
  simp [Placeholder.holding, leaves, Finset.erase_insert fresh]

end Leaves

/-! ## Resolution with the set -/

/-- What a call makes of a segment.  The texts that have to be resolved in turn are handed to
`inner`. -/
def sharedPart (values : String → Option String) (mode : Mode)
    (inner : List Char → Shared (List Char)) (text : List Char) : Segment → Shared (List Char)
  | .literal plain => pure plain
  | .reference key fallback =>
      (if hasReferences key then inner key else pure key) >>= fun resolved =>
        let name := String.ofList resolved
        get >>= fun keys =>
          if name ∈ keys then throw (.unresolvablePlaceholder name (String.ofList text))
          else
            holding name <|
              match values name, fallback, mode with
              | some value, _, _ => inner value.toList
              | none, some other, _ => inner other
              | none, none, .lenient => pure ('$' :: '{' :: resolved ++ ['}'])
              | none, none, .strict => throw (.unresolvablePlaceholder name (String.ofList text))

/-- Resolve a text through at most `depth` calls inside one another; nothing comes of it when they
go deeper. -/
def resolveShared (values : String → Option String) (mode : Mode) :
    (depth : Nat) → List Char → Shared (List Char)
  | 0, _ => StateT.lift (ExceptT.mk none)
  | depth + 1, text =>
      List.flatten <$> (segments text).mapM (sharedPart values mode
        (resolveShared values mode depth) text)

/-- A call leaves the set as it found it if the calls in it do. -/
theorem leaves_sharedPart {lookup : Lookup} {mode : Mode} {inner : List Char → Shared (List Char)}
    {outcome : List String → List Char → ExceptT Error Option (List Char)}
    (each : ∀ visiting text, Leaves visiting.toFinset (inner text) (outcome visiting text))
    (visiting : List String) (text : List Char) (part : Segment) :
    Leaves visiting.toFinset (sharedPart lookup.get? mode inner text part)
      (callPart lookup mode outcome visiting text part) := by
  cases part with
  | literal plain => exact .pure plain
  | reference key fallback =>
      have first : Leaves visiting.toFinset (if hasReferences key then inner key else pure key)
          (if hasReferences key then outcome visiting key else pure key) := by
        split
        · exact each visiting key
        · exact .pure key
      rw [sharedPart, callPart]
      refine first.bind fun resolved => .get_bind ?_
      by_cases met : String.ofList resolved ∈ visiting
      · rw [if_pos (List.mem_toFinset.mpr met)]
        dsimp only
        rw [if_pos met]
        exact .throw _
      · have fresh : String.ofList resolved ∉ visiting.toFinset :=
          fun member => met (List.mem_toFinset.mp member)
        rw [if_neg fresh]
        dsimp only
        rw [if_neg met]
        refine .holding fresh ?_
        rw [← List.toFinset_cons]
        cases lookup.get? (String.ofList resolved) with
        | some value => exact each _ value.toList
        | none =>
            cases fallback with
            | some other => exact each _ other
            | none =>
                cases mode with
                | lenient => exact .pure _
                | strict => exact .throw _

/-- The recursion with one set for all calls is the one in which each call is handed the keys that
are being resolved. -/
theorem leaves_resolveShared (lookup : Lookup) (mode : Mode) (depth : Nat)
    (visiting : List String) (text : List Char) :
    Leaves visiting.toFinset (resolveShared lookup.get? mode depth text)
      (resolveWithin lookup mode depth visiting text) := by
  induction depth generalizing visiting text with
  | zero => rfl
  | succ depth ih =>
      rw [resolveShared, resolveWithin, call]
      exact .map _ (.mapM fun part _ => leaves_sharedPart ih visiting text part)

/-- A call that succeeds leaves the set as it found it. -/
theorem keys_eq_of_resolveShared (lookup : Lookup) {mode : Mode} {depth : Nat}
    {text out : List Char} {keys after : Finset String}
    (resolved : (resolveShared lookup.get? mode depth text).run keys = ended (.ok (out, after))) :
    after = keys := by
  have leaves := leaves_resolveShared lookup mode depth keys.toList text
  rw [Finset.toList_toFinset] at leaves
  exact leaves.keys_eq resolved

/-! ## Outcomes -/

/-- Resolving the text with these values comes to an end with the outcome. -/
def EndsIn (values : String → Option String) (mode : Mode) (text : String)
    (outcome : Except Error String) : Prop :=
  ∃ enough, ∀ depth, enough ≤ depth →
    (fun reached => String.ofList reached.1) <$>
      (resolveShared values mode depth text.toList).run ∅ = ended outcome

/-- Where the values are finite in number, the recursion ends with what the text resolves to. -/
theorem endsIn_iff (lookup : Lookup) {mode : Mode} {text : String}
    {outcome : Except Error String} :
    EndsIn lookup.get? mode text outcome ↔ resolve lookup mode text = outcome := by
  have within : ∀ depth, lookup.nesting text ≤ depth →
      (fun reached => String.ofList reached.1) <$>
        (resolveShared lookup.get? mode depth text.toList).run ∅ =
          ended (resolve lookup mode text) := by
    intro depth enough
    have leaves := leaves_resolveShared lookup mode depth [] text.toList
    rw [Leaves, List.toFinset_nil] at leaves
    rw [leaves, Functor.map_map]
    exact (settles_resolve lookup mode text).ends depth enough
  constructor
  · rintro ⟨enough, ends⟩
    have deep := ends (max enough (lookup.nesting text)) (le_max_left _ _)
    rw [within _ (le_max_right _ _)] at deep
    exact Option.some.inj deep
  · rintro rfl
    exact ⟨lookup.nesting text, within⟩

/-- The text resolves to `out` in both modes whatever values there are, finite in number or not. -/
structure Fixed (text out : String) : Prop where
  resolves : ∀ lookup mode, resolve lookup mode text = .ok out
  ends : ∀ values mode, EndsIn values mode text (.ok out)

theorem fixed_of_endsIn {text out : String}
    (ends : ∀ values mode, EndsIn values mode text (.ok out)) : Fixed text out where
  resolves := fun lookup mode => (endsIn_iff lookup).mp (ends lookup.get? mode)
  ends := ends

end Placeholder
end LayeredConfig

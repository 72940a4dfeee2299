import LayeredConfig.Environment
import LayeredConfig.Proofs.Placeholder.Lookups
import Mathlib

namespace LayeredConfig
namespace Placeholder

/-!
# Resolution ends

Resolving a text calls for other texts to be resolved: computed keys, values and
fallbacks.  Written without any measure, this is a recursion that can only be
followed to a given depth.  A value takes up a key that has one, and every other
text is shorter than the one it stands in, so that the calls nest no deeper than
the number of keys and the length of the longest text allow.
-/

/-! ## Calls -/

section Calls

variable {m : Type → Type} [Monad m] [MonadExceptOf Error m]

/-- What a call makes of a segment.  The texts that have to be resolved in turn are handed to
`inner`. -/
def callPart (lookup : Lookup) (mode : Mode) (inner : List String → List Char → m (List Char))
    (visiting : List String) (text : List Char) : Segment → m (List Char)
  | .literal plain => pure plain
  | .reference key fallback =>
      (if hasReferences key then inner visiting key else pure key) >>= fun resolved =>
        let name := String.ofList resolved
        if name ∈ visiting then throw (.unresolvablePlaceholder name (String.ofList text))
        else
          match lookup.get? name, fallback, mode with
          | some value, _, _ => inner (name :: visiting) value.toList
          | none, some other, _ => inner (name :: visiting) other
          | none, none, .lenient => pure ('$' :: '{' :: resolved ++ ['}'])
          | none, none, .strict => throw (.unresolvablePlaceholder name (String.ofList text))

/-- One call: the text is resolved segment by segment. -/
def call (lookup : Lookup) (mode : Mode) (inner : List String → List Char → m (List Char))
    (visiting : List String) (text : List Char) : m (List Char) :=
  List.flatten <$> (segments text).mapM (callPart lookup mode inner visiting text)

end Calls

/-- Resolution is the recursion in which a call hands on to a call. -/
theorem resolveText_eq_call (lookup : Lookup) (mode : Mode) (visiting : List String)
    (text : List Char) :
    resolveText lookup mode visiting text =
      call lookup mode (resolveText lookup mode) visiting text := by
  have parts : resolvePart lookup mode visiting text =
      callPart lookup mode (resolveText lookup mode) visiting text := by
    funext part
    cases part with
    | literal plain => rfl
    | reference key fallback => rfl
  rw [resolveText_eq, parts]
  rfl

/-- The recursion followed through at most `depth` calls inside one another; nothing comes of it
when they go deeper. -/
def resolveWithin (lookup : Lookup) (mode : Mode) :
    (depth : Nat) → List String → List Char → ExceptT Error Option (List Char)
  | 0 => fun _ _ => ExceptT.mk none
  | depth + 1 => call lookup mode (resolveWithin lookup mode depth)

/-! ## Calls that come to an end -/

/-- A computation that ended with the outcome. -/
def ended {Result : Type} (outcome : Except Error Result) : ExceptT Error Option Result :=
  ExceptT.mk (some outcome)

section Ended

variable {Item Result Next : Type}

theorem ended_bind (first : Except Error Result) (next : Result → Except Error Next) :
    (ended first >>= fun result => ended (next result)) = ended (first >>= next) := by
  cases first <;> rfl

theorem ended_map (change : Result → Next) (outcome : Except Error Result) :
    change <$> ended outcome = ended (outcome.map change) := by
  cases outcome <;> rfl

theorem ended_mapM {step : Item → ExceptT Error Option Result}
    {outcome : Item → Except Error Result} {items : List Item}
    (each : ∀ item ∈ items, step item = ended (outcome item)) :
    items.mapM step = ended (items.mapM outcome) := by
  induction items with
  | nil => rfl
  | cons head tail ih =>
      rw [List.mapM_cons, List.mapM_cons, each head List.mem_cons_self,
        ih fun item later => each item (List.mem_cons_of_mem _ later), ← ended_bind]
      congr 1
      funext value
      exact ended_bind (tail.mapM outcome) fun values => pure (value :: values)

end Ended

variable {lookup : Lookup} {mode : Mode} {visiting : List String} {text : List Char}

theorem callPart_ended {inner : List String → List Char → ExceptT Error Option (List Char)}
    {outcome : List String → List Char → Except Error (List Char)} {part : Segment}
    (member : part ∈ segments text)
    (ofKey : ∀ key fallback, .reference key fallback ∈ segments text →
      inner visiting key = ended (outcome visiting key))
    (ofOnward : ∀ key fallback name onward, .reference key fallback ∈ segments text →
      name ∉ visiting → onward? lookup fallback name = some onward →
      inner (name :: visiting) onward = ended (outcome (name :: visiting) onward)) :
    callPart lookup mode inner visiting text part =
      ended (callPart lookup mode outcome visiting text part) := by
  cases part with
  | literal plain => rfl
  | reference key fallback =>
      have first : (if hasReferences key then inner visiting key else pure key) =
          ended (if hasReferences key then outcome visiting key else pure key) := by
        split
        · exact ofKey key fallback member
        · rfl
      rw [callPart, callPart, first, ← ended_bind]
      congr 1
      funext resolved
      dsimp only
      split
      · rfl
      · next fresh =>
          cases found : lookup.get? (String.ofList resolved) with
          | some value => exact ofOnward key _ _ _ member fresh (onward?_of_value found)
          | none =>
              cases fallback with
              | some other => exact ofOnward key _ _ other member fresh (onward?_of_missing found)
              | none => cases mode <;> rfl

theorem length_le_of_onward {longest : Nat}
    (bounded : ∀ key value, lookup.get? key = some value → value.toList.length ≤ longest)
    (fits : text.length ≤ longest) {key onward : List Char} {fallback : Option (List Char)}
    {name : String} (member : .reference key fallback ∈ segments text)
    (leads : onward? lookup fallback name = some onward) : onward.length ≤ longest := by
  cases found : lookup.get? name with
  | some value =>
      rw [onward?_of_value found] at leads
      cases leads
      exact bounded name value found
  | none =>
      rw [onward?_of_missing found] at leads
      exact ((length_lt_of_reference member).2 onward leads).le.trans fits

/-- A depth beyond the measure of the recursion is enough. -/
theorem resolveWithin_eq {longest : Nat}
    (bounded : ∀ key value, lookup.get? key = some value → value.toList.length ≤ longest)
    {depth : Nat} (fits : text.length ≤ longest)
    (enough : lookup.unvisited visiting * (longest + 1) + text.length < depth) :
    resolveWithin lookup mode depth visiting text =
      ended (resolveText lookup mode visiting text) := by
  induction depth generalizing visiting text with
  | zero => cases enough
  | succ depth ih =>
      rw [resolveWithin, resolveText_eq_call, call, call]
      have parts : ∀ part ∈ segments text,
          callPart lookup mode (resolveWithin lookup mode depth) visiting text part =
            ended (callPart lookup mode (resolveText lookup mode) visiting text part) := by
        intro part member
        apply callPart_ended member
        · intro key fallback written
          have shorter := (length_lt_of_reference written).1
          exact ih (by omega) (by omega)
        · intro key fallback name onward written fresh leads
          have short := length_le_of_onward bounded fits written leads
          rcases unvisited_lt_or_length_lt written fresh leads with fewer | ⟨noMore, shorter⟩
          · have room := Nat.mul_le_mul_right (longest + 1) fewer
            rw [Nat.succ_mul] at room
            exact ih short (by omega)
          · have room := Nat.mul_le_mul_right (longest + 1) noMore
            exact ih short (by omega)
      rw [ended_mapM parts, ended_map]
      rfl

/-- A resolution fails only at a placeholder. -/
theorem exists_of_resolveText_error {error : Error}
    (failed : resolveText lookup mode visiting text = .error error) :
    ∃ key inside, error = .unresolvablePlaceholder key inside := by
  induction visiting, text using resolution_induction lookup with
  | step visiting text ofKey ofOnward =>
      rw [resolveText_eq, Traversal.map_eq_error_iff] at failed
      rcases Traversal.exists_of_mapM_eq_error failed with ⟨before, part, after, split, fails, -⟩
      have member : part ∈ segments text := split ▸ List.mem_append_right before List.mem_cons_self
      cases part with
      | literal plain => cases fails
      | reference key fallback =>
          rcases Traversal.bind_eq_error_iff.mp fails with ofFirst | ⟨resolved, -, ofName⟩
          · split at ofFirst
            · exact ofKey key fallback member ofFirst
            · cases ofFirst
          · obtain ⟨name, rfl⟩ : ∃ name : String, name.toList = resolved :=
              ⟨String.ofList resolved, String.toList_ofList⟩
            by_cases met : name ∈ visiting
            · rw [resolveName_of_mem met, Except.error.injEq] at ofName
              exact ⟨name, _, ofName.symm⟩
            cases leads : onward? lookup fallback name with
            | some onward =>
                rw [resolveName_of_onward met leads] at ofName
                exact ofOnward key fallback name onward member met leads ofName
            | none =>
                rw [resolveName_of_nothing met leads] at ofName
                cases mode with
                | lenient => cases ofName
                | strict => exact ⟨name, _, (Except.error.inj ofName).symm⟩

/-! ## How deep calls nest -/

/-- The length of the longest value. -/
def Lookup.longest (lookup : Lookup) : Nat :=
  ((lookup.keys.filterMap lookup.get?).map String.length).foldr max 0

theorem Lookup.length_le_longest {key value : String} (found : lookup.get? key = some value) :
    value.length ≤ lookup.longest := by
  have member : value.length ∈ (lookup.keys.filterMap lookup.get?).map String.length :=
    List.mem_map_of_mem (List.mem_filterMap.mpr ⟨key, lookup.covers key value found, found⟩)
  exact List.le_max_of_le' 0 member le_rfl

/-- How deep calls can nest: at most once for each key, and in between through texts that get
shorter. -/
def Lookup.nesting (lookup : Lookup) (text : String) : Nat :=
  (lookup.keys.length + 1) * (max lookup.longest text.length + 1)

/-- The recursion comes to an end with the outcome, which is a text or names a placeholder. -/
structure Settles (lookup : Lookup) (mode : Mode) (text : String)
    (outcome : Except Error String) : Prop where
  ends : ∀ depth, lookup.nesting text ≤ depth →
    String.ofList <$> resolveWithin lookup mode depth [] text.toList = ended outcome
  names : (∃ value, outcome = .ok value) ∨
    ∃ key inside, outcome = .error (.unresolvablePlaceholder key inside)

theorem settles_resolve (lookup : Lookup) (mode : Mode) (text : String) :
    Settles lookup mode text (resolve lookup mode text) where
  ends := by
    intro depth enough
    have fits : text.toList.length ≤ max lookup.longest text.length := by
      rw [String.length_toList]
      exact le_max_right _ _
    have bounded : ∀ key value, lookup.get? key = some value →
        value.toList.length ≤ max lookup.longest text.length := by
      intro key value found
      rw [String.length_toList]
      exact (Lookup.length_le_longest found).trans (le_max_left _ _)
    have known : lookup.unvisited [] ≤ lookup.keys.length := List.length_filter_le _ _
    have product := Nat.mul_le_mul_right (max lookup.longest text.length + 1) known
    rw [Lookup.nesting, Nat.succ_mul] at enough
    rw [resolveWithin_eq bounded fits (by omega), ended_map]
    rfl
  names := by
    cases resolved : resolve lookup mode text with
    | ok value => exact .inl ⟨value, rfl⟩
    | error error =>
        rcases exists_of_resolveText_error (Traversal.map_eq_error_iff.mp resolved) with
          ⟨key, inside, rfl⟩
        exact .inr ⟨key, inside, rfl⟩

end Placeholder

namespace Environment

open Placeholder

/-- Whatever texts and values refer to, resolving a text comes to an end in both modes. -/
theorem resolution_ends (environment : Environment) (text : String) :
    Settles environment.lookup .strict text (environment.resolve text) ∧
      Settles environment.lookup .lenient text (environment.resolveLenient text) :=
  ⟨settles_resolve environment.lookup .strict text,
    settles_resolve environment.lookup .lenient text⟩

/-- A value with a key that is computed and leads back to the value. -/
def leadingBack : Environment :=
  initial.addLast (((Property.Source.named "layer").set "p" "${${k}:x}").set "k" "p")

theorem resolution_ends_leadingBack :
    leadingBack.lookup.nesting "${p}" = 30 ∧
      String.ofList <$> resolveWithin leadingBack.lookup .strict 30 [] "${p}".toList =
        ended (.error (.unresolvablePlaceholder "p" "${${k}:x}")) := by
  have deep : leadingBack.lookup.nesting "${p}" = 30 := by decide
  have failed : leadingBack.resolve "${p}" =
      .error (.unresolvablePlaceholder "p" "${${k}:x}") := by cbv
  refine ⟨deep, ?_⟩
  rw [← failed]
  exact (resolution_ends leadingBack "${p}").1.ends 30 deep.le

example : resolveWithin leadingBack.lookup .strict 3 [] "${p}".toList = ExceptT.mk none := by cbv

end Environment
end LayeredConfig

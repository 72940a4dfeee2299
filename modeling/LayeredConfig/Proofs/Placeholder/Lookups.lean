import LayeredConfig.Placeholder.Resolution
import LayeredConfig.Proofs.Traversal

namespace LayeredConfig
namespace Placeholder

/-!
# What a resolution hangs on

A text is resolved segment by segment.  Each reference leads on to the text of its
key and then to a value or to its fallback, and what is proved of a text from the
texts that it leads on to is so proved of all texts.  Two lookups that give every
key the same value resolve every text alike, whatever keys they list.
-/

/-! ## References -/

/-- What a resolved key stands for, while the keys in `visiting` are being resolved. -/
def resolveName (lookup : Lookup) (mode : Mode) (visiting : List String) (text : List Char)
    (fallback : Option (List Char)) (resolved : List Char) : Except Error (List Char) :=
  let name := String.ofList resolved
  if name ∈ visiting then .error (.unresolvablePlaceholder name (String.ofList text))
  else
    match lookup.get? name, fallback, mode with
    | some value, _, _ => resolveText lookup mode (name :: visiting) value.toList
    | none, some other, _ => resolveText lookup mode (name :: visiting) other
    | none, none, .lenient => .ok ('$' :: '{' :: resolved ++ ['}'])
    | none, none, .strict => .error (.unresolvablePlaceholder name (String.ofList text))

/-- A reference is resolved in two steps: first its key, then what the key stands for. -/
theorem resolveSegment_reference (lookup : Lookup) (mode : Mode) (visiting : List String)
    (text key : List Char) (fallback : Option (List Char))
    (member : .reference key fallback ∈ segments text) :
    resolveSegment lookup mode visiting text (.reference key fallback) member =
      (if hasReferences key then resolveText lookup mode visiting key else .ok key).bind
        (resolveName lookup mode visiting text fallback) := by
  rw [resolveSegment]
  generalize (if hasReferences key then resolveText lookup mode visiting key else .ok key) = first
  cases first with
  | error error => rfl
  | ok resolved =>
      simp only [Except.bind, resolveName]
      split
      · rfl
      · split
        · next value found => rw [found]
        · next found =>
            rw [found]
            cases fallback <;> cases mode <;> rfl

/-- The text that a name leads on to: its value, or else the fallback. -/
def onward? (lookup : Lookup) (fallback : Option (List Char)) (name : String) :
    Option (List Char) :=
  match lookup.get? name with
  | some value => some value.toList
  | none => fallback

section Onward

variable {lookup : Lookup} {mode : Mode} {visiting : List String} {text onward : List Char}
variable {fallback : Option (List Char)} {name : String}

theorem onward?_of_value {value : String} (found : lookup.get? name = some value) :
    onward? lookup fallback name = some value.toList := by
  rw [onward?, found]

theorem onward?_of_missing (missing : lookup.get? name = none) :
    onward? lookup fallback name = fallback := by
  rw [onward?, missing]

theorem onward?_eq_none_iff :
    onward? lookup fallback name = none ↔ lookup.get? name = none ∧ fallback = none := by
  cases found : lookup.get? name with
  | some value => simp [onward?_of_value found]
  | none => simp [onward?_of_missing found]

theorem resolveName_of_mem (met : name ∈ visiting) :
    resolveName lookup mode visiting text fallback name.toList =
      .error (.unresolvablePlaceholder name (String.ofList text)) := by
  simp only [resolveName, String.ofList_toList, if_pos met]

theorem resolveName_of_onward (fresh : name ∉ visiting)
    (leads : onward? lookup fallback name = some onward) :
    resolveName lookup mode visiting text fallback name.toList =
      resolveText lookup mode (name :: visiting) onward := by
  simp only [resolveName, String.ofList_toList, if_neg fresh]
  cases found : lookup.get? name with
  | some value =>
      cases (onward?_of_value found).symm.trans leads
      rfl
  | none =>
      cases (onward?_of_missing found).symm.trans leads
      rfl

theorem resolveName_of_nothing (fresh : name ∉ visiting)
    (nothing : onward? lookup fallback name = none) :
    resolveName lookup mode visiting text fallback name.toList =
      match mode with
      | .lenient => .ok ('$' :: '{' :: name.toList ++ ['}'])
      | .strict => .error (.unresolvablePlaceholder name (String.ofList text)) := by
  obtain ⟨missing, rfl⟩ := onward?_eq_none_iff.mp nothing
  simp only [resolveName, String.ofList_toList, if_neg fresh, missing]
  cases mode <;> rfl

end Onward

/-- What a segment of `text` resolves to. -/
def resolvePart (lookup : Lookup) (mode : Mode) (visiting : List String) (text : List Char) :
    Segment → Except Error (List Char)
  | .literal plain => .ok plain
  | .reference key fallback =>
      (if hasReferences key then resolveText lookup mode visiting key else .ok key).bind
        (resolveName lookup mode visiting text fallback)

theorem resolveText_eq (lookup : Lookup) (mode : Mode) (visiting : List String)
    (text : List Char) :
    resolveText lookup mode visiting text =
      ((segments text).mapM (resolvePart lookup mode visiting text)).map List.flatten := by
  have steps : (fun part : { segment // segment ∈ segments text } =>
        resolveSegment lookup mode visiting text part.val part.property) =
      resolvePart lookup mode visiting text ∘ Subtype.val := by
    funext part
    obtain ⟨segment, member⟩ := part
    cases segment with
    | literal plain => rw [resolveSegment]; rfl
    | reference key fallback => exact resolveSegment_reference lookup mode visiting text key _ _
  rw [resolveText, steps, ← List.mapM_map, List.attach_map_subtype_val]

/-! ## Texts that a text leads on to -/

theorem length_lt_of_reference {text key : List Char} {fallback : Option (List Char)}
    (member : .reference key fallback ∈ segments text) :
    key.length < text.length ∧ ∀ other, fallback = some other → other.length < text.length := by
  have bound := weight_lt_of_mem_segments member
  cases fallback with
  | none => exact ⟨bound, fun _ missing => by cases missing⟩
  | some written =>
      rw [Segment.weight, Nat.max_lt] at bound
      exact ⟨bound.1, fun _ same => by cases same; exact bound.2⟩

/-- A value uses up its key.  A fallback is shorter than the text that it stands in, and no key
comes back. -/
theorem unvisited_lt_or_length_lt {lookup : Lookup} {visiting : List String}
    {text key onward : List Char} {fallback : Option (List Char)} {name : String}
    (member : .reference key fallback ∈ segments text) (fresh : name ∉ visiting)
    (leads : onward? lookup fallback name = some onward) :
    lookup.unvisited (name :: visiting) < lookup.unvisited visiting ∨
      lookup.unvisited (name :: visiting) ≤ lookup.unvisited visiting ∧
        onward.length < text.length := by
  cases found : lookup.get? name with
  | some value => exact .inl (lookup.unvisited_cons_lt fresh found)
  | none =>
      rw [onward?_of_missing found] at leads
      exact .inr ⟨lookup.unvisited_cons_le visiting name, (length_lt_of_reference member).2 _ leads⟩

/-- What holds of a text when it holds of the keys in it, and of the texts that names not yet
being resolved lead on to, holds of every text. -/
theorem resolution_induction (lookup : Lookup) {motive : List String → List Char → Prop}
    (step : ∀ visiting text,
      (∀ key fallback, .reference key fallback ∈ segments text → motive visiting key) →
      (∀ key fallback name onward, .reference key fallback ∈ segments text → name ∉ visiting →
        onward? lookup fallback name = some onward → motive (name :: visiting) onward) →
      motive visiting text)
    (visiting : List String) (text : List Char) : motive visiting text := by
  apply step
  · intro key fallback member
    have shorter := (length_lt_of_reference member).1
    exact resolution_induction lookup step visiting key
  · intro key fallback name onward member fresh leads
    have smaller := unvisited_lt_or_length_lt member fresh leads
    exact resolution_induction lookup step (name :: visiting) onward
termination_by (lookup.unvisited visiting, text.length)
decreasing_by
  · exact Prod.Lex.right _ shorter
  · rcases smaller with fewer | ⟨noMore, shorter⟩
    · exact Prod.Lex.left _ _ fewer
    · exact Prod.Lex.right' _ noMore shorter

/-! ## Lookups with the same values -/

variable {lookup other : Lookup}

theorem resolveText_congr (same : lookup.get? = other.get?) (mode : Mode)
    (visiting : List String) (text : List Char) :
    resolveText lookup mode visiting text = resolveText other mode visiting text := by
  have sameOnward : onward? lookup = onward? other := by
    unfold onward?
    rw [same]
  induction visiting, text using resolution_induction lookup with
  | step visiting text ofKey ofOnward =>
      rw [resolveText_eq, resolveText_eq]
      congr 1
      refine Traversal.mapM_congr fun part member => ?_
      cases part with
      | literal plain => rfl
      | reference key fallback =>
          rw [resolvePart, resolvePart, ofKey key fallback member]
          congr 1
          funext resolved
          obtain ⟨name, rfl⟩ : ∃ name : String, name.toList = resolved :=
            ⟨String.ofList resolved, String.toList_ofList⟩
          by_cases met : name ∈ visiting
          · rw [resolveName_of_mem met, resolveName_of_mem met]
          cases leads : onward? lookup fallback name with
          | some onward =>
              rw [resolveName_of_onward met leads, resolveName_of_onward met (sameOnward ▸ leads)]
              exact ofOnward key fallback name onward member met leads
          | none =>
              rw [resolveName_of_nothing met leads, resolveName_of_nothing met (sameOnward ▸ leads)]

theorem resolve_congr (same : lookup.get? = other.get?) (mode : Mode) (text : String) :
    resolve lookup mode text = resolve other mode text := by
  unfold resolve
  rw [resolveText_congr same]

end Placeholder
end LayeredConfig

import LayeredConfig.Proofs.Placeholder.Lookups
import LayeredConfig.Proofs.Traversal.Divergence

namespace LayeredConfig
namespace Placeholder

open Traversal

/-!
# Two resolutions of one text

A text is resolved twice, in two modes or while different keys are being resolved.
The first resolution goes the way of the second unless it is stopped, if it does
so at the references that the second one comes to.
-/

variable {lookup : Lookup} {mode : Mode} {visiting : List String} {text : List Char}

/-! ## References that a resolution comes to -/

/-- What the key of a reference resolves to. -/
def resolveKey (lookup : Lookup) (mode : Mode) (visiting : List String) (key : List Char) :
    Except Error (List Char) :=
  if hasReferences key then resolveText lookup mode visiting key else .ok key

/-- The resolution of the text comes to the segment. -/
def ComesTo (lookup : Lookup) (mode : Mode) (visiting : List String) (text : List Char)
    (part : Segment) : Prop :=
  Reached (resolvePart lookup mode visiting text) (segments text) part

theorem resolveText_eq_error {part : Segment} (comes : ComesTo lookup mode visiting text part)
    {error : Error} (fails : resolvePart lookup mode visiting text part = .error error) :
    resolveText lookup mode visiting text = .error error := by
  rw [resolveText_eq, comes.mapM_eq_error fails]
  rfl

theorem exists_resolvePart_of_ok {out : List Char}
    (resolved : resolveText lookup mode visiting text = .ok out) {part : Segment}
    (member : part ∈ segments text) :
    ∃ result, resolvePart lookup mode visiting text part = .ok result := by
  rw [resolveText_eq, map_eq_ok_iff] at resolved
  rcases resolved with ⟨outs, walked, -⟩
  rcases exists_mem_of_mapM walked member with ⟨result, -, made⟩
  exact ⟨result, made⟩

/-- The resolution of the text comes to a reference whose key resolves to the name. -/
def Names (lookup : Lookup) (mode : Mode) (visiting : List String) (text : List Char)
    (fallback : Option (List Char)) (name : String) : Prop :=
  ∃ key, ComesTo lookup mode visiting text (.reference key fallback) ∧
    resolveKey lookup mode visiting key = .ok name.toList

namespace Names

variable {fallback : Option (List Char)} {name : String}

theorem exists_mem (named : Names lookup mode visiting text fallback name) :
    ∃ key, .reference key fallback ∈ segments text := by
  rcases named with ⟨key, comes, -⟩
  exact ⟨key, comes.mem⟩

theorem resolveText_eq_error (named : Names lookup mode visiting text fallback name)
    {error : Error}
    (fails : resolveName lookup mode visiting text fallback name.toList = .error error) :
    resolveText lookup mode visiting text = .error error := by
  rcases named with ⟨key, comes, resolved⟩
  exact Placeholder.resolveText_eq_error comes (bind_eq_error_iff.mpr (.inr ⟨_, resolved, fails⟩))

theorem exists_of_ok (named : Names lookup mode visiting text fallback name) {out : List Char}
    (resolved : resolveText lookup mode visiting text = .ok out) :
    ∃ result, resolveName lookup mode visiting text fallback name.toList = .ok result := by
  rcases named with ⟨key, comes, ofKey⟩
  rcases exists_resolvePart_of_ok resolved comes.mem with ⟨result, made⟩
  rcases bind_eq_ok_iff.mp made with ⟨first, again, stands⟩
  cases ofKey.symm.trans again
  exact ⟨result, stands⟩

end Names

/-! ## One resolution after the other -/

section Two

variable {stops : Error → Prop} {first second : Mode} {more : List String}

/-- What a name stands for is the same for both, unless the first resolution is stopped: where it
has the name among the keys that are being resolved and the second has not, in the text that the
name leads on to, or where the name stands for nothing. -/
theorem sameUnless_resolveName {fallback : Option (List Char)} {name : String}
    (kept : visiting ⊆ more)
    (ofAdded : name ∈ more → name ∉ visiting →
      stops (.unresolvablePlaceholder name (String.ofList text)))
    (ofOnward : ∀ onward, name ∉ visiting → onward? lookup fallback name = some onward →
      SameUnless stops (resolveText lookup first (name :: more) onward)
        (resolveText lookup second (name :: visiting) onward))
    (ofNothing : onward? lookup fallback name = none → first = second ∨
      first = .strict ∧ stops (.unresolvablePlaceholder name (String.ofList text))) :
    SameUnless stops (resolveName lookup first more text fallback name.toList)
      (resolveName lookup second visiting text fallback name.toList) := by
  by_cases met : name ∈ visiting
  · rw [resolveName_of_mem met, resolveName_of_mem (kept met)]
    exact .refl _
  by_cases added : name ∈ more
  · rw [resolveName_of_mem added]
    exact .inr ⟨_, ofAdded added met, rfl⟩
  cases leads : onward? lookup fallback name with
  | some onward =>
      rw [resolveName_of_onward met leads, resolveName_of_onward added leads]
      exact ofOnward onward met leads
  | none =>
      rw [resolveName_of_nothing met leads, resolveName_of_nothing added leads]
      rcases ofNothing leads with rfl | ⟨rfl, stopped⟩
      · exact .refl _
      · exact .inr ⟨_, stopped, rfl⟩

/-- At the references that the second resolution comes to, the first goes the same way unless it
is stopped. -/
structure Follows (lookup : Lookup) (stops : Error → Prop) (first second : Mode)
    (more visiting : List String) (text : List Char) : Prop where
  ofKey : ∀ key fallback, ComesTo lookup second visiting text (.reference key fallback) →
    hasReferences key = true →
    SameUnless stops (resolveText lookup first more key) (resolveText lookup second visiting key)
  ofName : ∀ fallback name, Names lookup second visiting text fallback name →
    SameUnless stops (resolveName lookup first more text fallback name.toList)
      (resolveName lookup second visiting text fallback name.toList)

namespace Follows

variable (follows : Follows lookup stops first second more visiting text)

include follows

theorem resolveKey {key : List Char} {fallback : Option (List Char)}
    (comes : ComesTo lookup second visiting text (.reference key fallback)) :
    SameUnless stops (resolveKey lookup first more key)
      (resolveKey lookup second visiting key) := by
  unfold Placeholder.resolveKey
  split
  · next computed => exact follows.ofKey key fallback comes computed
  · exact .refl _

theorem resolvePart {part : Segment} (comes : ComesTo lookup second visiting text part) :
    SameUnless stops (resolvePart lookup first more text part)
      (resolvePart lookup second visiting text part) := by
  cases part with
  | literal plain => exact .refl _
  | reference key fallback =>
      refine (follows.resolveKey comes).bind fun resolved ofResolved => ?_
      obtain ⟨name, rfl⟩ : ∃ name : String, name.toList = resolved :=
        ⟨String.ofList resolved, String.toList_ofList⟩
      exact follows.ofName fallback name ⟨key, comes, ofResolved⟩

theorem resolveText :
    SameUnless stops (resolveText lookup first more text)
      (resolveText lookup second visiting text) := by
  rw [resolveText_eq, resolveText_eq]
  exact SameUnless.map (SameUnless.mapM fun _ comes => follows.resolvePart comes)

/-- The first resolution comes to a segment as the second does, unless it is stopped before. -/
theorem comesTo {part : Segment} (comes : ComesTo lookup second visiting text part) :
    ComesTo lookup first more text part ∨
      ∃ error, stops error ∧ Placeholder.resolveText lookup first more text = .error error := by
  rcases SameUnless.reached (fun _ comes => follows.resolvePart comes) comes with
    reached | ⟨error, stopped, fails⟩
  · exact .inl reached
  · refine .inr ⟨error, stopped, ?_⟩
    rw [resolveText_eq, fails]
    rfl

/-- The first resolution names what the second does, unless it is stopped before. -/
theorem names {fallback : Option (List Char)} {name : String}
    (named : Names lookup second visiting text fallback name) :
    Names lookup first more text fallback name ∨
      ∃ error, stops error ∧ Placeholder.resolveText lookup first more text = .error error := by
  rcases named with ⟨key, comes, resolved⟩
  rcases follows.comesTo comes with again | stopped
  · rcases follows.resolveKey comes with same | ⟨error, stopped, fails⟩
    · exact .inl ⟨key, again, same.trans resolved⟩
    · exact .inr ⟨error, stopped, resolveText_eq_error again (bind_eq_error_iff.mpr (.inl fails))⟩
  · exact .inr stopped

end Follows
end Two
end Placeholder
end LayeredConfig

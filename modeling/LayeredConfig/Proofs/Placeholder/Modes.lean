import LayeredConfig.Environment
import LayeredConfig.Proofs.Placeholder.Comparison
import Mathlib

namespace LayeredConfig

open Traversal

/-!
# What lenient resolution forgives

Strict and lenient resolution go the same way until strict resolution comes to a
key that has neither value nor fallback.  There it stops, while lenient
resolution goes on with the placeholder as it is written.
-/

namespace Placeholder

/-- The failure names a key without value. -/
def NamesMissing (lookup : Lookup) (error : Error) : Prop :=
  ∃ key inside, error = .unresolvablePlaceholder key inside ∧ lookup.get? key = none

/-- Strict resolution goes the way of lenient resolution unless it stops at a key without
value. -/
theorem strict_sameUnless_lenient (lookup : Lookup) (visiting : List String)
    (text : List Char) :
    SameUnless (NamesMissing lookup) (resolveText lookup .strict visiting text)
      (resolveText lookup .lenient visiting text) := by
  induction visiting, text using resolution_induction lookup with
  | step visiting text ofKey ofOnward =>
      refine Follows.resolveText ⟨?_, ?_⟩
      · intro key fallback comes _
        exact ofKey key fallback comes.mem
      · intro fallback name named
        obtain ⟨key, member⟩ := named.exists_mem
        refine sameUnless_resolveName (List.Subset.refl visiting) ?_ ?_ ?_
        · intro met fresh
          exact absurd met fresh
        · intro onward
          exact ofOnward key fallback name onward member
        · intro nothing
          exact .inr ⟨rfl, name, _, rfl, (onward?_eq_none_iff.mp nothing).1⟩

end Placeholder

namespace Environment

/-- What can be resolved strictly is resolved leniently to the same text.  Where only lenient
resolution succeeds, strict resolution fails at a key that no source holds; where strict
resolution fails at a key that has a value, which it can only have come back to, lenient
resolution fails alike. -/
theorem lenient_forgives_missing_only (environment : Environment) (text : String) :
    (∀ value, environment.resolve text = .ok value →
      environment.resolveLenient text = .ok value) ∧
    (∀ value error, environment.resolveLenient text = .ok value →
      environment.resolve text = .error error →
      ∃ key inside, error = .unresolvablePlaceholder key inside ∧
        ∀ source ∈ environment.sources.layers, source.get? key = none) ∧
    ∀ key inside, environment.contains key = true →
      environment.resolve text = .error (.unresolvablePlaceholder key inside) →
      environment.resolveLenient text = .error (.unresolvablePlaceholder key inside) := by
  have same : SameUnless (Placeholder.NamesMissing environment.lookup) (environment.resolve text)
      (environment.resolveLenient text) :=
    (Placeholder.strict_sameUnless_lenient environment.lookup [] text.toList).map
  refine ⟨fun value resolved => same.eq_ok resolved, ?_, ?_⟩
  · intro value error lenient strict
    rcases same with equal | ⟨failure, ⟨key, inside, rfl, missing⟩, fails⟩
    · cases (strict.symm.trans equal).trans lenient
    · cases strict.symm.trans fails
      exact ⟨key, inside, rfl, List.findSome?_eq_none_iff.mp missing⟩
  · intro key inside held strict
    rcases same with equal | ⟨failure, ⟨other, within, rfl, missing⟩, fails⟩
    · exact equal.symm.trans strict
    · cases strict.symm.trans fails
      have absent : environment.get? key = none := missing
      rw [contains, absent] at held
      cases held

/-- A layer with a value, a value that leads back to itself and no more. -/
def sparse : Environment :=
  initial.addLast (((Property.Source.named "layer").set "a" "1").set "p" "${p}")

/-- The key that lenient resolution leaves as it is written may be part of another key. -/
theorem lenient_forgives_missing_only_computed :
    sparse.resolveLenient "${a}" = .ok "1" ∧
      sparse.resolveLenient "${${b}:d}" = .ok "d" ∧
      sparse.resolve "${${b}:d}" = .error (.unresolvablePlaceholder "b" "${b}") ∧
      (∀ source ∈ sparse.sources.layers, source.get? "b" = none) ∧
      sparse.resolveLenient "${p}" = .error (.unresolvablePlaceholder "p" "${p}") := by
  have value : sparse.resolve "${a}" = .ok "1" := by cbv
  have lenient : sparse.resolveLenient "${${b}:d}" = .ok "d" := by cbv
  have strict : sparse.resolve "${${b}:d}" = .error (.unresolvablePlaceholder "b" "${b}") := by cbv
  have held : sparse.contains "p" = true := by cbv
  have circle : sparse.resolve "${p}" = .error (.unresolvablePlaceholder "p" "${p}") := by cbv
  obtain ⟨key, inside, same, missing⟩ :=
    (lenient_forgives_missing_only sparse "${${b}:d}").2.1 _ _ lenient strict
  cases same
  exact ⟨(lenient_forgives_missing_only sparse "${a}").1 _ value, lenient, strict, missing,
    (lenient_forgives_missing_only sparse "${p}").2.2 _ _ held circle⟩

end Environment
end LayeredConfig

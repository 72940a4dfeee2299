import LayeredConfig.Proofs.Placeholder.Comparison

namespace LayeredConfig
namespace Placeholder

open Traversal

/-!
# The keys that a resolution meets

While a key is being resolved, meeting it again is an error.  When more keys are
being resolved, a text resolves as before unless its resolution meets one of
those that were added, and then it fails there.  A text that can be resolved can
be so while fewer keys are being resolved, and the value of a key never meets the
key itself when it can be resolved.
-/

variable {lookup : Lookup} {mode : Mode} {visiting more : List String} {text : List Char}
variable {name : String}

/-- The resolution of the text meets the name, in the text or in one that the text leads on
to. -/
inductive Meets (lookup : Lookup) (mode : Mode) (name : String) :
    List String → List Char → Prop where
  | here {visiting : List String} {text : List Char} {fallback : Option (List Char)}
      (named : Names lookup mode visiting text fallback name) : Meets lookup mode name visiting text
  | inKey {visiting : List String} {text key : List Char} {fallback : Option (List Char)}
      (comes : ComesTo lookup mode visiting text (.reference key fallback))
      (computed : hasReferences key = true) (meets : Meets lookup mode name visiting key) :
      Meets lookup mode name visiting text
  | onward {visiting : List String} {text : List Char} {fallback : Option (List Char)}
      {other : String} {onward : List Char} (named : Names lookup mode visiting text fallback other)
      (fresh : other ∉ visiting) (leads : onward? lookup fallback other = some onward)
      (meets : Meets lookup mode name (other :: visiting) onward) :
      Meets lookup mode name visiting text

/-! ## More keys that are being resolved -/

/-- The failure names a key that was added and that the resolution of the text meets. -/
def Bars (lookup : Lookup) (mode : Mode) (visiting more : List String) (text : List Char)
    (error : Error) : Prop :=
  ∃ name inside, error = .unresolvablePlaceholder name inside ∧ name ∈ more ∧ name ∉ visiting ∧
    Meets lookup mode name visiting text

theorem Bars.onward {fallback : Option (List Char)} {onward : List Char} {error : Error}
    (named : Names lookup mode visiting text fallback name) (fresh : name ∉ visiting)
    (leads : onward? lookup fallback name = some onward)
    (bars : Bars lookup mode (name :: visiting) (name :: more) onward error) :
    Bars lookup mode visiting more text error := by
  rcases bars with ⟨met, inside, same, member, absent, meets⟩
  rw [List.mem_cons, not_or] at absent
  exact ⟨met, inside, same, (List.mem_cons.mp member).resolve_left absent.1, absent.2,
    .onward named fresh leads meets⟩

/-- If the texts that a text leads on to resolve as before unless they are barred, so does the
text. -/
theorem follows_of_subset (kept : visiting ⊆ more)
    (ofKey : ∀ key fallback, .reference key fallback ∈ segments text →
      SameUnless (Bars lookup mode visiting more key) (resolveText lookup mode more key)
        (resolveText lookup mode visiting key))
    (ofOnward : ∀ key fallback name onward, .reference key fallback ∈ segments text →
      name ∉ visiting → onward? lookup fallback name = some onward →
      SameUnless (Bars lookup mode (name :: visiting) (name :: more) onward)
        (resolveText lookup mode (name :: more) onward)
        (resolveText lookup mode (name :: visiting) onward)) :
    Follows lookup (Bars lookup mode visiting more text) mode mode more visiting text where
  ofKey := by
    intro key fallback comes computed
    refine (ofKey key fallback comes.mem).mono fun error bars => ?_
    rcases bars with ⟨met, inside, same, member, fresh, meets⟩
    exact ⟨met, inside, same, member, fresh, .inKey comes computed meets⟩
  ofName := by
    intro fallback name named
    obtain ⟨key, member⟩ := named.exists_mem
    refine sameUnless_resolveName kept ?_ ?_ fun _ => .inl rfl
    · intro added fresh
      exact ⟨name, _, rfl, added, fresh, .here named⟩
    · intro onward fresh leads
      exact (ofOnward key fallback name onward member fresh leads).mono fun error bars =>
        bars.onward named fresh leads

/-- When more keys are being resolved a text resolves as before, unless its resolution meets one
of the keys that were added. -/
theorem sameUnless_of_subset (kept : visiting ⊆ more) :
    SameUnless (Bars lookup mode visiting more text) (resolveText lookup mode more text)
      (resolveText lookup mode visiting text) := by
  induction visiting, text using resolution_induction lookup generalizing more with
  | step visiting text ofKey ofOnward =>
      apply Follows.resolveText
      apply follows_of_subset kept
      · exact fun key fallback member => ofKey key fallback member kept
      · exact fun key fallback name onward member fresh leads =>
          ofOnward key fallback name onward member fresh leads (List.cons_subset_cons name kept)

theorem follows_bars (kept : visiting ⊆ more) :
    Follows lookup (Bars lookup mode visiting more text) mode mode more visiting text :=
  follows_of_subset kept (fun _ _ _ => sameUnless_of_subset kept)
    fun _ _ name _ _ _ _ => sameUnless_of_subset (List.cons_subset_cons name kept)

/-- What can be resolved can be resolved while fewer keys are. -/
theorem resolveText_of_subset (kept : visiting ⊆ more) {out : List Char}
    (resolved : resolveText lookup mode more text = .ok out) :
    resolveText lookup mode visiting text = .ok out :=
  (sameUnless_of_subset kept).eq_ok resolved

/-- The resolution fails at a key that was added. -/
def Barred (lookup : Lookup) (mode : Mode) (visiting more : List String) (text : List Char) :
    Prop :=
  ∃ name inside, name ∈ more ∧ name ∉ visiting ∧
    resolveText lookup mode more text = .error (.unresolvablePlaceholder name inside)

theorem barred_of_bars {error : Error} (bars : Bars lookup mode visiting more text error)
    (fails : resolveText lookup mode more text = .error error) :
    Barred lookup mode visiting more text := by
  rcases bars with ⟨met, inside, rfl, member, fresh, -⟩
  exact ⟨met, inside, member, fresh, fails⟩

/-- A resolution that meets a key fails when the key is added to those being resolved. -/
theorem barred_of_meets (meets : Meets lookup mode name visiting text) (kept : visiting ⊆ more)
    (added : name ∈ more) (fresh : name ∉ visiting) : Barred lookup mode visiting more text := by
  induction meets generalizing more with
  | here named =>
      rcases (follows_bars kept).names named with again | ⟨error, bars, fails⟩
      · exact ⟨name, _, added, fresh, again.resolveText_eq_error (resolveName_of_mem added)⟩
      · exact barred_of_bars bars fails
  | inKey comes computed _ ih =>
      rcases (follows_bars kept).comesTo comes with again | ⟨error, bars, fails⟩
      · rcases ih kept added fresh with ⟨met, inside, member, absent, fails⟩
        refine ⟨met, inside, member, absent, resolveText_eq_error again ?_⟩
        rw [resolvePart, if_pos computed, fails]
        rfl
      · exact barred_of_bars bars fails
  | @onward _ _ _ other _ named unmet leads _ ih =>
      rcases (follows_bars kept).names named with again | ⟨error, bars, fails⟩
      · by_cases new : other ∈ more
        · exact ⟨other, _, new, unmet, again.resolveText_eq_error (resolveName_of_mem new)⟩
        · have different : name ≠ other := fun same => new (same ▸ added)
          rcases ih (List.cons_subset_cons other kept) (List.mem_cons_of_mem other added)
            (List.not_mem_cons_of_ne_of_not_mem different fresh) with
            ⟨met, inside, member, absent, fails⟩
          rw [List.mem_cons, not_or] at absent
          exact ⟨met, inside, (List.mem_cons.mp member).resolve_left absent.1, absent.2,
            again.resolveText_eq_error ((resolveName_of_onward new leads).trans fails)⟩
      · exact barred_of_bars bars fails

/-- Where a resolution that succeeds meets a key with a value, that value is resolved. -/
theorem exists_resolved_of_meets (meets : Meets lookup mode name visiting text) {value : String}
    (found : lookup.get? name = some value) {out : List Char}
    (resolved : resolveText lookup mode visiting text = .ok out) :
    ∃ under result, resolveText lookup mode (name :: under) value.toList = .ok result := by
  induction meets generalizing out with
  | @here visiting text fallback named =>
      rcases named.exists_of_ok resolved with ⟨result, stands⟩
      by_cases met : name ∈ visiting
      · rw [resolveName_of_mem met] at stands
        cases stands
      · rw [resolveName_of_onward met (onward?_of_value found)] at stands
        exact ⟨visiting, result, stands⟩
  | inKey comes computed _ ih =>
      rcases exists_resolvePart_of_ok resolved comes.mem with ⟨result, made⟩
      rcases bind_eq_ok_iff.mp made with ⟨first, ofKey, -⟩
      rw [if_pos computed] at ofKey
      exact ih ofKey
  | onward named unmet leads _ ih =>
      rcases named.exists_of_ok resolved with ⟨result, stands⟩
      rw [resolveName_of_onward unmet leads] at stands
      exact ih stands

/-- The value of a key, when it can be resolved, does not meet the key. -/
theorem not_meets_of_ok {value : String} (found : lookup.get? name = some value)
    {out : List Char} (resolved : resolveText lookup mode [] value.toList = .ok out) :
    ¬ Meets lookup mode name [] value.toList := by
  intro meets
  -- Meeting the key, the resolution resolves the value once more, below the key.  That it succeeds
  -- there contradicts that it meets the key.
  rcases exists_resolved_of_meets meets found resolved with ⟨under, result, inside⟩
  have alone : resolveText lookup mode [name] value.toList = .ok result :=
    resolveText_of_subset (List.cons_subset_cons name (List.nil_subset under)) inside
  rcases barred_of_meets meets (List.nil_subset [name]) List.mem_cons_self List.not_mem_nil with
    ⟨met, text, -, -, fails⟩
  cases alone.symm.trans fails

/-! ## One key more -/

/-- A resolution that does not meet the key is the same while the key is being resolved. -/
theorem resolveText_singleton (apart : ¬ Meets lookup mode name [] text) :
    resolveText lookup mode [name] text = resolveText lookup mode [] text := by
  rcases sameUnless_of_subset (List.nil_subset [name]) with same | ⟨error, bars, -⟩
  · exact same
  · rcases bars with ⟨met, inside, -, member, -, meets⟩
    exact absurd (List.mem_singleton.mp member ▸ meets) apart

/-- A resolution that meets the key fails at it while the key is being resolved. -/
theorem exists_error_of_meets (meets : Meets lookup mode name [] text) :
    ∃ inside, resolveText lookup mode [name] text =
      .error (.unresolvablePlaceholder name inside) := by
  rcases barred_of_meets meets (List.nil_subset [name]) List.mem_cons_self List.not_mem_nil with
    ⟨met, inside, member, -, fails⟩
  exact ⟨inside, List.mem_singleton.mp member ▸ fails⟩

/-- The value of a key resolves by itself to what it resolves to while the key is being
resolved. -/
theorem resolveText_singleton_eq_ok_iff {value : String} (found : lookup.get? name = some value)
    {out : List Char} :
    resolveText lookup mode [name] value.toList = .ok out ↔
      resolveText lookup mode [] value.toList = .ok out := by
  constructor
  · exact resolveText_of_subset (List.nil_subset [name])
  · intro resolved
    rwa [resolveText_singleton (not_meets_of_ok found resolved)]

end Placeholder
end LayeredConfig

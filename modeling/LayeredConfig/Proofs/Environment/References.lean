import LayeredConfig.Environment
import LayeredConfig.Proofs.Placeholder.Meeting
import LayeredConfig.Proofs.Placeholder.Writing
import Mathlib

namespace LayeredConfig

/-!
# References to keys of an environment

A text that is a single reference resolves as the value of its key does, or, when
no source holds the key, as its fallback.  For values this is so whatever they
lead back to.  A fallback is resolved while the key counts as being resolved, so
that it must not meet the key again.
-/

namespace Placeholder

variable {lookup : Lookup} {mode : Mode} {key : String}

/-- A reference to the key as it stands in a text. -/
def mention (key : String) (fallback : Option String) : String :=
  String.ofList (Segment.write (.reference key.toList (fallback.map String.toList)))

example : mention "key" none = "${key}" := rfl

example : mention "key" (some "fallback") = "${key:fallback}" := rfl

theorem resolve_mention_of_value (plain : PlainKey key.toList) {value : String}
    (found : lookup.get? key = some value) :
    resolve lookup mode (mention key none) =
      (resolveText lookup mode [key] value.toList).map String.ofList := by
  have unwritten : ∀ other, (none : Option (List Char)) = some other → Balanced other :=
    fun _ some => by cases some
  rw [resolve, mention, String.toList_ofList, Option.map_none,
    resolveText_write lookup mode [] plain unwritten,
    resolveName_of_onward List.not_mem_nil (onward?_of_value found)]

theorem resolve_mention_of_fallback (plain : PlainKey key.toList)
    (missing : lookup.get? key = none) {fallback : String} (balanced : Balanced fallback.toList) :
    resolve lookup mode (mention key (some fallback)) =
      (resolveText lookup mode [key] fallback.toList).map String.ofList := by
  have written : ∀ other, some fallback.toList = some other → Balanced other :=
    fun _ same => Option.some.inj same ▸ balanced
  rw [resolve, mention, String.toList_ofList, Option.map_some,
    resolveText_write lookup mode [] plain written,
    resolveName_of_onward List.not_mem_nil (onward?_of_missing missing)]

/-- A reference to a key that has a value resolves to what the value resolves to. -/
theorem resolve_mention_eq_ok_iff (plain : PlainKey key.toList) {value : String}
    (found : lookup.get? key = some value) {out : String} :
    resolve lookup mode (mention key none) = .ok out ↔ resolve lookup mode value = .ok out := by
  rw [resolve_mention_of_value plain found, resolve, Traversal.map_eq_ok_iff,
    Traversal.map_eq_ok_iff]
  simp only [resolveText_singleton_eq_ok_iff found]

end Placeholder

namespace Environment

open Placeholder

/-- Resolve the placeholders of a text in either mode. -/
def resolveIn (environment : Environment) : Mode → String → Except Error String
  | .strict => environment.resolve
  | .lenient => environment.resolveLenient

theorem resolveIn_eq (environment : Environment) (mode : Mode) :
    environment.resolveIn mode = Placeholder.resolve environment.lookup mode := by
  cases mode <;> rfl

/-! ## Keys with a value -/

/-- A reference to a key that has a value can be resolved exactly when the value can, and then
to the same text. -/
theorem mention_resolves_as_value (environment : Environment) {key value : String}
    (plain : PlainKey key.toList) (held : environment.get? key = some value) (out : String) :
    (environment.resolve (mention key none) = .ok out ↔
      environment.getResolved key = .ok (some out)) ∧
    (environment.resolveLenient (mention key none) = .ok out ↔
      environment.resolveLenient value = .ok out) := by
  refine ⟨?_, resolve_mention_eq_ok_iff plain held⟩
  have direct : environment.getResolved key = .ok (some out) ↔
      environment.resolve value = .ok out := by
    rw [getResolved, held]
    dsimp only
    rw [Traversal.map_eq_ok_iff]
    simp
  exact (resolve_mention_eq_ok_iff plain held).trans direct.symm

/-- A layer whose values lead on to others: `host` to `port`, `left` and `right` to one another,
and `spare` to a key that no source holds. -/
def leading : Environment :=
  initial.addLast ((((((Property.Source.named "layer").set "port" "80").set "host" "a:${port}").set
    "left" "${right}").set "right" "${left}").set "spare" "${none:x}")

theorem mention_resolves_as_value_host :
    leading.get? "host" = some "a:${port}" ∧
      leading.resolve (mention "host" none) = .ok "a:80" ∧
      leading.resolveLenient (mention "host" none) = .ok "a:80" ∧
      leading.get? "left" = some "${right}" ∧
      ∀ out, leading.resolve (mention "left" none) ≠ .ok out := by
  have plain : PlainKey "host".toList := by decide
  have plainLeft : PlainKey "left".toList := by decide
  have held : leading.get? "host" = some "a:${port}" := by cbv
  have heldLeft : leading.get? "left" = some "${right}" := by cbv
  have strict : leading.getResolved "host" = .ok (some "a:80") := by cbv
  have lenient : leading.resolveLenient "a:${port}" = .ok "a:80" := by cbv
  have circle : leading.getResolved "left" =
      .error (.unresolvablePlaceholder "right" "${right}") := by cbv
  refine ⟨held, (mention_resolves_as_value leading plain held _).1.mpr strict,
    (mention_resolves_as_value leading plain held _).2.mpr lenient, heldLeft, ?_⟩
  intro out resolved
  cases ((mention_resolves_as_value leading plainLeft heldLeft out).1.mp resolved).symm.trans circle

/-! ## Keys without a value -/

/-- A reference to a key that no source holds resolves as its fallback does, text for text and
failure for failure, when resolving the fallback does not meet the key; when it does, the
reference cannot be resolved. -/
theorem mention_resolves_as_fallback (environment : Environment) {key fallback : String}
    (plain : PlainKey key.toList)
    (missing : ∀ source ∈ environment.sources.layers, source.get? key = none)
    (balanced : Balanced fallback.toList) (mode : Mode) :
    (¬ Meets environment.lookup mode key [] fallback.toList →
      environment.resolveIn mode (mention key (some fallback)) =
        environment.resolveIn mode fallback) ∧
    (Meets environment.lookup mode key [] fallback.toList →
      ∃ inside, environment.resolveIn mode (mention key (some fallback)) =
        .error (.unresolvablePlaceholder key inside)) := by
  have absent : environment.lookup.get? key = none := List.findSome?_eq_none_iff.mpr missing
  rw [resolveIn_eq, resolve_mention_of_fallback plain absent balanced]
  refine ⟨fun apart => ?_, fun meets => ?_⟩
  · rw [resolveText_singleton apart, Placeholder.resolve]
  · rcases exists_error_of_meets meets with ⟨inside, fails⟩
    exact ⟨inside, by rw [fails]; rfl⟩

theorem not_met_by_host (mode : Mode) :
    ¬ Meets leading.lookup mode "none" [] "${host}".toList := by
  intro meets
  have resolved : resolveText leading.lookup mode ["none"] "${host}".toList =
      .ok "a:80".toList := by cases mode <;> cbv
  rcases exists_error_of_meets meets with ⟨inside, fails⟩
  cases resolved.symm.trans fails

theorem met_by_spare (mode : Mode) : Meets leading.lookup mode "none" [] "${spare}".toList := by
  have outer : "${spare}".toList = Segment.write (.reference "spare".toList none) := rfl
  have inner : "${none:x}".toList = Segment.write (.reference "none".toList (some ['x'])) := rfl
  have found : leading.lookup.get? "spare" = some "${none:x}" := by cbv
  have met : Meets leading.lookup mode "none" ["spare"] "${none:x}".toList := by
    rw [inner]
    refine .here (names_write (by decide) fun other same => ?_)
    cases same
    decide
  rw [outer]
  refine .onward (names_write (by decide) fun other same => ?_) List.not_mem_nil
    (onward?_of_value found) met
  cases same

/-- A fallback may lead on to values as long as they do not come back to the key. -/
theorem mention_resolves_as_fallback_host :
    leading.resolveIn .strict (mention "none" (some "${host}")) =
        leading.resolveIn .strict "${host}" ∧
      ∃ inside, leading.resolveIn .lenient (mention "none" (some "${spare}")) =
        .error (.unresolvablePlaceholder "none" inside) := by
  have plain : PlainKey "none".toList := by decide
  have missing : ∀ source ∈ leading.sources.layers, source.get? "none" = none :=
    List.findSome?_eq_none_iff.mp (by cbv)
  exact ⟨(mention_resolves_as_fallback leading plain missing (by decide) .strict).1
      (not_met_by_host .strict),
    (mention_resolves_as_fallback leading plain missing (by decide) .lenient).2
      (met_by_spare .lenient)⟩

/-- A fallback that meets the key again, itself or through the value of another key, resolves by
itself and not behind the key, although no source holds the key. -/
theorem fallback_meeting_key_fails :
    (∀ source ∈ leading.sources.layers, source.get? "none" = none) ∧
      leading.resolve "${none:${none:x}}" = .error (.unresolvablePlaceholder "none" "${none:x}") ∧
      leading.resolve "${none:x}" = .ok "x" ∧
      leading.resolve "${none:${spare}}" = .error (.unresolvablePlaceholder "none" "${none:x}") ∧
      leading.resolve "${spare}" = .ok "x" ∧
      leading.resolveLenient "${none:${none}}" =
        .error (.unresolvablePlaceholder "none" "${none}") ∧
      leading.resolveLenient "${none}" = .ok "${none}" := by
  refine ⟨List.findSome?_eq_none_iff.mp (by cbv), ?_, ?_, ?_, ?_, ?_, ?_⟩ <;> cbv

end Environment
end LayeredConfig

import LayeredConfig.Proofs.Environment.References
import LayeredConfig.Proofs.Placeholder.SharedKeys
import LayeredConfig.Proofs.Placeholder.Joining
import Mathlib

namespace LayeredConfig

/-!
# Texts behind one another

Two texts put together resolve to what they resolve to by themselves, if putting
them together leaves their segments as they are.  However often they refer to the
same keys, in themselves or through values, neither notices the other, since a call
that succeeds leaves no key behind.
-/

namespace Placeholder

variable {lookup : Lookup} {mode : Mode} {first second : String}

/-- Put together, the texts have the segments of the first and then those of the second, but for
literals that meet. -/
def Apart (first second : String) : Prop :=
  segments (first ++ second).toList = meet (segments first.toList) (segments second.toList)

instance (first second : String) : Decidable (Apart first second) :=
  inferInstanceAs (Decidable (_ = _))

/-- So it is when the first text ends outside its placeholders. -/
theorem apart_of_closed (closed : Closed first.toList) (second : String) : Apart first second := by
  rw [Apart, String.toList_append, segments_append_of_closed closed]

theorem resolve_append_iff (apart : Apart first second) {out : String} :
    resolve lookup mode (first ++ second) = .ok out ↔
      ∃ front back, resolve lookup mode first = .ok front ∧
        resolve lookup mode second = .ok back ∧ out = front ++ back := by
  simp only [resolve_eq_ok_iff]
  rw [Apart] at apart
  rw [apart, resolves_meet_iff]
  constructor
  · rintro ⟨front, back, ofFirst, ofSecond, same⟩
    refine ⟨String.ofList front, String.ofList back, ?_, ?_, ?_⟩
    · rwa [String.toList_ofList]
    · rwa [String.toList_ofList]
    · rw [← String.toList_inj, same, String.toList_append, String.toList_ofList,
        String.toList_ofList]
  · rintro ⟨front, back, ofFirst, ofSecond, rfl⟩
    exact ⟨front.toList, back.toList, ofFirst, ofSecond, String.toList_append⟩

end Placeholder

namespace Environment

open Placeholder

/-- Two texts whose segments stay apart resolve together exactly when each of them does, and then
to what they resolve to, one after the other.  The recursion that keeps the keys being resolved in
one set for all calls comes to the same outcomes, and every call that succeeds leaves that set as it
found it. -/
theorem siblings_resolve_apart (environment : Environment) (mode : Mode) :
    (∀ first second, Apart first second → ∀ out,
      environment.resolveIn mode (first ++ second) = .ok out ↔
        ∃ front back, environment.resolveIn mode first = .ok front ∧
          environment.resolveIn mode second = .ok back ∧ out = front ++ back) ∧
    (∀ text outcome, EndsIn environment.get? mode text outcome ↔
      environment.resolveIn mode text = outcome) ∧
    ∀ depth text keys out after,
      (resolveShared environment.get? mode depth text).run keys = ended (.ok (out, after)) →
        after = keys := by
  rw [resolveIn_eq]
  refine ⟨?_, ?_, ?_⟩
  · exact fun first second apart out => resolve_append_iff apart
  · exact fun text outcome => endsIn_iff environment.lookup
  · exact fun depth text keys out after => keys_eq_of_resolveShared environment.lookup

/-- The key of one text may stand behind a value in the next. -/
theorem siblings_resolve_apart_host :
    Apart "${port}/${host}" "-${host}" ∧
      leading.resolveIn .strict ("${port}/${host}" ++ "-${host}") = .ok "80/a:80-a:80" := by
  have ends : Closed "${port}/${host}".toList :=
    .reference rfl (.plain (by decide) (.reference rfl .nil))
  have apart : Apart "${port}/${host}" "-${host}" := apart_of_closed ends _
  have first : leading.resolveIn .strict "${port}/${host}" = .ok "80/a:80" := by cbv
  have second : leading.resolveIn .strict "-${host}" = .ok "-a:80" := by cbv
  exact ⟨apart, ((siblings_resolve_apart leading .strict).1 _ _ apart _).mpr
    ⟨_, _, first, second, rfl⟩⟩

end Environment
end LayeredConfig

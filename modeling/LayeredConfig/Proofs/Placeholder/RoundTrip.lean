import LayeredConfig.Proofs.Placeholder.Writing
import Mathlib

namespace LayeredConfig
namespace Placeholder

/-!
# Segments that are read back

Segments are written one after the other.  They are read back as they are when each
of them can be told from its text, however deep the braces in keys and fallbacks
go, and when no two literals meet, which would be read as one.
-/

/-- The segment can be told from its text: literals are not empty and hold no dollar, keys are
legible, and the braces of fallbacks pair up. -/
def Segment.Legible : Segment → Prop
  | .literal text => text ≠ [] ∧ '$' ∉ text
  | .reference key fallback =>
      LegibleKey key ∧ ∀ other, fallback = some other → Balanced other

instance : DecidablePred Segment.Legible
  | .literal text => inferInstanceAs (Decidable (text ≠ [] ∧ '$' ∉ text))
  | .reference key none =>
      decidable_of_iff (LegibleKey key) (iff_self_and.mpr fun _ other absent => nomatch absent)
  | .reference key (some other) =>
      decidable_of_iff (LegibleKey key ∧ Balanced other) (and_congr_right' (by simp))

def Segment.isReference : Segment → Bool
  | .literal _ => false
  | .reference _ _ => true

/-- No two literals stand side by side. -/
def LiteralsApart (parts : List Segment) : Prop :=
  parts.IsChain fun first second => first.isReference = true ∨ second.isReference = true

instance : DecidablePred LiteralsApart :=
  fun parts => inferInstanceAs (Decidable (parts.IsChain _))

/-- The text of segments. -/
def write (parts : List Segment) : List Char :=
  parts.flatMap Segment.write

theorem prepend_of_apart {text : List Char} {parts : List Segment}
    (apart : LiteralsApart (.literal text :: parts)) :
    prepend text parts = .literal text :: parts := by
  cases parts with
  | nil => rfl
  | cons part others =>
      cases part with
      | literal more => simp [LiteralsApart, Segment.isReference] at apart
      | reference key fallback => rfl

/-- Segments that can be told from their text are read back from it. -/
theorem segments_read_back {parts : List Segment} (legible : ∀ part ∈ parts, part.Legible)
    (apart : LiteralsApart parts) : segments (write parts) = parts := by
  induction parts with
  | nil => rw [write, List.flatMap_nil, segments]
  | cons part others ih =>
      rw [List.forall_mem_cons] at legible
      have later : segments (write others) = others := ih legible.2 apart.of_cons
      rw [write, List.flatMap_cons]
      cases part with
      | literal text =>
          rcases legible.1 with ⟨nonempty, dollar⟩
          -- No literal follows that the text would be joined with.
          calc segments (text ++ write others)
              _ = prepend text (segments (write others)) :=
                segments_append_plain nonempty dollar (write others)
              _ = prepend text others := by rw [later]
              _ = .literal text :: others := prepend_of_apart apart
      | reference key fallback =>
          rcases legible.1 with ⟨legibleKey, balanced⟩
          calc segments (Segment.write (.reference key fallback) ++ write others)
              _ = .reference key fallback :: segments (write others) :=
                segments_write_append legibleKey balanced (write others)
              _ = .reference key fallback :: others := by rw [later]

/-- A reference whose key and fallback hold references, between plain text. -/
def nestedParts : List Segment :=
  [.literal "at ".toList, .reference "${env:x}.port".toList (some "${a}:80".toList),
    .literal "/".toList]

theorem segments_read_back_nested :
    write nestedParts = "at ${${env:x}.port:${a}:80}/".toList ∧
      segments "at ${${env:x}.port:${a}:80}/".toList = nestedParts := by
  have legible : ∀ part ∈ nestedParts, part.Legible := by decide
  have apart : LiteralsApart nestedParts := by decide
  exact ⟨rfl, segments_read_back legible apart⟩

end Placeholder
end LayeredConfig

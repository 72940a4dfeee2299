import LayeredConfig.Proofs.Placeholder.Dollars
import LayeredConfig.Proofs.Placeholder.Writing

namespace LayeredConfig
namespace Placeholder

/-!
# Escaped placeholders

Two dollars before a text between braces keep a placeholder from being read.  They
do so up to the first closing brace only.  What stands behind it is read like any
other text, so that the whole is kept, whatever values there are, exactly when no
dollar behind that brace begins anything.
-/

/-- The text between braces, with a dollar in front of them. -/
def braced (body : List Char) : String :=
  String.ofList ('$' :: '{' :: body ++ ['}'])

/-- The text between braces, with two dollars in front of them. -/
def escaped (body : List Char) : String :=
  String.ofList ('$' :: '$' :: '{' :: body ++ ['}'])

/-- No dollar of the text stands before another one or before an opening brace. -/
def Quiet (text : List Char) : Prop :=
  ¬ ['$', '$'] <:+: text ∧ ¬ ['$', '{'] <:+: text

instance (text : List Char) : Decidable (Quiet text) :=
  inferInstanceAs (Decidable (_ ∧ _))

/-! ## The first closing brace -/

theorem braces_of_nearest {first : List Char} (nearest : '}' ∉ first) (beyond : List Char) :
    throughBrace (first ++ '}' :: beyond) = first ++ ['}'] ∧
      afterBrace (first ++ '}' :: beyond) = beyond := by
  induction first with
  | nil => simp [throughBrace, afterBrace]
  | cons c others ih =>
      rw [List.mem_cons, not_or] at nearest
      simp [throughBrace, afterBrace, Ne.symm nearest.1, ih nearest.2]

variable {body first beyond : List Char}

theorem segments_escaped (cut : body ++ ['}'] = first ++ '}' :: beyond) (nearest : '}' ∉ first) :
    segments (escaped body).toList = prepend (braced first).toList (segments beyond) := by
  have braces := braces_of_nearest nearest beyond
  rw [escaped, braced, String.toList_ofList, String.toList_ofList, List.cons_append,
    List.cons_append, List.cons_append, cut, segments, braces.1, braces.2]
  rfl

/-! ## Texts without values -/

section Nothing

variable {lookup : Lookup} {visiting : List String} {text out : List Char}

/-- Where no key has a value, strict resolution takes the fallback of a reference. -/
theorem exists_fallback_of_resolvePart (nothing : ∀ key, lookup.get? key = none)
    {key : List Char} {fallback : Option (List Char)}
    (resolved : resolvePart lookup .strict visiting text (.reference key fallback) = .ok out) :
    ∃ name other, fallback = some other ∧
      resolveText lookup .strict (name :: visiting) other = .ok out := by
  rcases Traversal.bind_eq_ok_iff.mp resolved with ⟨found, -, stands⟩
  unfold resolveName at stands
  dsimp only at stands
  split at stands
  · cases stands
  · rw [nothing] at stands
    cases fallback with
    | none => cases stands
    | some other => exact ⟨_, other, rfl, stands⟩

/-- The text comes out no longer than it is written, and as long only if no dollar in it begins
anything, provided that its braces are closed. -/
structure Shrinks (text out : List Char) : Prop where
  le : out.length ≤ text.length
  quiet : out.length = text.length → ∀ depth, pairsUp depth text = true → Quiet text

theorem shrinks_of_lt (less : out.length < text.length) : Shrinks text out where
  le := less.le
  quiet := fun same => absurd same less.ne

/-- An opening brace that is not closed is kept, but then the braces do not pair up. -/
theorem shrinks_of_unclosed (unclosed : closeBrace 0 text = none) :
    Shrinks ('$' :: '{' :: text) ('$' :: '{' :: text) where
  le := le_rfl
  quiet := by
    intro _ depth paired
    have pairedRest : pairsUp (depth + 1) text = true := paired
    have closes := isSome_closeBrace_of_pairsUp pairedRest depth.succ_pos
    rw [unclosed] at closes
    cases closes

/-- A character that begins nothing is kept. -/
theorem Shrinks.cons {c : Char} (shrinks : Shrinks text out)
    (double : ∀ rest, c = '$' → text = '$' :: rest → False)
    (brace : ∀ rest, c = '$' → text = '{' :: rest → False) : Shrinks (c :: text) (c :: out) where
  le := Nat.succ_le_succ shrinks.le
  quiet := by
    intro same depth paired
    have behind : pairsUp depth ([c] ++ text) = true := paired
    rcases exists_pairsUp_of_append behind with ⟨inner, pairedRest⟩
    have quiet := shrinks.quiet (Nat.succ.inj same) inner pairedRest
    exact ⟨(pair_infix_cons_iff double).not.mpr quiet.1, (pair_infix_cons_iff brace).not.mpr quiet.2⟩

/-- Where no key has a value, strict resolution makes no text longer. -/
theorem shrinks_of_resolves (nothing : ∀ key, lookup.get? key = none) {bound : Nat}
    (fits : text.length < bound) (resolved : Resolves lookup .strict visiting (segments text) out) :
    Shrinks text out := by
  -- A fallback is shorter than its text but not among the rests that the segments are read from.
  induction bound generalizing visiting text out with
  | zero => cases fits
  | succ bound ih =>
      fun_induction segments text with
      | case1 =>
          cases resolved
          exact ⟨le_rfl, fun _ _ _ => by decide⟩
      | case2 rest =>
          rcases resolves_prepend_iff.mp resolved with ⟨more, later, rfl⟩
          have parts := congrArg List.length (throughBrace_append_afterBrace rest)
          simp only [List.length_append, List.length_cons] at fits parts
          have short := (ih (by omega) later).le
          apply shrinks_of_lt
          simp only [List.length_append, List.length_cons]
          omega
      | case3 rest =>
          rcases resolves_prepend_iff.mp resolved with ⟨more, later, rfl⟩
          simp only [List.length_cons] at fits
          have short := (ih (by omega) later).le
          apply shrinks_of_lt
          simp only [List.length_append, List.length_cons, List.length_nil]
          omega
      | case4 rest body after closed =>
          rcases resolves_cons_iff.mp resolved with ⟨first, more, ofReference, later, rfl⟩
          rcases exists_fallback_of_resolvePart nothing ofReference with
            ⟨name, other, written, ofFallback⟩
          have inside := (length_cutAtColon 0 body).2 other written
          have parts := congrArg List.length (eq_append_of_closeBrace closed)
          simp only [List.length_append, List.length_cons] at fits parts
          have short := (ih (by omega) (resolveText_eq_ok_iff.mp ofFallback)).le
          have shortLater := (ih (by omega) later).le
          apply shrinks_of_lt
          simp only [List.length_append, List.length_cons]
          omega
      | case5 rest unclosed =>
          rcases resolves_cons_iff.mp resolved with ⟨_, _, written, others, rfl⟩
          cases written
          cases others
          simpa using shrinks_of_unclosed unclosed
      | case6 c rest escape double brace =>
          rcases resolves_prepend_iff.mp resolved with ⟨more, later, rfl⟩
          exact (ih (Nat.lt_of_succ_lt_succ fits) later).cons double brace

end Nothing

/-! ## How far an escape reaches -/

/-- An escape is kept through the first closing brace, and what stands behind it is resolved. -/
theorem resolve_escaped_iff (cut : body ++ ['}'] = first ++ '}' :: beyond) (nearest : '}' ∉ first)
    {lookup : Lookup} {mode : Mode} {out : String} :
    resolve lookup mode (escaped body) = .ok out ↔
      ∃ rest, resolve lookup mode (String.ofList beyond) = .ok rest ∧ out = braced first ++ rest := by
  simp only [resolve_eq_ok_iff, segments_escaped cut nearest, resolves_prepend_iff,
    String.toList_ofList]
  constructor
  · rintro ⟨rest, resolved, same⟩
    refine ⟨String.ofList rest, by rwa [String.toList_ofList], ?_⟩
    rw [← String.toList_inj, String.toList_append, String.toList_ofList, same]
  · rintro ⟨rest, resolved, rfl⟩
    exact ⟨rest.toList, resolved, String.toList_append⟩

theorem toList_braced (cut : body ++ ['}'] = first ++ '}' :: beyond) :
    (braced body).toList = (braced first).toList ++ beyond := by
  rw [braced, braced, String.toList_ofList, String.toList_ofList, List.cons_append,
    List.cons_append, cut]
  simp

theorem exists_pairsUp_beyond (balanced : Balanced body)
    (cut : body ++ ['}'] = first ++ '}' :: beyond) : ∃ depth, pairsUp depth beyond = true := by
  have whole : pairsUp 1 (body ++ ['}']) = true := pairsUp_append balanced 1 ['}']
  rw [cut, ← List.singleton_append, ← List.append_assoc] at whole
  exact exists_pairsUp_of_append whole

/-- An escaped text with braces that pair up is kept through its first closing brace, whatever
values there are, and what stands behind that brace is resolved.  It is kept as a whole with all
values exactly when no dollar behind that brace stands before another one or before an opening
brace. -/
theorem escape_reaches_first_brace (balanced : Balanced body)
    (cut : body ++ ['}'] = first ++ '}' :: beyond) (nearest : '}' ∉ first) :
    (Fixed (escaped body) (braced body) ↔ Quiet beyond) ∧
      ∀ lookup mode out, resolve lookup mode (escaped body) = .ok out ↔
        ∃ rest, resolve lookup mode (String.ofList beyond) = .ok rest ∧
          out = braced first ++ rest := by
  have reaches : ∀ lookup mode out, resolve lookup mode (escaped body) = .ok out ↔
      ∃ rest, resolve lookup mode (String.ofList beyond) = .ok rest ∧
        out = braced first ++ rest := fun lookup mode out => resolve_escaped_iff cut nearest
  refine ⟨⟨fun fixed => ?_, fun quiet => ?_⟩, reaches⟩
  · -- Without values a text resolves to itself only if nothing in it stands for anything.
    rcases (reaches _ _ _).mp (fixed.resolves (.ofTable .empty) .strict) with ⟨rest, resolved, same⟩
    have kept : rest.toList = beyond := by
      have lists := congrArg String.toList same
      rw [toList_braced cut, String.toList_append] at lists
      exact (List.append_cancel_left lists).symm
    rw [resolve_eq_ok_iff, String.toList_ofList, kept] at resolved
    rcases exists_pairsUp_beyond balanced cut with ⟨depth, paired⟩
    exact (shrinks_of_resolves (fun _ => rfl) (Nat.lt_succ_self _) resolved).quiet rfl depth paired
  · have literal : prepend [] (segments (escaped body).toList) = [.literal (braced body).toList] := by
      rw [segments_escaped cut nearest, prepend_prepend, prepend_segments_of_unopened quiet.2,
        pairDollars_eq_self_iff.mpr quiet.1, List.nil_append, toList_braced cut]
    have fixed := fixed_of_literal literal
    rwa [String.ofList_toList] at fixed

/-- An escape keeps placeholders inside one another, and not those behind one another. -/
theorem escape_reaches_first_brace_nested :
    Fixed "$${${x:${y}}}" "${${x:${y}}}" ∧ ¬ Fixed "$${${x}${y}}" "${${x}${y}}" := by
  have nested : "${x:${y}}".toList ++ ['}'] =
      ['$', '{', 'x', ':', '$', '{', 'y'] ++ '}' :: ['}', '}'] := by decide
  have behind : "${x}${y}".toList ++ ['}'] =
      ['$', '{', 'x'] ++ '}' :: ['$', '{', 'y', '}', '}'] := by decide
  exact ⟨(escape_reaches_first_brace (by decide) nested (by decide)).1.mpr (by decide),
    (escape_reaches_first_brace (by decide) behind (by decide)).1.not.mpr (by decide)⟩

end Placeholder

namespace Environment

/-- A layer with two values. -/
def twoValues : Environment :=
  initial.addLast (((Property.Source.named "layer").set "x" "1").set "y" "2")

/-- Of two placeholders behind one another the second is resolved in spite of the escape. -/
theorem escape_cut_short :
    Placeholder.Balanced "${x}${y}".toList ∧
      twoValues.resolve "$${${x}${y}}" = .ok "${${x}2}" ∧
      twoValues.resolveLenient "$${${x}${y}}" = .ok "${${x}2}" := by
  refine ⟨by decide, ?_, ?_⟩ <;> cbv

end Environment
end LayeredConfig

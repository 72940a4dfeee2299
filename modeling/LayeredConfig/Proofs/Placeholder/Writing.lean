import LayeredConfig.Proofs.Placeholder.Comparison
import LayeredConfig.Proofs.Placeholder.Joining

namespace LayeredConfig
namespace Placeholder

/-!
# References as they are written

A reference is written with its key and, after a colon, its fallback between
braces.  It is read back when the key is plain and the braces of the fallback
pair up, and it resolves to what its key stands for.
-/

/-! ## Texts whose braces pair up -/

/-- Each brace that the text closes was opened in it or is one of `depth` braces before it, and
at the end none is open. -/
def pairsUp : (depth : Nat) → List Char → Bool
  | depth, [] => depth == 0
  | depth, '{' :: rest => pairsUp (depth + 1) rest
  | 0, '}' :: _ => false
  | depth + 1, '}' :: rest => pairsUp depth rest
  | depth, _ :: rest => pairsUp depth rest

/-- The braces of the text pair up. -/
def Balanced (text : List Char) : Prop :=
  pairsUp 0 text = true

instance (text : List Char) : Decidable (Balanced text) :=
  inferInstanceAs (Decidable (pairsUp 0 text = true))

/-- The brace after a text that closes all others is the one that is looked for. -/
theorem closeBrace_of_pairsUp {depth : Nat} {body : List Char} (paired : pairsUp depth body = true)
    (rest : List Char) : closeBrace depth (body ++ '}' :: rest) = some (body, rest) := by
  fun_induction pairsUp depth body with
  | case1 depth =>
      rw [beq_iff_eq.mp paired, List.nil_append, closeBrace]
  | case2 depth after ih =>
      rw [List.cons_append, closeBrace, ih paired]
      rfl
  | case3 => cases paired
  | case4 depth after ih =>
      rw [List.cons_append, closeBrace, ih paired]
      rfl
  | case5 depth c after opening shallow deep ih =>
      rw [List.cons_append, closeBrace, ih paired]
      · rfl
      · exact opening
      · exact shallow
      · exact deep

theorem ne_closing_of_arms {depth : Nat} {c : Char} (shallow : depth = 0 → c = '}' → False)
    (deep : ∀ less, depth = Nat.succ less → c = '}' → False) : c ≠ '}' := by
  cases depth with
  | zero => exact shallow rfl
  | succ less => exact deep less rfl

/-- A text that closes what is open leaves the rest to itself. -/
theorem pairsUp_append {depth : Nat} {text : List Char} (paired : pairsUp depth text = true)
    (extra : Nat) (more : List Char) :
    pairsUp (depth + extra) (text ++ more) = pairsUp extra more := by
  fun_induction pairsUp depth text with
  | case1 depth => rw [beq_iff_eq.mp paired, Nat.zero_add, List.nil_append]
  | case2 depth after ih => rw [List.cons_append, pairsUp, ← ih paired, Nat.add_right_comm]
  | case3 => cases paired
  | case4 depth after ih => rw [Nat.succ_add, List.cons_append, pairsUp, ih paired]
  | case5 depth c after opening shallow deep ih =>
      have closing := ne_closing_of_arms shallow deep
      rw [List.cons_append, pairsUp, ih paired]
      · exact opening
      all_goals simp [closing]

theorem exists_pairsUp_of_append {depth : Nat} {before after : List Char}
    (paired : pairsUp depth (before ++ after) = true) : ∃ inner, pairsUp inner after = true := by
  induction before generalizing depth with
  | nil => exact ⟨depth, paired⟩
  | cons c others ih =>
      rw [List.cons_append] at paired
      unfold pairsUp at paired
      split at paired
      · next none => cases none
      · next begins => cases begins; exact ih paired
      · cases paired
      · next begins => cases begins; exact ih paired
      · next begins => cases begins; exact ih paired

/-- A brace that is open when the text begins is closed in it. -/
theorem isSome_closeBrace_of_pairsUp {depth inner : Nat} {text : List Char}
    (paired : pairsUp depth text = true) (open_ : inner < depth) :
    (closeBrace inner text).isSome = true := by
  fun_induction pairsUp depth text generalizing inner with
  | case1 depth => exact absurd (beq_iff_eq.mp paired ▸ open_) (Nat.not_lt_zero inner)
  | case2 depth after ih =>
      rw [closeBrace, Option.isSome_map]
      exact ih paired (Nat.succ_lt_succ open_)
  | case3 => cases paired
  | case4 depth after ih =>
      cases inner with
      | zero => rw [closeBrace, Option.isSome_some]
      | succ inner =>
          rw [closeBrace, Option.isSome_map]
          exact ih paired (Nat.lt_of_succ_lt_succ open_)
  | case5 depth c after opening shallow deep ih =>
      have closing := ne_closing_of_arms shallow deep
      rw [closeBrace, Option.isSome_map]
      · exact ih paired open_
      all_goals simp [closing]
      exact opening

theorem balanced_of_unmarked {plain : List Char} (unmarked : Unmarked plain) : Balanced plain := by
  induction plain with
  | nil => rfl
  | cons c others ih =>
      have opening : c ≠ '{' := fun same => unmarked.opening (same ▸ List.mem_cons_self)
      have closing : c ≠ '}' := fun same => unmarked.closing (same ▸ List.mem_cons_self)
      rw [Balanced, pairsUp]
      · exact ih unmarked.tail
      all_goals simp [opening, closing]

/-! ## Plain keys -/

/-- A key that is read as it is written: no mark of a placeholder, no colon, no blank around it. -/
structure PlainKey (key : List Char) : Prop extends Unmarked key where
  colon : ':' ∉ key
  trimmed : Text.trimBoth key = key

theorem plainKey_iff {key : List Char} : PlainKey key ↔
    ('$' ∉ key ∧ '{' ∉ key ∧ '}' ∉ key) ∧ ':' ∉ key ∧ Text.trimBoth key = key := by
  constructor
  · rintro ⟨⟨dollar, opening, closing⟩, colon, trimmed⟩
    exact ⟨⟨dollar, opening, closing⟩, colon, trimmed⟩
  · rintro ⟨⟨dollar, opening, closing⟩, colon, trimmed⟩
    exact ⟨⟨dollar, opening, closing⟩, colon, trimmed⟩

instance (key : List Char) : Decidable (PlainKey key) :=
  decidable_of_iff _ plainKey_iff.symm

theorem hasReferences_of_unmarked {plain : List Char} (unmarked : Unmarked plain) :
    hasReferences plain = false := by
  have single := prepend_segments unmarked []
  unfold hasReferences
  cases parts : segments plain with
  | nil => rfl
  | cons part others =>
      rw [parts] at single
      cases part with
      | literal text =>
          rw [prepend, List.cons.injEq] at single
          rw [single.2]
          rfl
      | reference key fallback => cases single

/-! ## Legible keys -/

/-- Each colon of the text stands inside braces: the text before it leaves one open. -/
def ColonsInside (text : List Char) : Prop :=
  ∀ n, text[n]? = some ':' → ¬ Balanced (text.take n)

instance (text : List Char) : Decidable (ColonsInside text) :=
  decidable_of_iff (∀ n < text.length, text[n]? = some ':' → ¬ Balanced (text.take n))
    ⟨fun inside n found => inside n (List.getElem?_eq_some_iff.mp found).1 found,
      fun inside n _ => inside n⟩

/-- A key that is told from what follows it: its braces pair up, its colons stand inside them, and
no blank is around it. -/
structure LegibleKey (key : List Char) : Prop where
  balanced : Balanced key
  inside : ColonsInside key
  trimmed : Text.trimBoth key = key

theorem legibleKey_iff {key : List Char} :
    LegibleKey key ↔ Balanced key ∧ ColonsInside key ∧ Text.trimBoth key = key := by
  constructor
  · rintro ⟨balanced, inside, trimmed⟩
    exact ⟨balanced, inside, trimmed⟩
  · rintro ⟨balanced, inside, trimmed⟩
    exact ⟨balanced, inside, trimmed⟩

instance (key : List Char) : Decidable (LegibleKey key) :=
  decidable_of_iff _ legibleKey_iff.symm

theorem PlainKey.legible {key : List Char} (plain : PlainKey key) : LegibleKey key where
  balanced := balanced_of_unmarked plain.toUnmarked
  inside := fun _ found => absurd (List.mem_of_getElem? found) plain.colon
  trimmed := plain.trimmed

/-! ## Written references -/

/-- What stands between the braces of a reference. -/
def written (key : List Char) : Option (List Char) → List Char
  | none => key
  | some fallback => key ++ ':' :: fallback

/-- The text that a segment is read from. -/
def Segment.write : Segment → List Char
  | .literal text => text
  | .reference key fallback => '$' :: '{' :: written key fallback ++ ['}']

variable {key : List Char} {fallback : Option (List Char)}

theorem written_cons (c : Char) (key : List Char) (fallback : Option (List Char)) :
    written (c :: key) fallback = c :: written key fallback := by
  cases fallback <;> rfl

/-- The colon after a key is the first one that stands outside braces. -/
theorem cutAtColon_written {depth : Nat} (paired : pairsUp depth key = true)
    (inside : ∀ n, key[n]? = some ':' → pairsUp depth (key.take n) = false)
    (fallback : Option (List Char)) : cutAtColon depth (written key fallback) = (key, fallback) := by
  fun_induction pairsUp depth key with
  | case1 depth =>
      rw [beq_iff_eq.mp paired]
      cases fallback <;> rfl
  | case2 depth after ih =>
      rw [written_cons, cutAtColon, ih paired fun n found => inside (n + 1) found]
  | case3 => cases paired
  | case4 depth after ih =>
      rw [written_cons, cutAtColon, Nat.succ_sub_one,
        ih paired fun n found => inside (n + 1) found]
  | case5 depth c after opening shallow deep ih =>
      have closing := ne_closing_of_arms shallow deep
      -- A colon here would stand outside braces.
      have outer : depth = 0 → c = ':' → False := by
        rintro rfl rfl
        cases inside 0 rfl
      have later : ∀ n, after[n]? = some ':' → pairsUp depth (after.take n) = false := by
        intro n found
        have before := inside (n + 1) found
        rw [List.take_succ_cons, pairsUp] at before
        · exact before
        · exact opening
        all_goals simp [closing]
      rw [written_cons, cutAtColon, ih paired later]
      · exact opening
      · exact closing
      · exact outer

theorem balanced_written (legible : LegibleKey key)
    (balanced : ∀ other, fallback = some other → Balanced other) :
    Balanced (written key fallback) := by
  cases fallback with
  | none => exact legible.balanced
  | some other => exact (pairsUp_append legible.balanced 0 _).trans (balanced other rfl)

theorem readBody_written (legible : LegibleKey key) :
    readBody (written key fallback) = .reference key fallback := by
  have outside : ∀ n, key[n]? = some ':' → pairsUp 0 (key.take n) = false :=
    fun n found => Bool.eq_false_iff.mpr (legible.inside n found)
  rw [readBody, cutAtColon_written legible.balanced outside]
  exact congrArg (Segment.reference · fallback) legible.trimmed

/-- A written reference is read back, whatever follows it. -/
theorem segments_write_append (legible : LegibleKey key)
    (balanced : ∀ other, fallback = some other → Balanced other) (rest : List Char) :
    segments (Segment.write (.reference key fallback) ++ rest) =
      .reference key fallback :: segments rest := by
  have closed := closeBrace_of_pairsUp (balanced_written legible balanced) rest
  rw [Segment.write, List.cons_append, List.cons_append, List.cons_append, List.cons_append,
    List.append_assoc, List.singleton_append, segments_reference closed, readBody_written legible]

theorem segments_write (legible : LegibleKey key)
    (balanced : ∀ other, fallback = some other → Balanced other) :
    segments (Segment.write (.reference key fallback)) = [.reference key fallback] := by
  have alone := segments_write_append legible balanced []
  rwa [List.append_nil, segments] at alone

/-- A written reference resolves to what its key stands for. -/
theorem resolveText_write (lookup : Lookup) (mode : Mode) (visiting : List String)
    (plain : PlainKey key) (balanced : ∀ other, fallback = some other → Balanced other) :
    resolveText lookup mode visiting (Segment.write (.reference key fallback)) =
      resolveName lookup mode visiting (Segment.write (.reference key fallback)) fallback key := by
  rw [resolveText_eq, segments_write plain.legible balanced, List.mapM_cons, List.mapM_nil, resolvePart,
    hasReferences_of_unmarked plain.toUnmarked]
  cases named : resolveName lookup mode visiting (Segment.write (.reference key fallback))
      fallback key <;> simp [Except.bind, bind, pure, Except.pure, Except.map, named]

/-- The resolution of a written reference names its key. -/
theorem names_write {lookup : Lookup} {mode : Mode} {visiting : List String} {name : String}
    (plain : PlainKey name.toList)
    (balanced : ∀ other, fallback = some other → Balanced other) :
    Names lookup mode visiting (Segment.write (.reference name.toList fallback)) fallback name := by
  refine ⟨name.toList, ?_, ?_⟩
  · rw [ComesTo, segments_write plain.legible balanced]
    exact .here
  · rw [resolveKey, hasReferences_of_unmarked plain.toUnmarked]
    rfl

end Placeholder
end LayeredConfig

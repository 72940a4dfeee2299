import LayeredConfig.Proofs.Placeholder.Lookups
import LayeredConfig.Text.CommaList

namespace LayeredConfig
namespace Placeholder

/-!
# Texts put together

A text is resolved segment by segment.  Where the segments of a text are those of
its parts, it resolves to what the parts resolve to, one after the other.  Plain
characters at either end of a text do not disturb its segments.
-/

variable {lookup : Lookup} {mode : Mode} {visiting : List String}

/-- Segments one after the other, with the literals that meet made one. -/
def meet : List Segment → List Segment → List Segment
  | [], rest => rest
  | [.literal text], rest => prepend text rest
  | part :: others, rest => part :: meet others rest

/-! ## Segment by segment -/

/-- The text at hand only appears in errors. -/
theorem resolvePart_eq_ok {text : List Char} {part : Segment} {out : List Char}
    (resolved : resolvePart lookup mode visiting text part = .ok out) (other : List Char) :
    resolvePart lookup mode visiting other part = .ok out := by
  cases part with
  | literal plain => exact resolved
  | reference key fallback =>
      rcases Traversal.bind_eq_ok_iff.mp resolved with ⟨name, found, stands⟩
      refine Traversal.bind_eq_ok_iff.mpr ⟨name, found, ?_⟩
      unfold resolveName at stands ⊢
      dsimp only at stands ⊢
      split at stands
      · cases stands
      · next fresh =>
          rw [if_neg fresh]
          split at stands
          · assumption
          · assumption
          · assumption
          · cases stands

/-- What segments resolve to. -/
inductive Resolves (lookup : Lookup) (mode : Mode) (visiting : List String) :
    List Segment → List Char → Prop where
  | nil : Resolves lookup mode visiting [] []
  | cons {part : Segment} {parts : List Segment} {out more : List Char}
      (first : resolvePart lookup mode visiting [] part = .ok out)
      (others : Resolves lookup mode visiting parts more) :
      Resolves lookup mode visiting (part :: parts) (out ++ more)

theorem resolves_cons_iff {part : Segment} {parts : List Segment} {out : List Char} :
    Resolves lookup mode visiting (part :: parts) out ↔
      ∃ first more, resolvePart lookup mode visiting [] part = .ok first ∧
        Resolves lookup mode visiting parts more ∧ out = first ++ more := by
  constructor
  · rintro (_ | ⟨first, others⟩)
    exact ⟨_, _, first, others, rfl⟩
  · rintro ⟨_, _, first, others, rfl⟩
    exact .cons first others

theorem resolveText_eq_ok_iff {text out : List Char} :
    resolveText lookup mode visiting text = .ok out ↔
      Resolves lookup mode visiting (segments text) out := by
  rw [resolveText_eq, Traversal.map_eq_ok_iff]
  simp only [Traversal.mapM_eq_ok_iff]
  generalize segments text = parts
  induction parts generalizing out with
  | nil =>
      constructor
      · rintro ⟨outs, walked, rfl⟩
        cases walked
        exact .nil
      · rintro ⟨⟩
        exact ⟨[], .nil, rfl⟩
  | cons part parts ih =>
      rw [resolves_cons_iff]
      constructor
      · rintro ⟨outs, walked, rfl⟩
        rcases walked with _ | ⟨first, others⟩
        exact ⟨_, _, resolvePart_eq_ok first [], ih.mp ⟨_, others, rfl⟩, rfl⟩
      · rintro ⟨value, more, first, others, rfl⟩
        rcases ih.mpr others with ⟨outs, walked, rfl⟩
        exact ⟨value :: outs, .cons (resolvePart_eq_ok first text) walked, rfl⟩

theorem resolve_eq_ok_iff {text out : String} :
    resolve lookup mode text = .ok out ↔
      Resolves lookup mode [] (segments text.toList) out.toList := by
  rw [resolve, Traversal.map_eq_ok_iff]
  simp only [resolveText_eq_ok_iff]
  constructor
  · rintro ⟨_, resolved, rfl⟩
    rwa [String.toList_ofList]
  · intro resolved
    exact ⟨_, resolved, String.ofList_toList⟩

theorem resolves_prepend_iff {text out : List Char} {parts : List Segment} :
    Resolves lookup mode visiting (prepend text parts) out ↔
      ∃ rest, Resolves lookup mode visiting parts rest ∧ out = text ++ rest := by
  unfold prepend
  split
  · next more others =>
      simp only [resolves_cons_iff, resolvePart, Except.ok.injEq]
      constructor
      · rintro ⟨_, rest, rfl, resolved, rfl⟩
        exact ⟨_, ⟨_, _, rfl, resolved, rfl⟩, List.append_assoc _ _ _⟩
      · rintro ⟨_, ⟨_, rest, rfl, resolved, rfl⟩, rfl⟩
        exact ⟨_, rest, rfl, resolved, (List.append_assoc _ _ _).symm⟩
  · simp only [resolves_cons_iff, resolvePart, Except.ok.injEq]
    constructor
    · rintro ⟨_, rest, rfl, resolved, rfl⟩
      exact ⟨rest, resolved, rfl⟩
    · rintro ⟨rest, resolved, rfl⟩
      exact ⟨_, rest, rfl, resolved, rfl⟩

/-- Segments that meet resolve each to their own. -/
theorem resolves_meet_iff {first rest : List Segment} {out : List Char} :
    Resolves lookup mode visiting (meet first rest) out ↔
      ∃ front back, Resolves lookup mode visiting first front ∧
        Resolves lookup mode visiting rest back ∧ out = front ++ back := by
  fun_induction meet first rest generalizing out with
  | case1 rest =>
      constructor
      · intro resolved
        exact ⟨[], out, .nil, resolved, rfl⟩
      · rintro ⟨_, back, ⟨⟩, resolved, rfl⟩
        exact resolved
  | case2 text rest =>
      rw [resolves_prepend_iff]
      simp only [resolves_cons_iff, resolvePart, Except.ok.injEq]
      constructor
      · rintro ⟨back, resolved, rfl⟩
        exact ⟨text, back, ⟨text, [], rfl, .nil, (List.append_nil _).symm⟩, resolved, rfl⟩
      · rintro ⟨_, back, ⟨_, _, rfl, ⟨⟩, rfl⟩, resolved, rfl⟩
        exact ⟨back, resolved, by rw [List.append_nil]⟩
  | case3 part others rest _ ih =>
      simp only [resolves_cons_iff, ih]
      constructor
      · rintro ⟨value, _, resolved, ⟨front, back, middle, last, rfl⟩, rfl⟩
        exact ⟨_, back, ⟨value, front, resolved, middle, rfl⟩, last,
          (List.append_assoc _ _ _).symm⟩
      · rintro ⟨_, back, ⟨value, front, resolved, middle, rfl⟩, last, rfl⟩
        exact ⟨value, _, resolved, ⟨front, back, middle, last, rfl⟩, List.append_assoc _ _ _⟩

/-! ## Plain characters around a text -/

theorem prepend_prepend (first second : List Char) (parts : List Segment) :
    prepend first (prepend second parts) = prepend (first ++ second) parts := by
  cases parts with
  | nil => rfl
  | cons part others =>
      cases part with
      | literal text => simp only [prepend, List.append_assoc]
      | reference key fallback => rfl

theorem meet_prepend (text : List Char) (parts rest : List Segment) :
    meet (prepend text parts) rest = prepend text (meet parts rest) := by
  cases parts with
  | nil => rfl
  | cons part others =>
      cases part with
      | literal more =>
          cases others with
          | nil => exact (prepend_prepend text more rest).symm
          | cons next others => rfl
      | reference key fallback => rfl

/-- A text without the characters that mark placeholders. -/
structure Unmarked (cs : List Char) : Prop where
  dollar : '$' ∉ cs
  opening : '{' ∉ cs
  closing : '}' ∉ cs

theorem Unmarked.tail {c : Char} {rest : List Char} (unmarked : Unmarked (c :: rest)) :
    Unmarked rest where
  dollar := fun member => unmarked.dollar (List.mem_cons_of_mem c member)
  opening := fun member => unmarked.opening (List.mem_cons_of_mem c member)
  closing := fun member => unmarked.closing (List.mem_cons_of_mem c member)

theorem segments_cons {c : Char} (plain : c ≠ '$') (rest : List Char) :
    segments (c :: rest) = prepend [c] (segments rest) := by
  rw [segments]
  all_goals simp [plain]

/-- Text without dollars before a text stays one literal. -/
theorem segments_append_plain {plain : List Char} (nonempty : plain ≠ []) (dollar : '$' ∉ plain)
    (rest : List Char) : segments (plain ++ rest) = prepend plain (segments rest) := by
  induction plain with
  | nil => exact absurd rfl nonempty
  | cons c others ih =>
      rw [List.mem_cons, not_or] at dollar
      rw [List.cons_append, segments_cons (Ne.symm dollar.1)]
      cases others with
      | nil => rw [List.nil_append]
      | cons next more =>
          rw [ih (List.cons_ne_nil next more) dollar.2, prepend_prepend, List.singleton_append]

theorem segments_reference {rest body after : List Char}
    (closed : closeBrace 0 rest = some (body, after)) :
    segments ('$' :: '{' :: rest) = readBody body :: segments after := by
  rw [segments]
  split
  · next found =>
      rw [closed] at found
      cases found
      rfl
  · next found =>
      rw [closed] at found
      cases found

/-- Plain characters after plain text go on with it. -/
theorem prepend_segments {plain : List Char} (unmarked : Unmarked plain) (text : List Char) :
    prepend text (segments plain) = [.literal (text ++ plain)] := by
  cases plain with
  | nil => rw [segments, prepend, List.append_nil]; simp
  | cons c rest =>
      have alone := segments_append_plain (List.cons_ne_nil c rest) unmarked.dollar []
      rw [List.append_nil, segments] at alone
      rw [alone, prepend_prepend]
      rfl

theorem closeBrace_append {depth : Nat} {cs body rest : List Char}
    (closed : closeBrace depth cs = some (body, rest)) (more : List Char) :
    closeBrace depth (cs ++ more) = some (body, rest ++ more) := by
  fun_induction closeBrace depth cs generalizing body with
  | case1 => cases closed
  | case2 after =>
      cases closed
      rw [List.cons_append, closeBrace]
  | case3 depth after ih =>
      obtain ⟨cut, found, same⟩ := Option.map_eq_some_iff.mp closed
      cases same
      rw [List.cons_append, closeBrace, ih found]
      rfl
  | case4 depth after ih =>
      obtain ⟨cut, found, same⟩ := Option.map_eq_some_iff.mp closed
      cases same
      rw [List.cons_append, closeBrace, ih found]
      rfl
  | case5 depth c after shallow deep opening ih =>
      obtain ⟨cut, found, same⟩ := Option.map_eq_some_iff.mp closed
      cases same
      rw [List.cons_append, closeBrace, ih found]
      · rfl
      · exact opening
      · exact shallow
      · exact deep

theorem closeBrace_of_unmarked {plain : List Char} (unmarked : Unmarked plain) (depth : Nat) :
    closeBrace depth plain = none := by
  induction plain with
  | nil => rw [closeBrace]
  | cons c rest ih =>
      have opening : c ≠ '{' := fun same => unmarked.opening (same ▸ List.mem_cons_self)
      have closing : c ≠ '}' := fun same => unmarked.closing (same ▸ List.mem_cons_self)
      rw [closeBrace, ih unmarked.tail]
      · rfl
      all_goals simp [opening, closing]

/-- Plain characters close no brace. -/
theorem closeBrace_append_unmarked {depth : Nat} {cs plain : List Char}
    (unmarked : Unmarked plain) (unclosed : closeBrace depth cs = none) :
    closeBrace depth (cs ++ plain) = none := by
  fun_induction closeBrace depth cs with
  | case1 depth => exact closeBrace_of_unmarked unmarked depth
  | case2 after => cases unclosed
  | case3 depth after ih =>
      rw [List.cons_append, closeBrace, ih (Option.map_eq_none_iff.mp unclosed)]
      rfl
  | case4 depth after ih =>
      rw [List.cons_append, closeBrace, ih (Option.map_eq_none_iff.mp unclosed)]
      rfl
  | case5 depth c after shallow deep opening ih =>
      rw [List.cons_append, closeBrace, ih (Option.map_eq_none_iff.mp unclosed)]
      · rfl
      · exact opening
      · exact shallow
      · exact deep

theorem brace_append_of_mem {cs : List Char} (closing : '}' ∈ cs) (more : List Char) :
    throughBrace (cs ++ more) = throughBrace cs ∧
      afterBrace (cs ++ more) = afterBrace cs ++ more := by
  induction cs with
  | nil => cases closing
  | cons c rest ih =>
      by_cases same : c = '}'
      · simp [throughBrace, afterBrace, same]
      · have later : '}' ∈ rest := (List.mem_cons.mp closing).resolve_left (Ne.symm same)
        simp [throughBrace, afterBrace, same, ih later]

theorem brace_of_not_mem {cs : List Char} (absent : '}' ∉ cs) :
    throughBrace cs = cs ∧ afterBrace cs = [] := by
  induction cs with
  | nil => exact ⟨rfl, rfl⟩
  | cons c rest ih =>
      rw [List.mem_cons, not_or] at absent
      simp [throughBrace, afterBrace, Ne.symm absent.1, ih absent.2]

/-- A mark that begins a text with plain characters after it begins the text itself. -/
theorem exists_cons_of_append {plain : List Char} (unmarked : Unmarked plain) {mark : Char}
    (marks : mark = '$' ∨ mark = '{') {cs after : List Char} (begins : cs ++ plain = mark :: after) :
    ∃ others, cs = mark :: others := by
  cases cs with
  | nil =>
      rw [List.nil_append] at begins
      have member : mark ∈ plain := begins ▸ List.mem_cons_self
      rcases marks with rfl | rfl
      · exact absurd member unmarked.dollar
      · exact absurd member unmarked.opening
  | cons c rest => exact ⟨rest, by rw [(List.cons.inj begins).1]⟩

/-- Plain characters after a text only go on with it. -/
theorem segments_append_unmarked {plain : List Char} (unmarked : Unmarked plain)
    (cs : List Char) : segments (cs ++ plain) = meet (segments cs) (segments plain) := by
  fun_induction segments cs with
  | case1 => rw [List.nil_append, meet]
  | case2 rest ih =>
      rw [meet_prepend, List.cons_append, List.cons_append, List.cons_append, segments]
      by_cases closing : '}' ∈ rest
      · obtain ⟨through, after⟩ := brace_append_of_mem closing plain
        rw [through, after, ih]
      · have absent : '}' ∉ rest ++ plain := by
          rw [List.mem_append, not_or]
          exact ⟨closing, unmarked.closing⟩
        obtain ⟨through, after⟩ := brace_of_not_mem closing
        obtain ⟨throughAll, afterAll⟩ := brace_of_not_mem absent
        rw [through, after, throughAll, afterAll, segments, meet, prepend_segments unmarked,
          prepend]
        · rfl
        · simp
  | case3 rest notBrace ih =>
      rw [meet_prepend, List.cons_append, List.cons_append, segments, ih]
      intro after begins
      obtain ⟨others, same⟩ := exists_cons_of_append unmarked (.inr rfl) begins
      exact notBrace others same
  | case4 rest body after closed shorter ih =>
      rw [List.cons_append, List.cons_append, segments_reference (closeBrace_append closed plain),
        ih]
      rfl
  | case5 rest open_ =>
      rw [List.cons_append, List.cons_append, segments]
      split
      · next found =>
          rw [closeBrace_append_unmarked unmarked open_] at found
          cases found
      · rw [meet, prepend_segments unmarked]
        rfl
  | case6 c rest escape double brace ih =>
      rw [meet_prepend, List.cons_append, segments, ih]
      · intro after dollar begins
        obtain ⟨others, same⟩ := exists_cons_of_append unmarked (.inl rfl) begins
        exact double others dollar same
      · intro after dollar begins
        obtain ⟨others, same⟩ := exists_cons_of_append unmarked (.inl rfl) begins
        exact double others dollar same
      · intro after dollar begins
        obtain ⟨others, same⟩ := exists_cons_of_append unmarked (.inr rfl) begins
        exact brace others dollar same

theorem resolves_append_iff {before : List Char} (plain : '$' ∉ before) {cs out : List Char} :
    Resolves lookup mode visiting (segments (before ++ cs)) out ↔
      ∃ rest, Resolves lookup mode visiting (segments cs) rest ∧ out = before ++ rest := by
  by_cases empty : before = []
  · simp [empty]
  · rw [segments_append_plain empty plain, resolves_prepend_iff]

theorem resolves_unmarked_iff {plain : List Char} (unmarked : Unmarked plain) {out : List Char} :
    Resolves lookup mode visiting (segments plain) out ↔ out = plain := by
  have single : segments (plain ++ []) = segments plain := by rw [List.append_nil]
  have none : ∀ rest, Resolves lookup mode visiting (segments []) rest ↔ rest = [] := by
    intro rest
    rw [segments]
    constructor
    · rintro ⟨⟩
      rfl
    · rintro rfl
      exact .nil
  rw [← single, resolves_append_iff unmarked.dollar]
  simp only [none, exists_eq_left, List.append_nil]

/-- Plain characters around a text stay around what it resolves to. -/
theorem resolves_surrounded_iff {before after : List Char} (first : Unmarked before)
    (last : Unmarked after) {cs out : List Char} :
    Resolves lookup mode visiting (segments (before ++ cs ++ after)) out ↔
      ∃ core, Resolves lookup mode visiting (segments cs) core ∧
        out = before ++ core ++ after := by
  rw [List.append_assoc, resolves_append_iff first.dollar]
  simp only [segments_append_unmarked last, resolves_meet_iff, resolves_unmarked_iff last]
  constructor
  · rintro ⟨_, ⟨core, _, resolved, rfl, rfl⟩, rfl⟩
    exact ⟨core, resolved, (List.append_assoc _ _ _).symm⟩
  · rintro ⟨core, resolved, rfl⟩
    exact ⟨_, ⟨core, _, resolved, rfl, rfl⟩, List.append_assoc _ _ _⟩

/-! ## Pieces between commas -/

/-- The segments of the pieces with a comma between each two. -/
def separated : List (List Char) → List Segment
  | [] => []
  | [piece] => segments piece
  | piece :: next :: others => meet (segments piece) (prepend [','] (separated (next :: others)))

theorem resolves_separated_iff {pieces : List (List Char)} {out : List Char} :
    Resolves lookup mode visiting (separated pieces) out ↔
      ∃ outs, List.Forall₂ (fun piece => Resolves lookup mode visiting (segments piece)) pieces
        outs ∧ out = [','].intercalate outs := by
  induction pieces generalizing out with
  | nil =>
      constructor
      · rintro ⟨⟩
        exact ⟨[], .nil, rfl⟩
      · rintro ⟨_, ⟨⟩, rfl⟩
        exact .nil
  | cons piece others ih =>
      cases others with
      | nil =>
          rw [separated]
          constructor
          · intro resolved
            exact ⟨[out], .cons resolved .nil, by simp⟩
          · rintro ⟨_, _ | ⟨resolved, ⟨⟩⟩, rfl⟩
            simpa using resolved
      | cons next others =>
          rw [separated, resolves_meet_iff]
          simp only [resolves_prepend_iff, ih]
          constructor
          · rintro ⟨front, _, first, ⟨_, ⟨outs, more, rfl⟩, rfl⟩, rfl⟩
            rcases more with _ | ⟨second, rest⟩
            exact ⟨front :: _ :: _, .cons first (.cons second rest), by
              rw [List.intercalate_cons_cons, List.append_assoc]⟩
          · rintro ⟨_, _ | ⟨first, _ | ⟨second, rest⟩⟩, rfl⟩
            exact ⟨_, _, first, ⟨_, ⟨_, .cons second rest, rfl⟩, rfl⟩, by
              rw [List.intercalate_cons_cons, List.append_assoc]⟩

/-- A text in which each dollar begins a placeholder that ends in the text. -/
inductive Closed : List Char → Prop where
  | nil : Closed []
  | plain {c : Char} {rest : List Char} (other : c ≠ '$') (closed : Closed rest) : Closed (c :: rest)
  | reference {rest body after : List Char} (ends : closeBrace 0 rest = some (body, after))
      (closed : Closed after) : Closed ('$' :: '{' :: rest)

/-- What follows a closed text has segments of its own. -/
theorem segments_append_of_closed {cs : List Char} (closed : Closed cs) (rest : List Char) :
    segments (cs ++ rest) = meet (segments cs) (segments rest) := by
  induction closed with
  | nil => rw [List.nil_append, segments, meet]
  | plain other _ ih =>
      rw [List.cons_append, segments_cons other, segments_cons other, ih, meet_prepend]
  | reference ends _ ih =>
      rw [List.cons_append, List.cons_append, segments_reference (closeBrace_append ends _),
        segments_reference ends, ih]
      rfl

theorem segments_eq_separated {cs : List Char}
    (closed : ∀ piece ∈ Text.splitAt ',' cs, Closed piece) :
    segments cs = separated (Text.splitAt ',' cs) := by
  have joined := Text.intercalate_splitAt ',' cs
  generalize Text.splitAt ',' cs = pieces at closed joined
  subst joined
  induction pieces with
  | nil => rw [separated, List.intercalate_nil, segments]
  | cons piece others ih =>
      rw [List.forall_mem_cons] at closed
      cases others with
      | nil => rw [separated, List.intercalate_singleton]
      | cons next more =>
          rw [separated, List.intercalate_cons_cons, List.append_assoc, List.singleton_append,
            segments_append_of_closed closed.1, segments_cons (by decide), ih closed.2]

end Placeholder
end LayeredConfig

import LayeredConfig.Proofs.Placeholder.Joining
import LayeredConfig.Proofs.Placeholder.SharedKeys

namespace LayeredConfig
namespace Placeholder

/-!
# Dollars in plain text

A text that opens no placeholder is plain text, whatever values there are.  Two
dollars next to one another stand for one, so that a run of dollars comes out half
as long; all else comes out as it is written.
-/

/-! ## Plain text -/

/-- Plain text in front of segments comes out in front of what they come out as. -/
theorem flatten_mapM_prepend {m : Type → Type} [Monad m] [LawfulMonad m]
    (step : Segment → m (List Char)) (literal : ∀ plain, step (.literal plain) = pure plain)
    (text : List Char) (parts : List Segment) :
    List.flatten <$> (prepend text parts).mapM step =
      (text ++ ·) <$> List.flatten <$> parts.mapM step := by
  unfold prepend
  split
  · simp [literal]
  · simp [literal]

/-- Text that is a single literal is the same with all values. -/
theorem fixed_of_literal {text : String} {out : List Char}
    (literal : prepend [] (segments text.toList) = [.literal out]) :
    Fixed text (String.ofList out) := by
  refine fixed_of_endsIn fun values mode => ⟨1, fun depth enough => ?_⟩
  cases depth with
  | zero => cases enough
  | succ depth =>
      have same := flatten_mapM_prepend
        (sharedPart values mode (resolveShared values mode depth) text.toList) (fun _ => rfl) []
        (segments text.toList)
      have alone : resolveShared values mode (depth + 1) text.toList = pure out := by
        rw [literal] at same
        rw [resolveShared]
        simpa [sharedPart] using same.symm
      rw [alone]
      rfl

/-! ## Pairs of dollars -/

/-- Each two dollars next to one another made one, from the left. -/
def pairDollars : List Char → List Char
  | '$' :: '$' :: rest => '$' :: pairDollars rest
  | c :: rest => c :: pairDollars rest
  | [] => []

theorem prepend_segments_of_unopened {text : List Char} (unopened : ¬ ['$', '{'] <:+: text)
    (before : List Char) :
    prepend before (segments text) = [.literal (before ++ pairDollars text)] := by
  fun_induction segments text generalizing before with
  | case1 => rw [prepend, pairDollars, List.append_nil]; simp
  | case2 rest => exact absurd ⟨['$'], rest, rfl⟩ unopened
  | case3 rest notBrace ih =>
      rw [prepend_prepend, ih fun opens => unopened (opens.trans ⟨['$', '$'], [], by simp⟩),
        pairDollars, List.append_assoc, List.singleton_append]
  | case4 rest => exact absurd ⟨[], rest, rfl⟩ unopened
  | case5 rest => exact absurd ⟨[], rest, rfl⟩ unopened
  | case6 c rest escape double brace ih =>
      rw [prepend_prepend, ih fun opens => unopened (opens.trans ⟨[c], [], by simp⟩), pairDollars,
        List.append_assoc, List.singleton_append]
      intro after dollar begins
      exact double after dollar begins

theorem length_pairDollars (text : List Char) : (pairDollars text).length ≤ text.length := by
  fun_induction pairDollars text with
  | case1 rest ih => simp only [List.length_cons]; omega
  | case2 c rest _ ih => simp only [List.length_cons]; omega
  | case3 => rfl

theorem pair_infix_cons_iff {first second c : Char} {rest : List Char}
    (apart : ∀ after, c = first → rest = second :: after → False) :
    [first, second] <:+: c :: rest ↔ [first, second] <:+: rest := by
  rw [List.infix_cons_iff, or_iff_right]
  rintro ⟨after, same⟩
  rw [List.cons_append, List.cons.injEq] at same
  exact apart after same.1.symm same.2.symm

/-- Text comes out as it is written where no dollar stands next to another. -/
theorem pairDollars_eq_self_iff {text : List Char} :
    pairDollars text = text ↔ ¬ ['$', '$'] <:+: text := by
  fun_induction pairDollars text with
  | case1 rest ih =>
      have shorter := length_pairDollars rest
      refine iff_of_false (fun same => ?_) (not_not_intro ⟨[], rest, rfl⟩)
      have long := congrArg List.length same
      simp only [List.length_cons] at long
      omega
  | case2 c rest single ih =>
      rw [List.cons.injEq, ih, pair_infix_cons_iff single, eq_self, true_and]
  | case3 => simp

/-- Text without dollars comes out as it is written. -/
theorem fixed_of_no_dollar {text : String} (plain : '$' ∉ text.toList) : Fixed text text := by
  have unopened : ¬ ['$', '{'] <:+: text.toList := fun opens =>
    plain (opens.subset List.mem_cons_self)
  have single : pairDollars text.toList = text.toList :=
    pairDollars_eq_self_iff.mpr fun pair => plain (pair.subset List.mem_cons_self)
  have fixed := fixed_of_literal (prepend_segments_of_unopened unopened [])
  rwa [List.nil_append, single, String.ofList_toList] at fixed

/-- Text that opens no placeholder comes out with each two dollars made one, whatever values there
are; it comes out as it is written exactly when no dollar stands next to another. -/
theorem unopened_dollars_paired (text : String) (unopened : ¬ ['$', '{'] <:+: text.toList) :
    Fixed text (String.ofList (pairDollars text.toList)) ∧
      (Fixed text text ↔ ¬ ['$', '$'] <:+: text.toList) := by
  have paired : Fixed text (String.ofList (pairDollars text.toList)) :=
    fixed_of_literal (prepend_segments_of_unopened unopened [])
  refine ⟨paired, ?_⟩
  rw [← pairDollars_eq_self_iff]
  constructor
  · intro kept
    have same := (paired.resolves (.ofTable .empty) .strict).symm.trans
      (kept.resolves (.ofTable .empty) .strict)
    rw [Except.ok.injEq] at same
    exact String.toList_ofList.symm.trans (congrArg String.toList same)
  · intro same
    rwa [same, String.ofList_toList] at paired

theorem unopened_dollars_paired_price :
    Fixed "$$5, not $$$6" "$5, not $$6" ∧ Fixed "5$, 6$ {$}" "5$, 6$ {$}" :=
  ⟨(unopened_dollars_paired "$$5, not $$$6" (by decide)).1,
    (unopened_dollars_paired "5$, 6$ {$}" (by decide)).2.mpr (by decide)⟩

end Placeholder

namespace Environment

/-- Two dollars come out as one although the text opens no placeholder. -/
theorem dollar_pair_shortened :
    ¬ ['$', '{'] <:+: "pa$$word".toList ∧
      initial.resolve "pa$$word" = .ok "pa$word" ∧
      initial.resolveLenient "pa$$word" = .ok "pa$word" := by
  refine ⟨by decide, ?_, ?_⟩ <;> cbv

end Environment
end LayeredConfig

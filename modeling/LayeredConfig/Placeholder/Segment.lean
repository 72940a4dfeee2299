import LayeredConfig.Text.Blank

namespace LayeredConfig
namespace Placeholder

/-!
The segments of a text with placeholders.

`${key}` and `${key:fallback}` are references and may nest.  Two dollars before
an opening brace stand for the characters `${`, and the text up to the next
closing brace is kept as it is; two dollars elsewhere stand for one.  A
reference without its closing brace is plain text.
-/

inductive Segment where
  | literal (text : List Char)
  | reference (key : List Char) (fallback : Option (List Char))
  deriving DecidableEq, Repr

/-- Put plain text before the segments, joined with a literal that comes first. -/
def prepend (text : List Char) : List Segment → List Segment
  | .literal more :: rest => .literal (text ++ more) :: rest
  | segments => .literal text :: segments

/-- The text before the brace that closes the current one and the text after it. -/
def closeBrace : (depth : Nat) → List Char → Option (List Char × List Char)
  | _, [] => none
  | 0, '}' :: rest => some ([], rest)
  | depth + 1, '}' :: rest => (closeBrace depth rest).map (fun cut => ('}' :: cut.1, cut.2))
  | depth, '{' :: rest => (closeBrace (depth + 1) rest).map (fun cut => ('{' :: cut.1, cut.2))
  | depth, c :: rest => (closeBrace depth rest).map (fun cut => (c :: cut.1, cut.2))

theorem eq_append_of_closeBrace {depth : Nat} {cs body rest : List Char}
    (closed : closeBrace depth cs = some (body, rest)) : cs = body ++ '}' :: rest := by
  fun_induction closeBrace depth cs generalizing body with
  | case1 => simp at closed
  | case2 after =>
      simp only [Option.some.injEq, Prod.mk.injEq] at closed
      obtain ⟨rfl, rfl⟩ := closed
      rfl
  | case3 depth after ih =>
      simp only [Option.map_eq_some_iff, Prod.mk.injEq] at closed
      obtain ⟨⟨inner, outer⟩, found, rfl, rfl⟩ := closed
      simp [ih found]
  | case4 depth after ih =>
      simp only [Option.map_eq_some_iff, Prod.mk.injEq] at closed
      obtain ⟨⟨inner, outer⟩, found, rfl, rfl⟩ := closed
      simp [ih found]
  | case5 depth c after shallow deep opening ih =>
      simp only [Option.map_eq_some_iff, Prod.mk.injEq] at closed
      obtain ⟨⟨inner, outer⟩, found, rfl, rfl⟩ := closed
      simp [ih found]

theorem length_of_closeBrace {depth : Nat} {cs body rest : List Char}
    (closed : closeBrace depth cs = some (body, rest)) :
    body.length < cs.length ∧ rest.length < cs.length := by
  simp only [eq_append_of_closeBrace closed, List.length_append, List.length_cons]
  omega

/-- The text before the first colon outside braces and the text after it. -/
def cutAtColon : (depth : Nat) → List Char → List Char × Option (List Char)
  | _, [] => ([], none)
  | 0, ':' :: rest => ([], some rest)
  | depth, '{' :: rest => ('{' :: (cutAtColon (depth + 1) rest).1, (cutAtColon (depth + 1) rest).2)
  | depth, '}' :: rest => ('}' :: (cutAtColon (depth - 1) rest).1, (cutAtColon (depth - 1) rest).2)
  | depth, c :: rest => (c :: (cutAtColon depth rest).1, (cutAtColon depth rest).2)

theorem length_cutAtColon (depth : Nat) (cs : List Char) :
    (cutAtColon depth cs).1.length ≤ cs.length ∧
      ∀ fallback, (cutAtColon depth cs).2 = some fallback → fallback.length < cs.length := by
  fun_induction cutAtColon depth cs with
  | case1 => simp
  | case2 rest => simp
  | case3 depth rest ih =>
      exact ⟨Nat.succ_le_succ ih.1, fun fallback cut => Nat.lt_succ_of_lt (ih.2 fallback cut)⟩
  | case4 depth rest ih =>
      exact ⟨Nat.succ_le_succ ih.1, fun fallback cut => Nat.lt_succ_of_lt (ih.2 fallback cut)⟩
  | case5 depth c rest colon opening closing ih =>
      exact ⟨Nat.succ_le_succ ih.1, fun fallback cut => Nat.lt_succ_of_lt (ih.2 fallback cut)⟩

/-- The reference written between two braces. -/
def readBody (body : List Char) : Segment :=
  let (key, fallback) := cutAtColon 0 body
  .reference (Text.trimBoth key) fallback

/-- The text up to the first closing brace, with it. -/
def throughBrace : List Char → List Char
  | [] => []
  | c :: rest => if c = '}' then [c] else c :: throughBrace rest

/-- The text after the first closing brace. -/
def afterBrace : List Char → List Char
  | [] => []
  | c :: rest => if c = '}' then rest else afterBrace rest

theorem throughBrace_append_afterBrace (cs : List Char) :
    throughBrace cs ++ afterBrace cs = cs := by
  induction cs with
  | nil => rfl
  | cons c rest ih =>
      by_cases closing : c = '}' <;> simp [throughBrace, afterBrace, closing, ih]

theorem length_afterBrace (cs : List Char) : (afterBrace cs).length ≤ cs.length := by
  have split := congrArg List.length (throughBrace_append_afterBrace cs)
  simp only [List.length_append] at split
  omega

def segments : List Char → List Segment
  | [] => []
  | '$' :: '$' :: '{' :: rest =>
      prepend ('$' :: '{' :: throughBrace rest) (segments (afterBrace rest))
  | '$' :: '$' :: rest => prepend ['$'] (segments rest)
  | '$' :: '{' :: rest =>
      match closed : closeBrace 0 rest with
      | some (body, after) =>
          have := (length_of_closeBrace closed).2
          readBody body :: segments after
      | none => [.literal ('$' :: '{' :: rest)]
  | c :: rest => prepend [c] (segments rest)
termination_by cs => cs.length
decreasing_by
  · have shorter := length_afterBrace rest
    simp only [List.length_cons]
    omega
  · simp only [List.length_cons]
    omega
  · simp only [List.length_cons]
    omega
  · simp

/-- Whether the text refers to any key. -/
def hasReferences (text : List Char) : Bool :=
  (segments text).any fun segment =>
    match segment with
    | .literal _ => false
    | .reference _ _ => true

/-- The length of what a segment refers to. -/
def Segment.weight : Segment → Nat
  | .literal _ => 0
  | .reference key none => key.length
  | .reference key (some fallback) => max key.length fallback.length

theorem weight_readBody (body : List Char) : (readBody body).weight ≤ body.length := by
  have bound := length_cutAtColon 0 body
  have trimmed : (Text.trimBoth (cutAtColon 0 body).1).length ≤ (cutAtColon 0 body).1.length := by
    have left := Text.length_trimLeft (cutAtColon 0 body).1
    have right := (List.dropWhile_suffix (l := (Text.trimLeft (cutAtColon 0 body).1).reverse)
      Text.isBlank).length_le
    simp only [Text.trimBoth, Text.trimRight, List.length_reverse] at right ⊢
    omega
  unfold readBody
  cases cut : (cutAtColon 0 body).2 with
  | none => simp only [Segment.weight, cut]; omega
  | some fallback =>
      have shorter := bound.2 fallback cut
      simp only [Segment.weight, cut]
      omega

theorem mem_prepend {text : List Char} {segment : Segment} {parts : List Segment}
    (member : segment ∈ prepend text parts) : segment.weight = 0 ∨ segment ∈ parts := by
  unfold prepend at member
  split at member
  · rcases List.mem_cons.1 member with rfl | later
    · exact .inl rfl
    · exact .inr (List.mem_cons_of_mem _ later)
  · rcases List.mem_cons.1 member with rfl | later
    · exact .inl rfl
    · exact .inr later

/-- Keys and fallbacks are shorter than the text that holds them. -/
theorem weight_lt_of_mem_segments {text : List Char} {segment : Segment}
    (member : segment ∈ segments text) : segment.weight < text.length := by
  fun_induction segments text with
  | case1 => simp at member
  | case2 rest ih =>
      have shorter := length_afterBrace rest
      rcases mem_prepend member with zero | later
      · simp [zero]
      · have := ih later; simp only [List.length_cons]; omega
  | case3 rest notBrace ih =>
      rcases mem_prepend member with zero | later
      · simp [zero]
      · have := ih later; simp only [List.length_cons]; omega
  | case4 rest body after closed shorter ih =>
      have bounds := length_of_closeBrace closed
      simp only [List.length_cons]
      rcases List.mem_cons.1 member with rfl | later
      · have := weight_readBody body; omega
      · have := ih later; omega
  | case5 rest open_ =>
      have single : segment = .literal ('$' :: '{' :: rest) := by simpa using member
      simp [single, Segment.weight]
  | case6 c rest escape double brace ih =>
      rcases mem_prepend member with zero | later
      · simp [zero]
      · have := ih later; simp only [List.length_cons]; omega

end Placeholder
end LayeredConfig

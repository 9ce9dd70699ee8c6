/-
  TinyScript.Proofs.Token.Gaps — what stands between lexemes.

  A gap is made of blanks and comments (`Gap`). A line comment goes up to the next line feed and a
  block comment up to the first `*/`, or either of them up to the end of the text (`Comment`).
  `spanGap` takes the longest gap at the start of a text, and there is only one (`spanGap_iff`).
-/

import TinyScript.Token.Lexer

namespace TinyScript.Token

variable {c : Char} {cs comment body gap more rest : List Char}

/-- The characters are one comment, when `rest` follows them. -/
inductive Comment : (comment rest : List Char) → Prop
  | line {body rest : List Char} : '\n' ∉ body → Comment ('/' :: '/' :: (body ++ ['\n'])) rest
  /-- The end of the text ends a line comment. -/
  | lastLine {body : List Char} : '\n' ∉ body → Comment ('/' :: '/' :: body) []
  /-- The star of the closing `*/` closes nothing earlier. -/
  | block {body rest : List Char} : ¬ ['*', '/'] <:+: body ++ ['*'] →
    Comment ('/' :: '*' :: (body ++ ['*', '/'])) rest
  /-- The end of the text ends a block comment. -/
  | lastBlock {body : List Char} : ¬ ['*', '/'] <:+: body → Comment ('/' :: '*' :: body) []

/-- The characters are blanks and comments, when `rest` follows them. -/
inductive Gap : (gap rest : List Char) → Prop
  | nil {rest : List Char} : Gap [] rest
  | blank {c : Char} {gap rest : List Char} : isGapChar c → Gap gap rest → Gap (c :: gap) rest
  | comment {comment gap rest : List Char} : Comment comment (gap ++ rest) → Gap gap rest →
    Gap (comment ++ gap) rest

def startsGap : List Char → Bool
  | '/' :: '/' :: _ => true
  | '/' :: '*' :: _ => true
  | c :: _ => isGapChar c
  | [] => false

/-! ## Comments grow at their start -/

theorem closing_cons {l : List Char} :
    ['*', '/'] <:+: c :: l ↔ (c = '*' ∧ l.head? = some '/') ∨ ['*', '/'] <:+: l := by
  rw [List.infix_cons_iff, List.cons_prefix_cons]
  refine or_congr_left (and_congr eq_comm ?_)
  cases l with
  | nil => simp
  | cons d l => simp [List.cons_prefix_cons, eq_comm]

theorem Comment.line_cons (hc : c ≠ '\n') (h : Comment ('/' :: '/' :: body) rest) :
    Comment ('/' :: '/' :: c :: body) rest := by
  have hne : ¬ '\n' = c := fun e => hc e.symm
  cases h with
  | @line body _ hb => exact @Comment.line (c :: body) rest (by simp [hne, hb])
  | lastLine hb => exact .lastLine (by simp [hne, hb])

theorem Comment.block_cons (hc : c = '*' → (body ++ rest).head? ≠ some '/')
    (h : Comment ('/' :: '*' :: body) rest) : Comment ('/' :: '*' :: c :: body) rest := by
  cases h with
  | @block body _ hb =>
    refine @Comment.block (c :: body) rest fun hin => ?_
    rcases closing_cons.1 hin with ⟨rfl, hslash⟩ | hin
    · apply hc rfl
      cases body <;> simp_all
    · exact hb hin
  | lastBlock hb =>
    refine .lastBlock fun hin => ?_
    rcases closing_cons.1 hin with ⟨rfl, hslash⟩ | hin
    · exact hc rfl (by simpa using hslash)
    · exact hb hin

/-! ## What is taken is a gap -/

/-- What `spanGap` takes in each part of a gap: inside a comment, the rest of it comes first. -/
def Taken : GapPart → List Char → List Char → Prop
  | .blanks, gap, rest => Gap gap rest
  | .lineComment, gap, rest => ∃ body more, gap = body ++ more ∧
    Comment ('/' :: '/' :: body) (more ++ rest) ∧ Gap more rest
  | .blockComment, gap, rest => ∃ body more, gap = body ++ more ∧
    Comment ('/' :: '*' :: body) (more ++ rest) ∧ Gap more rest

theorem taken_spanGap (part : GapPart) (cs : List Char) :
    cs = (spanGap part cs).1 ++ (spanGap part cs).2 ∧
      Taken part (spanGap part cs).1 (spanGap part cs).2 ∧
      startsGap (spanGap part cs).2 = false := by
  fun_induction spanGap part cs with
  | case1 part =>
    refine ⟨rfl, ?_, rfl⟩
    cases part with
    | blanks => exact .nil
    | lineComment => exact ⟨[], [], rfl, .lastLine (by simp), .nil⟩
    | blockComment => exact ⟨[], [], rfl, .lastBlock (by simp), .nil⟩
  | case2 cs gap rest heq ih =>
    rw [heq] at ih
    obtain ⟨hcs, ⟨body, more, rfl, hcomment, hgap⟩, hrest⟩ := ih
    exact ⟨by simp [hcs], .comment hcomment hgap, hrest⟩
  | case3 cs gap rest heq ih =>
    rw [heq] at ih
    obtain ⟨hcs, ⟨body, more, rfl, hcomment, hgap⟩, hrest⟩ := ih
    exact ⟨by simp [hcs], .comment hcomment hgap, hrest⟩
  | case4 c cs _ _ hc gap rest heq ih =>
    rw [heq] at ih
    exact ⟨by simp [ih.1], .blank hc ih.2.1, ih.2.2⟩
  | case5 c cs hline hblock hc =>
    refine ⟨rfl, .nil, ?_⟩
    show startsGap (c :: cs) = false
    unfold startsGap
    split
    next heq => cases heq; exact absurd rfl (hline _ rfl)
    next heq => cases heq; exact absurd rfl (hblock _ rfl)
    next heq => cases heq; simpa using hc
    next heq => cases heq
  | case6 c cs gap rest heq ih =>
    rw [heq] at ih
    obtain ⟨hcs, htaken, hrest⟩ := ih
    refine ⟨by simp [hcs], ?_, hrest⟩
    by_cases hc : c = '\n'
    · rw [if_pos hc] at htaken
      exact ⟨[c], gap, rfl, hc ▸ @Comment.line [] _ (by simp), htaken⟩
    · rw [if_neg hc] at htaken
      obtain ⟨body, more, rfl, hcomment, hgap⟩ := htaken
      exact ⟨c :: body, more, rfl, hcomment.line_cons hc, hgap⟩
  | case7 cs gap rest heq ih =>
    rw [heq] at ih
    refine ⟨by simp [ih.1], ⟨['*', '/'], gap, rfl, @Comment.block [] _ ?_, ih.2.1⟩, ih.2.2⟩
    simp [closing_cons]
  | case8 c cs hclose gap rest heq ih =>
    rw [heq] at ih
    obtain ⟨hcs, ⟨body, more, rfl, hcomment, hgap⟩, hrest⟩ := ih
    refine ⟨by simp [hcs],
      ⟨c :: body, more, rfl, hcomment.block_cons fun hc hslash => ?_, hgap⟩, hrest⟩
    obtain ⟨tail, htail⟩ := List.head?_eq_some_iff.1 hslash
    refine hclose tail hc ?_
    rw [hcs, ← htail, List.append_assoc]

/-! ## A gap is taken whole -/

theorem spanGap_nil : spanGap .blanks [] = ([], []) :=
  rfl

theorem spanGap_slashes : spanGap .blanks ('/' :: '/' :: cs) =
    ('/' :: '/' :: (spanGap .lineComment cs).1, (spanGap .lineComment cs).2) :=
  rfl

theorem spanGap_slash_star : spanGap .blanks ('/' :: '*' :: cs) =
    ('/' :: '*' :: (spanGap .blockComment cs).1, (spanGap .blockComment cs).2) :=
  rfl

/-- Inside a line comment a character is passed over, unless it is the line feed. -/
theorem spanGap_line_cons (h : c ≠ '\n') :
    spanGap .lineComment (c :: cs) =
      (c :: (spanGap .lineComment cs).1, (spanGap .lineComment cs).2) := by
  rw [spanGap, if_neg h]

theorem spanGap_line (h : '\n' ∉ body) :
    spanGap .lineComment (body ++ '\n' :: cs) =
      (body ++ '\n' :: (spanGap .blanks cs).1, (spanGap .blanks cs).2) := by
  induction body with
  | nil => rfl
  | cons c body ih =>
    rw [List.mem_cons, not_or] at h
    rw [List.cons_append, spanGap_line_cons (Ne.symm h.1), ih h.2]
    rfl

theorem spanGap_lastLine (h : '\n' ∉ body) : spanGap .lineComment body = (body, []) := by
  induction body with
  | nil => rfl
  | cons c body ih =>
    rw [List.mem_cons, not_or] at h
    rw [spanGap_line_cons (Ne.symm h.1), ih h.2]

/-- Inside a block comment a character is passed over, unless it is the star of `*/`. -/
theorem spanGap_block_cons (h : c = '*' → cs.head? ≠ some '/') :
    spanGap .blockComment (c :: cs) =
      (c :: (spanGap .blockComment cs).1, (spanGap .blockComment cs).2) := by
  rw [spanGap]
  rintro rest hc rfl
  exact h hc rfl

theorem spanGap_block (h : ¬ ['*', '/'] <:+: body ++ ['*']) :
    spanGap .blockComment (body ++ '*' :: '/' :: cs) =
      (body ++ '*' :: '/' :: (spanGap .blanks cs).1, (spanGap .blanks cs).2) := by
  induction body with
  | nil => rfl
  | cons c body ih =>
    rw [List.cons_append, closing_cons, not_or] at h
    rw [List.cons_append, spanGap_block_cons, ih h.2]
    · rfl
    · intro hc hslash
      apply h.1
      refine ⟨hc, ?_⟩
      cases body <;> simp_all

theorem spanGap_lastBlock (h : ¬ ['*', '/'] <:+: body) :
    spanGap .blockComment body = (body, []) := by
  induction body with
  | nil => rfl
  | cons c body ih =>
    rw [closing_cons, not_or] at h
    rw [spanGap_block_cons fun hc hslash => h.1 ⟨hc, hslash⟩, ih h.2]

theorem spanGap_comment (h : Comment comment cs) :
    spanGap .blanks (comment ++ cs) =
      (comment ++ (spanGap .blanks cs).1, (spanGap .blanks cs).2) := by
  cases h with
  | line hb => simp [spanGap_slashes, spanGap_line hb]
  | lastLine hb => simp [spanGap_slashes, spanGap_lastLine hb, spanGap_nil]
  | block hb => simp [spanGap_slash_star, spanGap_block hb]
  | lastBlock hb => simp [spanGap_slash_star, spanGap_lastBlock hb, spanGap_nil]

theorem spanGap_blank (h : isGapChar c) :
    spanGap .blanks (c :: cs) = (c :: (spanGap .blanks cs).1, (spanGap .blanks cs).2) := by
  have hc : c ≠ '/' := by
    rintro rfl
    cases h
  rw [spanGap.eq_def]
  split <;> simp_all

theorem spanGap_of_not_startsGap (h : startsGap cs = false) : spanGap .blanks cs = ([], cs) := by
  rw [spanGap.eq_def]
  split <;> simp_all [startsGap]

/-- The gap at the start of a text is the only one that no further blank or comment follows. -/
theorem spanGap_iff : spanGap .blanks cs = (gap, rest) ↔
    cs = gap ++ rest ∧ Gap gap rest ∧ startsGap rest = false := by
  constructor
  · intro h
    have htaken := taken_spanGap .blanks cs
    rw [h] at htaken
    exact htaken
  · rintro ⟨rfl, hgap, hrest⟩
    induction hgap with
    | nil => exact spanGap_of_not_startsGap hrest
    | blank hc _ ih => rw [List.cons_append, spanGap_blank hc, ih hrest]
    | comment hcomment _ ih => rw [List.append_assoc, spanGap_comment hcomment, ih hrest]

end TinyScript.Token

/-
  TinyScript.Proofs.Token.Lines — texts below each other.

  A text ends open if it ends inside a string or a block comment (`EndsOpen`): then what stands in
  the next line still belongs to that. Otherwise no lexeme and no gap goes on beyond a line feed,
  and the tokens of a text and one below it are those of the first and then those of the second,
  further down (`tokenize_below`).
-/

import TinyScript.Proofs.Token.Partition

namespace TinyScript

namespace Text.Position

def below (above : List Char) (p : Position) : Position :=
  ⟨p.index + (above.length + 1), p.line + (above.count '\n' + 1), p.column, p.file⟩

end Text.Position

def LexError.below (above : List Char) (e : LexError) : LexError := ⟨e.character, e.pos.below above⟩

namespace Token

open TinyScript.Text

def below (above : List Char) (t : Token) : Token := ⟨t.kind, t.pos.below above⟩

variable {file : String} {above before chars comment cut cut' gap gap' more rest : List Char}
  {kind : Kind} {tokens later : List Token}

/-! ## Texts that end open -/

/-- Between these two parts of a text neither a lexeme nor a comment is cut through. -/
inductive Boundary : (before rest : List Char) → Prop
  | start {rest : List Char} : Boundary [] rest
  | blank {before rest : List Char} {c : Char} : Boundary before (c :: rest) → isGapChar c →
    Boundary (before ++ [c]) rest
  | comment {before comment rest : List Char} : Boundary before (comment ++ rest) →
    Comment comment rest → Boundary (before ++ comment) rest
  | lexeme {before chars rest : List Char} {kind : Kind} : Boundary before (chars ++ rest) →
    startsGap (chars ++ rest) = false → Denotes chars rest kind → Boundary (before ++ chars) rest

inductive OpenString : List Char → Prop
  | plain {quote : Char} {body text : List Char} : isQuote quote → Spells quote body text →
    OpenString (quote :: body)
  | escape {quote : Char} {body text : List Char} : isQuote quote → Spells quote body text →
    OpenString (quote :: (body ++ ['\\']))

def OpenComment (cs : List Char) : Prop :=
  ∃ body, cs = '/' :: '*' :: body ∧ ¬ ['*', '/'] <:+: body

def EndsOpen (cs : List Char) : Prop :=
  ∃ before tail, cs = before ++ tail ∧ Boundary before tail ∧ (OpenString tail ∨ OpenComment tail)

theorem Boundary.afterGap (h : Boundary before (gap ++ rest)) (hgap : Gap gap rest) :
    Boundary (before ++ gap) rest := by
  induction hgap generalizing before with
  | nil => rwa [List.append_nil]
  | @blank c gap rest hc _ ih =>
    rw [← List.singleton_append, ← List.append_assoc]
    exact ih (h.blank hc)
  | @comment comment gap rest hcomment _ ih =>
    rw [List.append_assoc] at h
    rw [← List.append_assoc]
    exact ih (h.comment hcomment)

theorem stops_line {p : Char → Bool} (hp : p '\n' = false) (h : Stops p rest) :
    Stops p (rest ++ '\n' :: more) := by
  cases rest with
  | nil =>
    intro c hc
    cases hc
    exact hp
  | cons d rest => exact h

/-- Two characters tell whether a fraction starts. -/
theorem startsFraction_cons_cons (c d : Char) (rest : List Char) :
    startsFraction (c :: d :: rest) = startsFraction [c, d] := by
  unfold startsFraction
  split <;> simp_all

/-- Two characters tell whether a gap starts. -/
theorem startsGap_cons_cons (c d : Char) (rest : List Char) :
    startsGap (c :: d :: rest) = startsGap [c, d] := by
  by_cases hc : c = '/'
  · by_cases hd : d = '/' ∨ d = '*'
    · rcases hd with rfl | rfl <;> rw [hc] <;> rfl
    · rw [not_or] at hd
      simp [startsGap, hd]
  · simp [startsGap, hc]

theorem startsFraction_line (h : startsFraction rest = false) :
    startsFraction (rest ++ '\n' :: more) = false := by
  rcases rest with _ | ⟨c, _ | ⟨d, rest⟩⟩
  · rfl
  · rw [List.singleton_append, startsFraction_cons_cons]
    unfold startsFraction
    split
    next heq =>
      cases heq
      rfl
    next => rfl
  · rw [startsFraction_cons_cons] at h
    rw [List.cons_append, List.cons_append, startsFraction_cons_cons, h]

theorem startsGap_line (h : startsGap rest = false) (hne : rest ≠ []) :
    startsGap (rest ++ '\n' :: more) = false := by
  rcases rest with _ | ⟨c, _ | ⟨d, rest⟩⟩
  · exact absurd rfl hne
  · simp_all [startsGap]
  · rw [startsGap_cons_cons] at h
    rw [List.cons_append, List.cons_append, startsGap_cons_cons, h]

/-- No operator has a line feed in it. -/
theorem prefix_of_prefix_line {sign : String} (h : (sign, kind) ∈ operators)
    (hpre : sign.toList <+: rest ++ '\n' :: more) : sign.toList <+: rest := by
  have hall : operators.all (fun o => !o.1.toList.contains '\n') = true := by decide +kernel
  have hno : '\n' ∉ sign.toList := by simpa using List.all_eq_true.1 hall _ h
  rcases List.prefix_or_prefix_of_prefix hpre (List.prefix_append _ _) with hin | ⟨tail, htail⟩
  · exact hin
  · rw [← htail] at hpre hno ⊢
    cases tail with
    | nil => simp
    | cons c tail =>
      rw [List.prefix_append_right_inj, List.cons_prefix_cons] at hpre
      simp [hpre.1] at hno

/-- A lexeme is the same with a line feed behind the text, unless it is a string that is open. -/
theorem Denotes.line (h : Denotes chars rest kind) (hopen : rest = [] → ¬ OpenString chars) :
    Denotes chars (rest ++ '\n' :: more) kind := by
  cases h with
  | whole hn hs hf => exact .whole hn (stops_line rfl hs) (startsFraction_line hf)
  | decimal hw hp hs => exact .decimal hw hp (stops_line rfl hs)
  | keyword hword hw => exact .keyword ⟨hword.1, hword.2.1, stops_line rfl hword.2.2⟩ hw
  | name hword hw => exact .name ⟨hword.1, hword.2.1, stops_line rfl hword.2.2⟩ hw
  | string hq hs => exact .string hq hs
  | lastString hq hs => exact absurd (.plain hq hs) (hopen rfl)
  | lastEscape hq hs => exact absurd (.escape hq hs) (hopen rfl)
  | operator hmem hlongest =>
    refine .operator hmem fun other hother hpre => hlongest other hother ?_
    rw [← List.append_assoc] at hpre
    exact prefix_of_prefix_line hother hpre

/-- A gap that something follows is one whatever follows. -/
theorem Gap.of_ne_nil (h : Gap gap rest) (hne : rest ≠ []) (more : List Char) : Gap gap more := by
  induction h with
  | nil => exact .nil
  | blank hc _ ih => exact .blank hc (ih hne)
  | @comment comment gap rest hcomment _ ih =>
    refine .comment ?_ (ih hne)
    generalize hafter : gap ++ rest = after at hcomment
    have hafter : after ≠ [] := by simp [← hafter, hne]
    cases hcomment with
    | line hb => exact .line hb
    | block hb => exact .block hb
    | lastLine => exact absurd rfl hafter
    | lastBlock => exact absurd rfl hafter

/-- The gap at the end of a text goes on with the gap in the next line. -/
theorem Gap.line (h : Gap gap []) (hbound : Boundary before gap)
    (hclosed : ¬ EndsOpen (before ++ gap)) (hgap : Gap gap' rest) :
    Gap (gap ++ '\n' :: gap') rest := by
  generalize hnil : [] = after at h
  induction h generalizing before with
  | nil => exact .blank rfl hgap
  | @blank c gap _ hc hmore ih =>
    refine .blank hc (ih (hbound.blank hc) ?_ hnil)
    rwa [List.append_assoc, List.singleton_append]
  | @comment comment gap _ hcomment hmore ih =>
    subst hnil
    have hnext := ih (hbound.comment (by rwa [List.append_nil] at hcomment))
      (by rwa [List.append_assoc]) rfl
    rw [List.append_assoc]
    generalize hafter : gap ++ [] = after at hcomment
    cases hcomment with
    | line hb => exact .comment (.line hb) hnext
    | block hb => exact .comment (.block hb) hnext
    | @lastLine body hb =>
      -- the line feed that ends the comment is the one between the texts
      cases (List.append_eq_nil_iff.1 hafter).1
      have hline : Gap ('/' :: '/' :: (body ++ ['\n']) ++ gap') rest := .comment (.line hb) hgap
      simpa using hline
    | @lastBlock body hb =>
      cases (List.append_eq_nil_iff.1 hafter).1
      rw [List.append_nil] at hclosed hbound
      exact absurd ⟨before, _, rfl, hbound, .inr ⟨body, rfl, hb⟩⟩ hclosed

/-! ## Texts below each other -/

theorem placeAfter_below (file : String) (above before : List Char) :
    placeAfter file (above ++ '\n' :: before) = (placeAfter file before).below above := by
  have hcolumn : ((above ++ '\n' :: before).reverse.takeWhile (· ≠ '\n')).length =
      (before.reverse.takeWhile (· ≠ '\n')).length := by
    rw [List.reverse_append, List.reverse_cons, List.append_assoc, List.takeWhile_append]
    split
    next hall => simpa using hall.symm
    next => rfl
  unfold placeAfter Position.below
  rw [hcolumn, Position.mk.injEq]
  refine ⟨?_, ?_, rfl, rfl⟩
  · simp only [List.length_append, List.length_cons]
    omega
  · simp only [List.count_append, List.count_cons_self]
    omega

/-- A text is cut in the same way further down. -/
theorem Cut.furtherDown (h : Cut file before cut tokens rest) (above : List Char) :
    Cut file (above ++ '\n' :: before) cut (tokens.map (Token.below above)) rest := by
  induction h with
  | nil => exact .nil
  | @cons before lexeme gap cut rest kind tokens hne hd hgap hstop _ ih =>
    rw [List.map_cons, Token.below, ← placeAfter_below]
    refine .cons hne hd hgap hstop ?_
    simpa only [List.append_assoc, List.cons_append] using ih

theorem Cut.tokens_eq_nil (h : Cut file before [] tokens rest) : tokens = [] := by
  generalize hnone : [] = cut at h
  cases h with
  | nil => rfl
  | cons hne =>
    rw [List.append_assoc, eq_comm, List.append_eq_nil_iff] at hnone
    exact absurd hnone.1 hne

/-- A cut goes on in the next line: the gap behind its last lexeme and the one at the start of what
    follows become one. -/
theorem Cut.line (h : Cut file before cut tokens []) (hne : cut ≠ []) (hbound : Boundary before cut)
    (hstop : startsGap cut = false) (hclosed : ¬ EndsOpen (before ++ cut))
    (hgap : Gap gap' (cut' ++ rest)) (hstop' : startsGap (cut' ++ rest) = false)
    (h' : Cut file (before ++ cut ++ '\n' :: gap') cut' later rest) :
    Cut file before (cut ++ '\n' :: gap' ++ cut') (tokens ++ later) rest := by
  generalize hnil : [] = after at h
  induction h with
  | nil => exact absurd rfl hne
  | @cons before lexeme gap cut _ kind tokens hlexeme hd hg hnext hmore ih =>
    subst hnil
    rw [List.append_nil] at hd hg hnext
    rw [List.append_assoc] at hbound hstop
    have hopen : gap ++ cut = [] → ¬ OpenString lexeme := by
      intro hnone hs
      rw [List.append_assoc, hnone, List.append_nil] at hclosed
      rw [hnone, List.append_nil] at hbound
      exact hclosed ⟨before, lexeme, rfl, hbound, .inl hs⟩
    have hbehind : Boundary (before ++ lexeme) (gap ++ cut) := hbound.lexeme hstop hd
    have hafter : Denotes lexeme ((gap ++ cut) ++ '\n' :: (gap' ++ cut' ++ rest)) kind :=
      hd.line hopen
    by_cases hlast : cut = []
    · subst hlast
      rw [hmore.tokens_eq_nil]
      rw [List.append_nil] at hbehind
      have hwhole : Gap (gap ++ '\n' :: gap') (cut' ++ rest) := by
        refine hg.line hbehind ?_ hgap
        simpa only [List.append_assoc, List.append_nil] using hclosed
      have hcut := Cut.cons hlexeme (by simpa using hafter) hwhole hstop' (by simpa using h')
      simpa using hcut
    · have hbound' : Boundary (before ++ lexeme ++ gap) cut := hbehind.afterGap hg
      have hcut := ih hlast hbound' hnext (by simpa using hclosed) (by simpa using h') rfl
      have hne' : cut ++ '\n' :: gap' ++ cut' ++ rest = cut ++ '\n' :: (gap' ++ cut' ++ rest) := by
        simp
      have hmany : Cut file before (lexeme ++ gap ++ (cut ++ '\n' :: gap' ++ cut'))
          (⟨kind, placeAfter file before⟩ :: (tokens ++ later)) rest := by
        refine .cons hlexeme (by simpa using hafter) (hg.of_ne_nil hlast _) ?_ hcut
        rw [hne']
        exact startsGap_line hnext hlast
      simpa using hmany

/-- A text that is closed is cut as before with another text below it, which is cut as it would be
    alone. -/
theorem Partition.line {source source' first first' : List Char}
    (h : Partition file source first cut tokens []) (hclosed : ¬ EndsOpen source)
    (h' : Partition file source' first' cut' later rest) : ∃ start whole,
      Partition file (source ++ '\n' :: source') start whole
        (tokens ++ later.map (Token.below source)) rest ∧
      start ++ whole = source ++ '\n' :: (first' ++ cut') := by
  obtain ⟨hwhole, hgap, hstop, hcut⟩ := h
  obtain ⟨rfl, hgap', hstop', hcut'⟩ := h'
  rw [List.append_nil] at hwhole hgap hstop
  have hlater := hcut'.furtherDown source
  subst hwhole
  have hstart : Boundary [] (first ++ cut) := .start
  by_cases hnone : cut = []
  · subst hnone
    rw [List.append_nil] at *
    refine ⟨first ++ '\n' :: first', cut', ⟨by simp, hgap.line hstart hclosed hgap', hstop', ?_⟩,
      by simp⟩
    rwa [hcut.tokens_eq_nil]
  · have hjoined := hcut.line hnone (hstart.afterGap hgap) hstop hclosed hgap' hstop' hlater
    have hsplit :
        cut ++ '\n' :: first' ++ cut' ++ rest = cut ++ '\n' :: (first' ++ cut' ++ rest) := by
      simp
    refine ⟨first, cut ++ '\n' :: first' ++ cut', ⟨by simp, hgap.of_ne_nil hnone _, ?_, hjoined⟩,
      by simp⟩
    rw [hsplit]
    exact startsGap_line hstop hnone

end Token

end TinyScript

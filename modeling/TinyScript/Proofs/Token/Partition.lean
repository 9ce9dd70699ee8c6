/-
  TinyScript.Proofs.Token.Partition — a text is its gaps and lexemes.

  A text is cut into a gap and lexemes that are each followed by a gap, with nothing left over and
  nothing cut twice (`Cut`). Every text can be cut up to its end or up to a character that starts no
  lexeme (`exists_cut`), and in one way only, because the tokens follow every cut
  (`tokensFrom_of_cut`). So the tokens of a text are those of its cut, each at the place of its
  lexeme, or the error is the character where the cut stops (`tokenize_partitions`).
-/

import TinyScript.Proofs.Token.Gaps
import TinyScript.Proofs.Token.Lexemes

namespace TinyScript.Token

open TinyScript.Text

variable {file : String} {before gap cut rest : List Char} {tokens : List Token}

/-! ## Places -/

def placeAfter (file : String) (before : List Char) : Position :=
  ⟨before.length, 1 + before.count '\n', 1 + (before.reverse.takeWhile (· ≠ '\n')).length, file⟩

theorem advance_placeAfter (file : String) (before : List Char) (c : Char) :
    (placeAfter file before).advance c = placeAfter file (before ++ [c]) := by
  unfold Position.advance placeAfter
  split
  next hc => simp [hc, List.count_append, Nat.add_assoc]
  next hc => simp [hc, List.count_append, Nat.add_comm]

theorem walk_placeAfter (file : String) (before cs : List Char) :
    (placeAfter file before).walk cs = placeAfter file (before ++ cs) := by
  induction cs generalizing before with
  | nil => rw [Position.walk_nil, List.append_nil]
  | cons c cs ih =>
    rw [Position.walk_cons, advance_placeAfter, ih, List.append_assoc, List.singleton_append]

/-! ## Cuts -/

/-- The text `cut`, which stands between `before` and `rest`, is lexemes that are each followed by a
    gap, and these are their tokens. No gap could be longer. -/
inductive Cut (file : String) :
    (before cut : List Char) → List Token → (rest : List Char) → Prop
  | nil {before rest : List Char} : Cut file before [] [] rest
  | cons {before lexeme gap cut rest : List Char} {kind : Kind} {tokens : List Token} :
    lexeme ≠ [] → Denotes lexeme (gap ++ cut ++ rest) kind →
    Gap gap (cut ++ rest) → startsGap (cut ++ rest) = false →
    Cut file (before ++ lexeme ++ gap) cut tokens rest →
    Cut file before (lexeme ++ gap ++ cut) (⟨kind, placeAfter file before⟩ :: tokens) rest

def NoLexeme (cs : List Char) : Prop :=
  ∀ chars rest kind, cs = chars ++ rest → ¬ Denotes chars rest kind

theorem scan?_eq_none {cs : List Char} : scan? cs = none ↔ NoLexeme cs := by
  constructor
  · rintro h chars rest kind rfl hd
    rw [scan?_iff.2 ⟨rfl, hd⟩] at h
    cases h
  · intro h
    cases hs : scan? cs with
    | none => rfl
    | some l =>
      obtain ⟨hcut, hd⟩ := denotes_scan hs
      exact absurd hd (h _ _ _ hcut)

/-- No gap stands behind what is cut. -/
theorem Cut.stops (h : Cut file before cut tokens rest) (hstop : startsGap (cut ++ rest) = false) :
    startsGap rest = false := by
  induction h with
  | nil => exact hstop
  | cons _ _ _ hnext _ ih => exact ih hnext

/-- Every text can be cut up to where no lexeme starts. -/
theorem exists_cut (file : String) (before cs : List Char) :
    ∃ cut tokens rest, cs = cut ++ rest ∧ Cut file before cut tokens rest ∧ NoLexeme rest := by
  induction hn : cs.length using Nat.strongRecOn generalizing before cs with
  | _ n ih =>
    cases hs : scan? cs with
    | none => exact ⟨[], [], cs, rfl, .nil, scan?_eq_none.1 hs⟩
    | some l =>
      obtain ⟨hcut, hd⟩ := denotes_scan hs
      obtain ⟨gap, after, hspan⟩ : ∃ gap after, spanGap .blanks l.rest = (gap, after) :=
        ⟨_, _, rfl⟩
      obtain ⟨hgap, hg, hstop⟩ := spanGap_iff.1 hspan
      have hshorter : after.length < n := by
        have hpos := List.length_pos_iff.2 hd.ne_nil
        rw [← hn, hcut, hgap, List.length_append, List.length_append]
        omega
      obtain ⟨cut, tokens, rest, rfl, hc, hno⟩ :=
        ih after.length hshorter (before ++ l.chars ++ gap) after rfl
      rw [hgap, ← List.append_assoc] at hd
      refine ⟨l.chars ++ gap ++ cut, _, rest, ?_, .cons hd.ne_nil hd hg hstop hc, hno⟩
      rw [hcut, hgap]
      simp only [List.append_assoc]

/-! ## Tokens follow the cut -/

theorem tokensFrom_gap (n : Nat) (hgap : Gap gap rest) (hstop : startsGap rest = false) :
    tokensFrom n (placeAfter file before) (gap ++ rest) =
      tokensFrom n (placeAfter file (before ++ gap)) rest := by
  have hspan : spanGap .blanks (gap ++ rest) = (gap, rest) := spanGap_iff.2 ⟨rfl, hgap, hstop⟩
  have hrest : spanGap .blanks rest = ([], rest) := spanGap_of_not_startsGap hstop
  rw [tokensFrom.eq_def, tokensFrom.eq_def n _ rest]
  simp only [hspan, hrest, walk_placeAfter, List.append_nil]

theorem tokensFrom_nil (n : Nat) (pos : Position) : tokensFrom n pos [] = .ok [⟨.eof, pos⟩] := by
  unfold tokensFrom
  rfl

theorem tokensFrom_stop (n : Nat) {c : Char} (hstop : startsGap (c :: rest) = false)
    (hno : NoLexeme (c :: rest)) :
    tokensFrom (n + 1) (placeAfter file before) (c :: rest) =
      .error ⟨c, placeAfter file before⟩ := by
  unfold tokensFrom
  simp only [spanGap_of_not_startsGap hstop, scan?_eq_none.2 hno, Position.walk_nil]

theorem tokensFrom_lexeme (n : Nat) {lexeme : List Char} {kind : Kind}
    (hstop : startsGap (lexeme ++ rest) = false) (hd : Denotes lexeme rest kind) :
    tokensFrom (n + 1) (placeAfter file before) (lexeme ++ rest) =
      (⟨kind, placeAfter file before⟩ :: ·) <$>
        tokensFrom n (placeAfter file (before ++ lexeme)) rest := by
  have hscan := scan?_iff.2 ⟨rfl, hd⟩
  obtain ⟨c, cs, hc⟩ :=
    List.exists_cons_of_ne_nil (List.append_ne_nil_of_left_ne_nil hd.ne_nil rest)
  rw [hc] at hstop hscan ⊢
  rw [tokensFrom.eq_def]
  simp only [spanGap_of_not_startsGap hstop, hscan, Position.walk_nil, walk_placeAfter]
  cases tokensFrom n (placeAfter file (before ++ lexeme)) rest <;> rfl

theorem Cut.length_le (h : Cut file before cut tokens rest) : tokens.length ≤ cut.length := by
  induction h with
  | nil => exact Nat.le_refl _
  | cons hne _ _ _ _ ih =>
    have := List.length_pos_iff.2 hne
    simp only [List.length_cons, List.length_append]
    omega

/-- A cut text gives its tokens, and then those of what follows it. -/
theorem tokensFrom_of_cut (n : Nat) (h : Cut file before cut tokens rest)
    (hstop : startsGap (cut ++ rest) = false) :
    tokensFrom (n + tokens.length) (placeAfter file before) (cut ++ rest) =
      (tokens ++ ·) <$> tokensFrom n (placeAfter file (before ++ cut)) rest := by
  induction h with
  | nil =>
    rw [List.append_nil, List.nil_append]
    exact (id_map _).symm
  | @cons before lexeme gap cut rest kind tokens _ hd hgap hcut _ ih =>
    simp only [List.append_assoc] at hstop hd ih ⊢
    rw [List.length_cons, ← Nat.add_assoc, tokensFrom_lexeme _ hstop hd, tokensFrom_gap _ hgap hcut,
      List.append_assoc, ih hcut]
    cases tokensFrom n (placeAfter file (before ++ (lexeme ++ (gap ++ cut)))) rest <;> rfl

/-! ## Whole texts -/

/-- A source text is a gap, a text that is cut into lexemes with these tokens, and the rest. -/
structure Partition (file : String) (source first cut : List Char) (tokens : List Token)
    (rest : List Char) : Prop where
  whole : source = first ++ cut ++ rest
  gap : Gap first (cut ++ rest)
  stop : startsGap (cut ++ rest) = false
  cut : Cut file first cut tokens rest

theorem exists_partition (file : String) (source : List Char) :
    ∃ first cut tokens rest, Partition file source first cut tokens rest ∧ NoLexeme rest := by
  obtain ⟨first, after, hspan⟩ : ∃ first after, spanGap .blanks source = (first, after) :=
    ⟨_, _, rfl⟩
  obtain ⟨hsource, hgap, hstop⟩ := spanGap_iff.1 hspan
  obtain ⟨cut, tokens, rest, rfl, hcut, hno⟩ := exists_cut file first after
  exact ⟨first, cut, tokens, rest, ⟨by rw [hsource, List.append_assoc], hgap, hstop, hcut⟩, hno⟩

namespace Partition

variable {source first : List Char}

/-- The tokens of a text start with those of its partition. -/
theorem tokensFrom (h : Partition file source first cut tokens rest) :
    Token.tokensFrom source.length (Position.start file) source =
      (tokens ++ ·) <$> Token.tokensFrom (source.length - tokens.length)
        (placeAfter file (first ++ cut)) rest := by
  have hn : source.length = source.length - tokens.length + tokens.length := by
    have hle := h.cut.length_le
    simp only [h.whole, List.length_append]
    omega
  rw [hn, Nat.add_sub_cancel, ← tokensFrom_of_cut _ h.cut h.stop]
  show Token.tokensFrom _ (placeAfter file []) source = _
  rw [h.whole, List.append_assoc, tokensFrom_gap _ h.gap h.stop]
  rfl

theorem tokenize_done {source : String} (h : Partition file source.toList first cut tokens []) :
    tokenize source file = .ok (tokens ++ [⟨.eof, placeAfter file source.toList⟩]) := by
  unfold tokenize
  have hwhole := h.whole
  rw [List.append_nil] at hwhole
  rw [h.tokensFrom, tokensFrom_nil, ← hwhole]
  rfl

theorem tokenize_stop {source : String} {c : Char}
    (h : Partition file source.toList first cut tokens (c :: rest)) (hno : NoLexeme (c :: rest)) :
    tokenize source file = .error ⟨c, placeAfter file (first ++ cut)⟩ := by
  unfold tokenize
  obtain ⟨n, hn⟩ : ∃ n, source.toList.length - tokens.length = n + 1 := by
    refine ⟨source.toList.length - tokens.length - 1, ?_⟩
    have hle := h.cut.length_le
    have hwhole := congrArg List.length h.whole
    simp only [List.length_append, List.length_cons] at hwhole
    omega
  rw [h.tokensFrom, hn, tokensFrom_stop n (h.cut.stops h.stop) hno]
  rfl

end Partition

end TinyScript.Token

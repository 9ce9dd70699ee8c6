/-
  TinyScript.Proofs.Token.Lexemes — what lexemes denote.

  A lexeme is told by its characters and by what follows them: numbers, names and operators are
  taken as long as they go on, and only at the end of the text may a string lack its closing quote
  (`Denotes`). `scan?` finds the lexeme at the start of a text, and there is only one
  (`scan?_iff`).
-/

import Mathlib.Data.List.Basic
import TinyScript.Token.Lexer

namespace TinyScript

/-! ## Reserved words -/

namespace Keyword

theorem mem_all (word : Keyword) : word ∈ all := by cases word <;> decide

theorem text_injective {word other : Keyword} (h : word.text = other.text) :
    word = other := by
  cases word <;> cases other <;> first | rfl | exact absurd h (by decide)

theorem ofText?_eq_some {word : Keyword} {s : String} :
    ofText? s = some word ↔ word.text = s := by
  unfold ofText?
  constructor
  · intro h
    simpa using List.find?_some h
  · rintro rfl
    cases hfind : all.find? (·.text == word.text) with
    | none => exact absurd (List.find?_eq_none.1 hfind word word.mem_all) (by simp)
    | some other =>
      have htext := List.find?_some hfind
      rw [text_injective (beq_iff_eq.1 htext)]

theorem ofText?_eq_none {s : String} :
    ofText? s = none ↔ ∀ word : Keyword, word.text ≠ s := by
  constructor
  · intro h word hw
    rw [ofText?_eq_some.2 hw] at h
    cases h
  · intro h
    cases hfind : ofText? s with
    | none => rfl
    | some word => exact absurd (ofText?_eq_some.1 hfind) (h word)

end Keyword

namespace Token

open TinyScript.Number

variable {p : Char → Bool} {c quote : Char} {cs ds chars body text rest : List Char} {kind : Kind}

def isNumeralChar (c : Char) : Bool := isDigit c || c = '_'

def Numeral (cs : List Char) : Prop :=
  ∃ d ds, cs = d :: ds ∧ isDigit d = true ∧ ∀ c ∈ ds, isNumeralChar c = true

def startsFraction : List Char → Bool
  | '.' :: c :: _ => isDigit c
  | _ => false

def Stops (p : Char → Bool) (rest : List Char) : Prop := ∀ c ∈ rest.head?, p c = false

def Word (chars rest : List Char) : Prop :=
  (∃ c cs, chars = c :: cs ∧ isNameStart c = true) ∧ (∀ c ∈ chars, isNameChar c = true) ∧
    Stops isNameChar rest

inductive Spells (quote : Char) : (body text : List Char) → Prop
  | nil : Spells quote [] []
  | escape {c : Char} {body text : List Char} : Spells quote body text →
    Spells quote ('\\' :: c :: body) (unescape c :: text)
  | plain {c : Char} {body text : List Char} : c ≠ quote → c ≠ '\\' → Spells quote body text →
    Spells quote (c :: body) (c :: text)

/-- The characters are one lexeme of this kind, when `rest` follows them. -/
inductive Denotes : (chars rest : List Char) → Kind → Prop
  | whole {whole rest : List Char} : Numeral whole → Stops isNumeralChar rest →
    startsFraction rest = false →
    Denotes whole rest (.number (ofPlaces (whole.filter (· ≠ '_')) [] 0))
  | decimal {whole places rest : List Char} : Numeral whole → Numeral places →
    Stops isNumeralChar rest →
    Denotes (whole ++ '.' :: places) rest
      (.number (ofPlaces (whole.filter (· ≠ '_')) (places.filter (· ≠ '_')) 0))
  | keyword {word : Keyword} {chars rest : List Char} : Word chars rest →
    word.text = String.ofList chars → Denotes chars rest (.keyword word)
  | name {chars rest : List Char} : Word chars rest →
    (∀ word : Keyword, word.text ≠ String.ofList chars) →
    Denotes chars rest (.name (String.ofList chars))
  | string {quote : Char} {body text rest : List Char} : isQuote quote → Spells quote body text →
    Denotes (quote :: (body ++ [quote])) rest (.string (String.ofList text))
  /-- The end of the text ends a string. -/
  | lastString {quote : Char} {body text : List Char} : isQuote quote → Spells quote body text →
    Denotes (quote :: body) [] (.string (String.ofList text))
  /-- The end of the text ends a string, and the backslash before it stands for nothing. -/
  | lastEscape {quote : Char} {body text : List Char} : isQuote quote → Spells quote body text →
    Denotes (quote :: (body ++ ['\\'])) [] (.string (String.ofList text))
  /-- Of the operators that the text starts with, this is the longest. -/
  | operator {sign : String} {kind : Kind} {rest : List Char} : (sign, kind) ∈ operators →
    (∀ other ∈ operators, other.1.toList <+: sign.toList ++ rest →
      other.1.toList.length ≤ sign.toList.length) →
    Denotes sign.toList rest kind

/-! ## Runs of characters -/

/-- The longest run of such characters, and what follows it. -/
theorem longest_run (p : Char → Bool) (cs : List Char) :
    cs = cs.takeWhile p ++ cs.dropWhile p ∧ (∀ c ∈ cs.takeWhile p, p c = true) ∧
      Stops p (cs.dropWhile p) := by
  refine ⟨List.takeWhile_append_dropWhile.symm, List.all_eq_true.1 List.all_takeWhile,
    fun c hc => ?_⟩
  have := List.head?_dropWhile_not p cs
  rw [Option.mem_def.1 hc] at this
  simpa using this

theorem longest_run_eq (hcs : ∀ c ∈ cs, p c = true) (hrest : Stops p rest) :
    (cs ++ rest).takeWhile p = cs ∧ (cs ++ rest).dropWhile p = rest := by
  rw [List.takeWhile_append_of_pos hcs, List.dropWhile_append_of_pos hcs]
  cases rest with
  | nil => simp
  | cons c rest =>
    have hc : p c = false := hrest c rfl
    simp [hc]

/-! ## Numbers -/

theorem spanNumber_true (cs : List Char) :
    spanNumber true cs = (cs.takeWhile isNumeralChar, cs.dropWhile isNumeralChar) := by
  induction cs with
  | nil => rfl
  | cons c cs ih =>
    rw [spanNumber]
    by_cases hc : isDigit c || c = '_'
    · simp [hc, ih, isNumeralChar]
    · simp [hc, isNumeralChar]

/-- A number goes on behind a point that a digit follows, but only once. -/
theorem spanNumber_false (cs : List Char) :
    spanNumber false cs =
      if startsFraction (cs.dropWhile isNumeralChar) then
        (cs.takeWhile isNumeralChar ++
            '.' :: (cs.dropWhile isNumeralChar).tail.takeWhile isNumeralChar,
          (cs.dropWhile isNumeralChar).tail.dropWhile isNumeralChar)
      else (cs.takeWhile isNumeralChar, cs.dropWhile isNumeralChar) := by
  induction cs with
  | nil => rfl
  | cons c cs ih =>
    rw [spanNumber]
    by_cases hc : isDigit c || c = '_'
    · have hn : isNumeralChar c = true := hc
      simp only [hc, if_true, ih, List.takeWhile_cons_of_pos hn, List.dropWhile_cons_of_pos hn]
      split <;> rfl
    · have hn : ¬ isNumeralChar c = true := hc
      rw [if_neg hc, List.takeWhile_cons_of_neg hn, List.dropWhile_cons_of_neg hn]
      by_cases hp : startsFraction (c :: cs)
      · obtain ⟨rfl, hd⟩ : c = '.' ∧ cs.head?.any isDigit = true := by
          unfold startsFraction at hp
          split at hp <;> simp_all
        simp [hd, hp, spanNumber_true]
      · have hno : ¬ (decide (c = '.') && !false && cs.head?.any isDigit) = true := by
          intro h
          apply hp
          cases cs <;> simp_all [startsFraction]
        rw [if_neg hno, if_neg hp]

theorem numeral_iff : Numeral cs ↔
    (∃ d ds, cs = d :: ds ∧ isDigit d = true) ∧ ∀ c ∈ cs, isNumeralChar c = true := by
  constructor
  · rintro ⟨d, ds, rfl, hd, hds⟩
    refine ⟨⟨d, ds, rfl, hd⟩, ?_⟩
    simpa [isNumeralChar, hd] using hds
  · rintro ⟨⟨d, ds, rfl, hd⟩, h⟩
    exact ⟨d, ds, rfl, hd, fun c hc => h c (List.mem_cons_of_mem d hc)⟩

theorem stops_nil : Stops p [] := by simp [Stops]

theorem stops_point (rest : List Char) : Stops isNumeralChar ('.' :: rest) := by
  intro c hc
  cases hc
  rfl

/-- Without underscores a numeral is all digits. -/
theorem Numeral.digits (h : Numeral cs) : ∀ c ∈ cs.filter (· ≠ '_'), isDigit c = true := by
  intro c hc
  obtain ⟨hc, hu⟩ := List.mem_filter.1 hc
  have := (numeral_iff.1 h).2 c hc
  simp_all [isNumeralChar]

theorem numberValue_whole (h : Numeral cs) :
    numberValue cs = ofPlaces (cs.filter (· ≠ '_')) [] 0 := by
  obtain ⟨htake, hdrop⟩ := longest_run_eq h.digits stops_nil
  rw [List.append_nil] at htake hdrop
  simp only [numberValue, htake, hdrop, List.drop_nil]

theorem numberValue_decimal (h : Numeral cs) :
    numberValue (cs ++ '.' :: ds) =
      ofPlaces (cs.filter (· ≠ '_')) (ds.filter (· ≠ '_')) 0 := by
  have hpoint : (cs ++ '.' :: ds).filter (· ≠ '_') =
      cs.filter (· ≠ '_') ++ '.' :: ds.filter (· ≠ '_') := by simp
  have hstop : Stops isDigit ('.' :: ds.filter (· ≠ '_')) := by
    intro c hc
    cases hc
    rfl
  obtain ⟨htake, hdrop⟩ := longest_run_eq h.digits hstop
  simp only [numberValue, hpoint, htake, hdrop, List.drop_one, List.tail_cons]

theorem scanNumber_whole (hn : Numeral cs) (hs : Stops isNumeralChar rest)
    (hf : startsFraction rest = false) :
    scanNumber (cs ++ rest) = ⟨.number (ofPlaces (cs.filter (· ≠ '_')) [] 0), cs, rest⟩ := by
  obtain ⟨htake, hdrop⟩ := longest_run_eq (numeral_iff.1 hn).2 hs
  have hspan : spanNumber false (cs ++ rest) = (cs, rest) := by
    rw [spanNumber_false, htake, hdrop, hf]
    rfl
  simp only [scanNumber, hspan, numberValue_whole hn]

theorem scanNumber_decimal (hn : Numeral cs) (hp : Numeral ds) (hs : Stops isNumeralChar rest) :
    scanNumber (cs ++ '.' :: ds ++ rest) =
      ⟨.number (ofPlaces (cs.filter (· ≠ '_')) (ds.filter (· ≠ '_')) 0),
        cs ++ '.' :: ds, rest⟩ := by
  obtain ⟨htake, hdrop⟩ := longest_run_eq (numeral_iff.1 hn).2 (stops_point (ds ++ rest))
  obtain ⟨hplaces, hend⟩ := longest_run_eq (numeral_iff.1 hp).2 hs
  have hf : startsFraction ('.' :: (ds ++ rest)) = true := by
    obtain ⟨d, more, rfl, hd, _⟩ := hp
    exact hd
  have hspan : spanNumber false (cs ++ '.' :: ds ++ rest) = (cs ++ '.' :: ds, rest) := by
    rw [List.append_assoc, List.cons_append, spanNumber_false, htake, hdrop, hf, List.tail_cons,
      hplaces, hend]
    rfl
  simp only [scanNumber, hspan, numberValue_decimal hn]

/-- The longest numeral at the start of a text that starts with a digit. -/
theorem exists_numeral (hc : isDigit c = true) :
    ∃ whole rest, c :: cs = whole ++ rest ∧ Numeral whole ∧ Stops isNumeralChar rest := by
  obtain ⟨hcut, hall, hstop⟩ := longest_run isNumeralChar (c :: cs)
  refine ⟨_, _, hcut, numeral_iff.2 ⟨⟨c, cs.takeWhile isNumeralChar, ?_, hc⟩, hall⟩, hstop⟩
  exact List.takeWhile_cons_of_pos (by simp [isNumeralChar, hc])

theorem denotes_scanNumber (hc : isDigit c = true) :
    c :: cs = (scanNumber (c :: cs)).chars ++ (scanNumber (c :: cs)).rest ∧
      Denotes (scanNumber (c :: cs)).chars (scanNumber (c :: cs)).rest
        (scanNumber (c :: cs)).kind := by
  obtain ⟨whole, rest, hcut, hwhole, hstop⟩ := exists_numeral hc
  rw [hcut]
  by_cases hf : startsFraction rest
  · obtain ⟨d, more, rfl, hd⟩ : ∃ d more, rest = '.' :: d :: more ∧ isDigit d = true := by
      unfold startsFraction at hf
      split at hf
      next d more => exact ⟨d, more, rfl, hf⟩
      next => cases hf
    obtain ⟨places, rest, hplaces, hnum, hend⟩ := exists_numeral hd
    rw [hplaces, ← List.cons_append, ← List.append_assoc, scanNumber_decimal hwhole hnum hend]
    exact ⟨rfl, .decimal hwhole hnum hend⟩
  · have hf : startsFraction rest = false := by simpa using hf
    rw [scanNumber_whole hwhole hstop hf]
    exact ⟨rfl, .whole hwhole hstop hf⟩

/-! ## Names -/

theorem denotes_scanName (hc : isNameStart c = true) :
    c :: cs = (scanName (c :: cs)).chars ++ (scanName (c :: cs)).rest ∧
      Denotes (scanName (c :: cs)).chars (scanName (c :: cs)).rest (scanName (c :: cs)).kind := by
  obtain ⟨hcut, hall, hstop⟩ := longest_run isNameChar (c :: cs)
  refine ⟨hcut, ?_⟩
  have hword : Word ((c :: cs).takeWhile isNameChar) ((c :: cs).dropWhile isNameChar) := by
    refine ⟨⟨c, cs.takeWhile isNameChar, ?_, hc⟩, hall, hstop⟩
    exact List.takeWhile_cons_of_pos (by simp [isNameChar, hc])
  simp only [scanName]
  split
  next word hw => exact .keyword hword (Keyword.ofText?_eq_some.1 hw)
  next hno => exact .name hword (Keyword.ofText?_eq_none.1 hno)

theorem scanName_keyword {word : Keyword} (h : Word chars rest)
    (hw : word.text = String.ofList chars) :
    scanName (chars ++ rest) = ⟨.keyword word, chars, rest⟩ := by
  obtain ⟨htake, hdrop⟩ := longest_run_eq h.2.1 h.2.2
  simp only [scanName, htake, hdrop, Keyword.ofText?_eq_some.2 hw]

theorem scanName_name (h : Word chars rest)
    (hw : ∀ word : Keyword, word.text ≠ String.ofList chars) :
    scanName (chars ++ rest) = ⟨.name (String.ofList chars), chars, rest⟩ := by
  obtain ⟨htake, hdrop⟩ := longest_run_eq h.2.1 h.2.2
  simp only [scanName, htake, hdrop, Keyword.ofText?_eq_none.2 hw]

/-! ## Strings -/

theorem denotes_scanString (hq : isQuote quote = true) :
    quote :: cs = (scanString quote cs).chars ++ (scanString quote cs).rest ∧
      Denotes (scanString quote cs).chars (scanString quote cs).rest
        (scanString quote cs).kind := by
  suffices h : cs = (spanString quote cs).2.1 ++ (spanString quote cs).2.2 ∧
      ∃ body, Spells quote body (spanString quote cs).1 ∧
        ((spanString quote cs).2.1 = body ++ [quote] ∨
          (spanString quote cs).2.2 = [] ∧
            ((spanString quote cs).2.1 = body ∨ (spanString quote cs).2.1 = body ++ ['\\'])) by
    obtain ⟨hcut, body, hspells, hend⟩ := h
    refine ⟨congrArg (quote :: ·) hcut, ?_⟩
    show Denotes (quote :: (spanString quote cs).2.1) (spanString quote cs).2.2
      (.string (String.ofList (spanString quote cs).1))
    rcases hend with hend | ⟨hrest, hend | hend⟩
    · rw [hend]
      exact .string hq hspells
    · rw [hend, hrest]
      exact .lastString hq hspells
    · rw [hend, hrest]
      exact .lastEscape hq hspells
  fun_induction spanString quote cs with
  | case1 => exact ⟨rfl, [], .nil, .inr ⟨rfl, .inl rfl⟩⟩
  | case2 => exact ⟨rfl, [], .nil, .inr ⟨rfl, .inr rfl⟩⟩
  | case3 c cs text chars rest heq ih =>
    rw [heq] at ih
    obtain ⟨hcut, body, hspells, hend⟩ := ih
    refine ⟨by simp [hcut], '\\' :: c :: body, hspells.escape, ?_⟩
    simpa using hend
  | case4 cs => exact ⟨rfl, [], .nil, .inl rfl⟩
  | case5 c cs hlast hescape hc text chars rest heq ih =>
    rw [heq] at ih
    obtain ⟨hcut, body, hspells, hend⟩ := ih
    have hslash : c ≠ '\\' := by
      intro hslash
      cases cs with
      | nil => exact hlast hslash rfl
      | cons d cs => exact hescape d cs hslash rfl
    refine ⟨by simp [hcut], c :: body, hspells.plain hc hslash, ?_⟩
    simpa using hend

theorem ne_backslash (hq : isQuote quote = true) : quote ≠ '\\' := by
  rintro rfl
  cases hq

/-- The characters before the closing quote, or before the end of the text, are read one by one. -/
theorem scanString_append (h : Spells quote body text) (cs : List Char) :
    scanString quote (body ++ cs) =
      ⟨.string (String.ofList (text ++ (spanString quote cs).1)),
        quote :: (body ++ (spanString quote cs).2.1), (spanString quote cs).2.2⟩ := by
  suffices hspan : spanString quote (body ++ cs) =
      (text ++ (spanString quote cs).1, body ++ (spanString quote cs).2.1,
        (spanString quote cs).2.2) by
    simp only [scanString, hspan]
  induction h with
  | nil => rfl
  | escape _ ih => simp [spanString, ih]
  | plain hc hslash _ ih =>
    rw [List.cons_append, spanString]
    · simp [hc, ih]
    · exact fun h => absurd h hslash
    · exact fun _ _ h => absurd h hslash

theorem spanString_quote (hq : isQuote quote = true) :
    spanString quote (quote :: rest) = ([], [quote], rest) := by
  rw [spanString]
  · simp
  · exact fun h => absurd h (ne_backslash hq)
  · exact fun _ _ h => absurd h (ne_backslash hq)

/-! ## Operators -/

/-- No sign stands in the table twice, or after a shorter one. -/
theorem operators_ordered : operators.Pairwise fun a b =>
    b.1.toList.length ≤ a.1.toList.length ∧ a.1.toList ≠ b.1.toList := by decide +kernel

theorem operator_start {sign : String} (h : (sign, kind) ∈ operators) :
    ∃ c cs, sign.toList = c :: cs ∧ isDigit c = false ∧ isNameStart c = false ∧
      isQuote c = false := by
  have hall : operators.all (fun o => o.1.toList.head?.any fun c =>
      !isDigit c && !isNameStart c && !isQuote c) = true := by decide +kernel
  obtain ⟨c, hc, hplain⟩ := (Option.any_eq_true _ _).1 (List.all_eq_true.1 hall _ h)
  obtain ⟨cs, hcs⟩ := List.head?_eq_some_iff.1 hc
  simp only [Bool.and_eq_true, Bool.not_eq_true'] at hplain
  exact ⟨c, cs, hcs, hplain.1.1, hplain.1.2, hplain.2⟩

/-- The longest operator at the start of a text is found, because the longer ones come first. -/
theorem scanOperator?_iff : scanOperator? cs = some ⟨kind, chars, rest⟩ ↔
    cs = chars ++ rest ∧ ∃ sign, sign.toList = chars ∧ (sign, kind) ∈ operators ∧
      ∀ other ∈ operators, other.1.toList <+: cs → other.1.toList.length ≤ chars.length := by
  have hnone : ∀ {o : String × Kind}, (o.1.toList.isPrefixOf? cs).map
      (fun rest => (⟨o.2, o.1.toList, rest⟩ : Lexeme)) = none ↔ ¬ o.1.toList <+: cs := by
    intro o
    rw [Option.map_eq_none_iff, Option.eq_none_iff_forall_ne_some]
    constructor
    · rintro h ⟨rest, hrest⟩
      exact h rest (List.isPrefixOf?_eq_some_iff_append_eq.2 hrest)
    · rintro h rest hrest
      exact h ⟨rest, List.isPrefixOf?_eq_some_iff_append_eq.1 hrest⟩
  unfold scanOperator?
  rw [List.findSome?_eq_some_iff]
  constructor
  · rintro ⟨longer, ⟨sign, k⟩, shorter, hops, hfound, hlonger⟩
    obtain ⟨r, hr, heq⟩ := Option.map_eq_some_iff.1 hfound
    cases heq
    refine ⟨(List.isPrefixOf?_eq_some_iff_append_eq.1 hr).symm, sign, rfl, by simp [hops],
      fun other hother hpre => ?_⟩
    have hordered := operators_ordered
    rw [hops, List.pairwise_append, List.pairwise_cons] at hordered
    rw [hops, List.mem_append, List.mem_cons] at hother
    rcases hother with hother | rfl | hother
    · exact absurd hpre (hnone.1 (hlonger other hother))
    · exact Nat.le_refl _
    · exact (hordered.2.1.1 other hother).1
  · rintro ⟨rfl, sign, rfl, hmem, hlongest⟩
    obtain ⟨longer, shorter, hops⟩ := List.append_of_mem hmem
    refine ⟨longer, (sign, kind), shorter, hops, ?_, fun other hother => hnone.2 fun hpre => ?_⟩
    · show (sign.toList.isPrefixOf? (sign.toList ++ rest)).map _ = _
      rw [List.isPrefixOf?_eq_some_iff_append_eq.2 rfl, Option.map_some]
    · have hordered := operators_ordered
      rw [hops, List.pairwise_append] at hordered
      obtain ⟨hge, hne⟩ := hordered.2.2 other hother _ List.mem_cons_self
      have hle := hlongest other (by simp [hops, hother]) hpre
      refine hne ?_
      exact List.IsPrefix.eq_of_length
        (List.prefix_of_prefix_length_le hpre (List.prefix_append _ _) hle)
        (Nat.le_antisymm hle hge)

/-! ## Any lexeme -/

theorem isDigit_of_isNameStart (h : isNameStart c = true) : isDigit c = false := by
  rw [← Bool.not_eq_true]
  intro hd
  simp only [isDigit, isNameStart, Bool.and_eq_true, Bool.or_eq_true, decide_eq_true_eq,
    Char.le_def, UInt32.le_iff_toNat_le] at h hd
  rcases h with ((h | h) | rfl) | rfl
  · exact absurd (Nat.le_trans h.1 hd.2) (by decide)
  · exact absurd (Nat.le_trans h.1 hd.2) (by decide)
  · exact absurd hd.2 (by decide)
  · exact absurd hd.1 (by decide)

theorem not_digit_nor_start_of_isQuote (h : isQuote c = true) :
    isDigit c = false ∧ isNameStart c = false := by
  simp only [isQuote, Bool.or_eq_true, decide_eq_true_eq] at h
  rcases h with (rfl | rfl) | rfl <;> decide

/-- What is found at the start of a text is a lexeme. -/
theorem denotes_scan {l : Lexeme} (h : scan? cs = some l) :
    cs = l.chars ++ l.rest ∧ Denotes l.chars l.rest l.kind := by
  cases cs with
  | nil => cases h
  | cons c cs =>
    rw [scan?] at h
    by_cases hd : isDigit c
    · rw [if_pos hd] at h
      cases h
      exact denotes_scanNumber hd
    rw [if_neg hd] at h
    by_cases hn : isNameStart c
    · rw [if_pos hn] at h
      cases h
      exact denotes_scanName hn
    rw [if_neg hn] at h
    by_cases hq : isQuote c
    · rw [if_pos hq] at h
      cases h
      exact denotes_scanString hq
    rw [if_neg hq] at h
    obtain ⟨hcut, sign, hsign, hmem, hlongest⟩ := scanOperator?_iff.1 h
    refine ⟨hcut, ?_⟩
    rw [hcut, ← hsign] at hlongest
    rw [← hsign]
    exact .operator hmem hlongest

/-- The lexeme at the start of a text is the only one, and it is found. -/
theorem scan?_iff : scan? cs = some ⟨kind, chars, rest⟩ ↔
    cs = chars ++ rest ∧ Denotes chars rest kind := by
  refine ⟨denotes_scan, ?_⟩
  rintro ⟨rfl, h⟩
  have hnumber : ∀ {more}, Numeral more →
      scan? (more ++ rest) = some (scanNumber (more ++ rest)) := by
    rintro _ ⟨d, ds, rfl, hd, _⟩
    simp [scan?, hd]
  have hname : ∀ {more}, Word more rest →
      scan? (more ++ rest) = some (scanName (more ++ rest)) := by
    rintro _ ⟨⟨d, ds, rfl, hd⟩, _⟩
    simp [scan?, hd, isDigit_of_isNameStart hd]
  have hstring : ∀ {quote more}, isQuote quote →
      scan? (quote :: more) = some (scanString quote more) := by
    intro quote more hq
    obtain ⟨hd, hn⟩ := not_digit_nor_start_of_isQuote hq
    simp [scan?, hq, hd, hn]
  cases h with
  | whole hw hs hf => rw [hnumber hw, scanNumber_whole hw hs hf]
  | @decimal whole places _ hw hp hs =>
    obtain ⟨d, ds, rfl, hd, _⟩ := id hw
    rw [← scanNumber_decimal hw hp hs]
    simp [scan?, hd]
  | keyword hword hw => rw [hname hword, scanName_keyword hword hw]
  | name hword hw => rw [hname hword, scanName_name hword hw]
  | string hq hspells =>
    rw [List.cons_append, hstring hq, List.append_assoc, scanString_append hspells,
      List.singleton_append, spanString_quote hq, List.append_nil]
  | @lastString quote body text hq hspells =>
    have hscan := scanString_append hspells []
    rw [List.append_nil] at hscan ⊢
    rw [hstring hq, hscan, spanString, List.append_nil, List.append_nil]
  | lastEscape hq hspells =>
    rw [List.append_nil, hstring hq, scanString_append hspells, spanString, List.append_nil]
  | @operator sign _ _ hmem hlongest =>
    obtain ⟨d, ds, hsign, hd, hn, hq⟩ := operator_start hmem
    have hscan : scan? (sign.toList ++ rest) = scanOperator? (sign.toList ++ rest) := by
      simp [hsign, scan?, hd, hn, hq]
    rw [hscan]
    exact scanOperator?_iff.2 ⟨rfl, sign, rfl, hmem, hlongest⟩

/-- A lexeme has at least one character. -/
theorem Denotes.ne_nil (h : Denotes chars rest kind) : chars ≠ [] := by
  cases h with
  | whole h =>
    obtain ⟨_, _, rfl, _⟩ := h
    exact List.cons_ne_nil _ _
  | decimal => simp
  | keyword h =>
    obtain ⟨⟨_, _, rfl, _⟩, _⟩ := h
    exact List.cons_ne_nil _ _
  | name h =>
    obtain ⟨⟨_, _, rfl, _⟩, _⟩ := h
    exact List.cons_ne_nil _ _
  | string => exact List.cons_ne_nil _ _
  | lastString => exact List.cons_ne_nil _ _
  | lastEscape => exact List.cons_ne_nil _ _
  | operator h =>
    obtain ⟨_, _, hsign, _⟩ := operator_start h
    rw [hsign]
    exact List.cons_ne_nil _ _

end Token

end TinyScript

/-
  TinyScript.Proofs.Token.Names — texts that read as a single name.

  An identifier is a letter, an underscore or a dollar sign, with such characters and digits after
  it, that is no word of the language. Every name in a script is one (`isIdentifier_of_token`). A
  text reads as a single name if it is an identifier, but also if there are blanks or comments
  around it (`isName_iff`).
-/

import TinyScript.Library
import TinyScript.Proofs.Token.Partition

namespace TinyScript.Token

variable {file text name : String} {before gap rest : List Char}

structure IsIdentifier (text : String) : Prop where
  start : ∃ c cs, text.toList = c :: cs ∧ isNameStart c = true
  chars : ∀ c ∈ text.toList, isNameChar c = true
  free : ∀ word : Keyword, word.text ≠ text

structure Frames (text name : String) (before after : List Char) : Prop where
  identifier : IsIdentifier name
  whole : text.toList = before ++ name.toList ++ after
  before : Gap before (name.toList ++ after)
  after : Gap after []

def IsFramed (text : String) : Prop := ∃ name before after, Frames text name before after

/-! ## Identifiers as lexemes -/

theorem not_isNameChar_of_isGapChar {c : Char} (h : isGapChar c = true) : isNameChar c = false := by
  simp only [isGapChar, Bool.or_eq_true, decide_eq_true_eq] at h
  rcases h with ((rfl | rfl) | rfl) | rfl <;> decide

theorem Comment.starts {comment : List Char} (h : Comment comment rest) :
    ∃ cs, comment = '/' :: cs := by
  cases h <;> exact ⟨_, rfl⟩

/-- A name does not go on into the gap behind it. -/
theorem Gap.stops (h : Gap gap []) : Stops isNameChar gap := by
  intro c hc
  cases h with
  | nil => cases hc
  | blank hblank _ =>
    cases hc
    exact not_isNameChar_of_isGapChar hblank
  | comment hcomment _ =>
    obtain ⟨cs, rfl⟩ := hcomment.starts
    cases hc
    decide

theorem startsGap_cons {c : Char} {cs : List Char} (h : isNameChar c = true) :
    startsGap (c :: cs) = false := by
  have hgap : isGapChar c = false := by
    rw [← Bool.not_eq_true]
    intro hgap
    rw [not_isNameChar_of_isGapChar hgap] at h
    cases h
  have hslash : c ≠ '/' := by
    rintro rfl
    cases h
  unfold startsGap
  split <;> simp_all

namespace IsIdentifier

theorem word (h : IsIdentifier name) (hrest : Stops isNameChar rest) : Word name.toList rest :=
  ⟨h.start, h.chars, hrest⟩

theorem denotes (h : IsIdentifier name) (hrest : Stops isNameChar rest) :
    Denotes name.toList rest (.name name) := by
  have hd := Denotes.name (h.word hrest) (by rw [String.ofList_toList]; exact h.free)
  rwa [String.ofList_toList] at hd

theorem not_startsGap (h : IsIdentifier name) : startsGap (name.toList ++ rest) = false := by
  obtain ⟨c, cs, hname, _⟩ := h.start
  rw [hname, List.cons_append]
  exact startsGap_cons (h.chars c (by simp [hname]))

end IsIdentifier

/-- Names in a script are identifiers. -/
theorem Denotes.isIdentifier {chars : List Char} (h : Denotes chars rest (.name name)) :
    IsIdentifier name ∧ name.toList = chars := by
  generalize hk : Kind.name name = kind at h
  cases h with
  | @name chars _ hword hfree =>
    cases hk
    rw [String.toList_ofList]
    refine ⟨⟨?_, ?_, hfree⟩, rfl⟩
    · rw [String.toList_ofList]
      exact hword.1
    · rw [String.toList_ofList]
      exact hword.2.1
  | @operator sign _ _ hmem _ =>
    subst hk
    exact absurd hmem (by simp [operators])
  | _ => cases hk

theorem Cut.isIdentifier {cut : List Char} {tokens : List Token}
    (h : Cut file before cut tokens rest) {t : Token} (ht : t ∈ tokens) (hk : t.kind = .name name) :
    IsIdentifier name := by
  induction h with
  | nil => cases ht
  | @cons _ _ _ _ _ kind _ _ hd _ _ _ ih =>
    rcases List.mem_cons.1 ht with rfl | ht
    · have hk : kind = .name name := hk
      subst hk
      exact hd.isIdentifier.1
    · exact ih ht

theorem isIdentifier_of_token {source : String} {tokens : List Token}
    (h : tokenize source file = .ok tokens) {t : Token} (ht : t ∈ tokens)
    (hk : t.kind = .name name) :
    IsIdentifier name := by
  obtain ⟨first, cut, lexed, rest, hp, hno⟩ := exists_partition file source.toList
  cases rest with
  | nil =>
    rw [hp.tokenize_done] at h
    cases h
    rcases List.mem_append.1 ht with ht | ht
    · exact hp.cut.isIdentifier ht hk
    · cases List.mem_singleton.1 ht
      cases hk
  | cons c rest =>
    rw [hp.tokenize_stop hno] at h
    cases h

/-! ## Single tokens -/

/-- A lexeme between gaps is its one token. -/
theorem Denotes.tokenize {lexeme after : List Char} {kind : Kind} (hd : Denotes lexeme after kind)
    (hwhole : text.toList = before ++ (lexeme ++ after)) (hbefore : Gap before (lexeme ++ after))
    (hstop : startsGap (lexeme ++ after) = false) (hafter : Gap after []) (file : String) :
    Token.tokenize text file = .ok [⟨kind, placeAfter file before⟩,
      ⟨.eof, placeAfter file text.toList⟩] := by
  have hcut : Cut file before (lexeme ++ after) [⟨kind, placeAfter file before⟩] [] := by
    have := Cut.cons hd.ne_nil (by simpa using hd) (by simpa using hafter) rfl
      (Cut.nil : Cut file (before ++ lexeme ++ after) [] [] [])
    simpa using this
  have hp : Partition file text.toList before (lexeme ++ after)
      [⟨kind, placeAfter file before⟩] [] := by
    refine ⟨?_, ?_, ?_, hcut⟩ <;> simpa
  exact hp.tokenize_done

theorem IsIdentifier.frames (h : IsIdentifier text) : Frames text text [] [] :=
  ⟨h, by simp, .nil, .nil⟩

/-- An identifier in a frame of gaps is its one token. -/
theorem Frames.tokenize {after : List Char} (h : Frames text name before after) (file : String) :
    Token.tokenize text file = .ok [⟨.name name, placeAfter file before⟩,
      ⟨.eof, placeAfter file text.toList⟩] := by
  have hd := h.identifier.denotes h.after.stops
  exact hd.tokenize (by rw [h.whole, List.append_assoc]) h.before h.identifier.not_startsGap h.after
    file

/-- A text reads as a single name exactly if it is an identifier in a frame of gaps. -/
theorem isName_iff : isName text = true ↔ IsFramed text := by
  unfold isName
  constructor
  · intro h
    obtain ⟨first, cut, lexed, rest, hp, hno⟩ := exists_partition "<init>" text.toList
    split at h
    next name p q htokens =>
      cases rest with
      | cons c rest =>
        rw [hp.tokenize_stop hno] at htokens
        cases htokens
      | nil =>
        rw [hp.tokenize_done] at htokens
        have hlexed : lexed = [⟨.name name, p⟩] :=
          List.append_inj_left' (Except.ok.inj htokens) rfl
        obtain ⟨hwhole, hfirst, _, hcut⟩ := hp
        subst hlexed
        cases hcut with
        | @cons _ lexeme gap cut _ _ _ _ hd hgap _ hmore =>
          cases hmore
          obtain ⟨hname, rfl⟩ := hd.isIdentifier
          refine ⟨name, first, gap, hname, ?_, ?_, by simpa using hgap⟩
          · simpa using hwhole
          · simpa using hfirst
    next => cases h
  · rintro ⟨name, before, after, h⟩
    rw [h.tokenize]

end TinyScript.Token

/-
  TinyScript.Proofs.Number.Texts — the texts of decimals read as decimals of the same size.

  Digits around a point (`Places`) are read back from any text that starts with them, and are one
  lexeme of the source. Without an exponent a decimal is written in this way
  (`places_positional`), with one the digits have a power of ten behind them
  (`places_scientific`). Either text reads as a decimal of the same size (`positive_reads`), and a
  sign before it turns the number around (`Framed.ofText_eq`).
-/

import Mathlib
import TinyScript.Number.Layout
import TinyScript.Number.Reading
import TinyScript.Proofs.Token.Lexemes

namespace TinyScript.Number

open TinyScript.Token (Stops longest_run_eq stops_nil)

variable {c : Char}

attribute [local instance (high)] instPowNat

variable {n : Nat} {cs ws fs t : List Char}

/-! ## Digits -/

theorem isDigit_iff : isDigit c = true ↔ 48 ≤ c.toNat ∧ c.toNat ≤ 57 := by
  rw [isDigit, Bool.and_eq_true, decide_eq_true_iff, decide_eq_true_iff]
  exact Iff.rfl

@[simp] theorem toList_digitsText (n : Nat) : (digitsText n).toList = Nat.toDigits 10 n :=
  Nat.toList_repr

@[simp] theorem toList_zeros (n : Nat) : (zeros n).toList = List.replicate n '0' := by
  simp [zeros]

theorem natOfDigits_toDigits (n : Nat) : natOfDigits (Nat.toDigits 10 n) = n :=
  Nat.ofDigitChars_ten_toDigits

theorem natOfDigits_zeros (n : Nat) : natOfDigits (List.replicate n '0') = 0 :=
  (@Nat.ofDigitChars_replicate_zero 10 0 n).trans (Nat.mul_zero _)

def Digits (cs : List Char) : Prop := cs ≠ [] ∧ ∀ c ∈ cs, isDigit c = true

theorem digits_toDigits (n : Nat) : Digits (Nat.toDigits 10 n) :=
  ⟨Nat.toDigits_ne_nil, fun _ h => Nat.isDigit_of_mem_toDigits (by decide) (by decide) h⟩

theorem isDigit_of_mem_zeros (h : c ∈ List.replicate n '0') : isDigit c = true := by
  rw [List.eq_of_mem_replicate h]
  rfl

/-- The leading digit stands at a power of ten that the number reaches. -/
theorem ten_pow_le (pos : 0 < n) : 10 ^ ((Nat.toDigits 10 n).length - 1) ≤ n := by
  by_contra less
  rcases Nat.eq_or_lt_of_le (@Nat.length_toDigits_pos 10 n) with one | more
  · simp [← one] at less
    omega
  · have := (Nat.length_toDigits_le_iff (b := 10) (by decide) (by omega)).2 (Nat.not_le.1 less)
    omega

/-! ## Digits around a point -/

inductive Places : (t ws fs : List Char) → Prop
  | whole {ws : List Char} : Digits ws → Places ws ws []
  | point {ws fs : List Char} : Digits ws → Digits fs → Places (ws ++ '.' :: fs) ws fs

theorem Places.readPlaces?_append {rest : List Char} (h : Places t ws fs)
    (stops : Stops isDigit rest) (noPoint : rest.head? ≠ some '.') :
    readPlaces? (t ++ rest) = (readExponent? rest).map (ofPlaces ws fs) := by
  cases h with
  | whole digits =>
    obtain ⟨take, drop⟩ := longest_run_eq digits.2 stops
    simp only [readPlaces?, take, drop]
    split
    · simp at noPoint
    · simp [digits.1]
  | point whole fraction =>
    have stop : Stops isDigit ('.' :: (fs ++ rest)) := by
      intro c h
      cases h
      rfl
    obtain ⟨take, drop⟩ := longest_run_eq whole.2 stop
    obtain ⟨takeMore, dropMore⟩ := longest_run_eq fraction.2 stops
    simp [readPlaces?, take, drop, takeMore, dropMore, whole.1]

theorem Digits.numeral (h : Digits cs) : Token.Numeral cs := by
  obtain ⟨c, cs, rfl⟩ := List.exists_cons_of_ne_nil h.1
  refine ⟨c, cs, rfl, h.2 c List.mem_cons_self, fun d hd => ?_⟩
  simp [Token.isNumeralChar, h.2 d (List.mem_cons_of_mem c hd)]

theorem Digits.filter_underscores (h : Digits cs) : cs.filter (· ≠ '_') = cs := by
  rw [List.filter_eq_self]
  intro c hc
  have digit := h.2 c hc
  simp only [decide_eq_true_iff]
  rintro rfl
  cases digit

/-- Digits around a point are one lexeme, which is a number. -/
theorem Places.denotes (h : Places t ws fs) : Token.Denotes t [] (.number (ofPlaces ws fs 0)) := by
  cases h with
  | whole digits =>
    have lexeme := Token.Denotes.whole digits.numeral stops_nil rfl
    rwa [digits.filter_underscores] at lexeme
  | point whole fraction =>
    have lexeme := Token.Denotes.decimal whole.numeral fraction.numeral stops_nil
    rwa [whole.filter_underscores, fraction.filter_underscores] at lexeme

/-! ## The two layouts of a decimal -/

/-- The number that digits around a point write, with the power of ten of its last digit. -/
theorem ofPlaces_eq (ws fs : List Char) (e : Int) :
    ofPlaces ws fs e = ofDecimal (natOfDigits (ws ++ fs)) (e - fs.length) := by
  rw [ofPlaces, natOfManyDigits_eq]

variable {d : Decimal}

/-- Zeros make up for places that are missing. -/
theorem Digits.append_zeros (h : Digits cs) (k : Nat) : Digits (cs ++ List.replicate k '0') := by
  refine ⟨by simp [h.1], fun c hc => ?_⟩
  rcases List.mem_append.1 hc with hc | hc
  · exact h.2 c hc
  · exact isDigit_of_mem_zeros hc

theorem Digits.zeros_append (h : Digits cs) (k : Nat) : Digits (List.replicate k '0' ++ cs) := by
  refine ⟨by simp [h.1], fun c hc => ?_⟩
  rcases List.mem_append.1 hc with hc | hc
  · exact isDigit_of_mem_zeros hc
  · exact h.2 c hc

/-- A point parts the digits. -/
theorem Digits.places_point {k : Nat} (h : Digits cs) (some : 0 < k) (less : k < cs.length) :
    Places (cs.take k ++ '.' :: cs.drop k) (cs.take k) (cs.drop k) := by
  refine .point ⟨?_, fun c hc => h.2 c (List.mem_of_mem_take hc)⟩
    ⟨?_, fun c hc => h.2 c (List.mem_of_mem_drop hc)⟩
  · rw [ne_eq, List.take_eq_nil_iff, not_or]
    exact ⟨by omega, h.1⟩
  · rw [ne_eq, List.drop_eq_nil_iff]
    omega

/-- Without an exponent the digits stand around a point, or zeros follow them. -/
theorem places_positional (d : Decimal) : ∃ ws fs, Places d.positional.toList ws fs ∧
    (natOfDigits (ws ++ fs) : ℚ) * 10 ^ (-(fs.length : Int)) = d.digits * 10 ^ d.exponent ∧
    (fs.length : Int) = max (-d.exponent) 0 := by
  have digits := digits_toDigits d.digits
  have value := natOfDigits_toDigits d.digits
  simp only [Decimal.positional, toList_digitsText]
  split
  next whole =>
    refine ⟨_, [], .whole ?_, ?_, by simp; omega⟩
    · rw [String.toList_append, toList_digitsText, toList_zeros]
      exact digits.append_zeros _
    · rw [String.toList_append, toList_digitsText, toList_zeros, List.append_nil,
        natOfDigits_append, value, natOfDigits_zeros, List.length_replicate]
      push_cast
      rw [← zpow_natCast, Int.toNat_of_nonneg whole]
      simp
  next small =>
    obtain ⟨k, some, exponent⟩ : ∃ k : Nat, 0 < k ∧ d.exponent = -k :=
      ⟨(-d.exponent).toNat, by omega, by omega⟩
    have places : (- -(k : Int)).toNat = k := by omega
    have length : (k : Int) = max (- -(k : Int)) 0 := by omega
    generalize letters : Nat.toDigits 10 d.digits = cs at *
    rw [exponent, places]
    split
    next inside =>
      refine ⟨cs.take (cs.length - k), cs.drop (cs.length - k), ?_, ?_, ?_⟩
      · simpa using digits.places_point (k := cs.length - k) (by omega) (by omega)
      · rw [List.take_append_drop, value, List.length_drop, Nat.sub_sub_self (by omega)]
      · rwa [List.length_drop, Nat.sub_sub_self (by omega)]
    next outside =>
      have whole : Digits ['0'] := ⟨by simp, by simp [isDigit]⟩
      have zeros : (List.replicate (k - cs.length) '0' ++ cs).length = k := by
        rw [List.length_append, List.length_replicate]
        omega
      refine ⟨['0'], List.replicate (k - cs.length) '0' ++ cs, ?_, ?_, by rwa [zeros]⟩
      · simpa [letters] using Places.point whole (digits.zeros_append (k - cs.length))
      · rw [natOfDigits_append, natOfDigits_append, natOfDigits_zeros, value, zeros]
        simp [natOfDigits, pushDigit, digitValue]

/-- One digit stands before the point. -/
theorem places_mantissa (digits : Digits cs) : ∃ ws fs,
    Places (if cs.length = 1 then String.ofList cs
      else String.ofList (cs.take 1) ++ "." ++ String.ofList (cs.drop 1)).toList ws fs ∧
      ws ++ fs = cs ∧ fs.length = cs.length - 1 := by
  split
  next one => exact ⟨cs, [], by simpa using Places.whole digits, by simp, by simp [one]⟩
  next more =>
    obtain ⟨c, cs, rfl⟩ := List.exists_cons_of_ne_nil digits.1
    have first : Digits [c] := ⟨by simp, by simpa using digits.2 c⟩
    have others : Digits cs :=
      ⟨by simpa using more, fun d h => digits.2 d (List.mem_cons_of_mem c h)⟩
    exact ⟨[c], cs, by simpa using Places.point first others, by simp, by simp⟩

theorem readExponent?_digits {negative : Bool}
    (signed : takeSign (c :: Nat.toDigits 10 n) = (negative, Nat.toDigits 10 n))
    (small : n < exponentLimit) :
    readExponent? ('e' :: c :: Nat.toDigits 10 n) = some (if negative then -(n : Int) else n) := by
  have digits := digits_toDigits n
  have value := natOfDigits_toDigits n
  have all : (Nat.toDigits 10 n).all isDigit = true := List.all_eq_true.2 digits.2
  have exponent : exponentOfDigits (Nat.toDigits 10 n) = n := by
    rw [exponentOfDigits_eq (by rwa [value]), value]
  simp [readExponent?, signed, digits.1, all, exponent]

def powerText (p : Int) : String :=
  if p < 0 then "-" ++ digitsText (-p).toNat else "+" ++ digitsText p.toNat

theorem toList_powerText (p : Int) : ∃ c n, (powerText p).toList = c :: Nat.toDigits 10 n := by
  unfold powerText
  split
  · exact ⟨'-', (-p).toNat, by simp⟩
  · exact ⟨'+', p.toNat, by simp⟩

theorem readExponent?_powerText {p : Int} (small : p.natAbs < exponentLimit) :
    readExponent? ('e' :: (powerText p).toList) = some p := by
  unfold powerText
  split
  next negative =>
    have read := readExponent?_digits (c := '-') (n := (-p).toNat) rfl (by omega)
    rw [String.toList_append, toList_digitsText]
    exact read.trans (congrArg some (by simp; omega))
  next positive =>
    have read := readExponent?_digits (c := '+') (n := p.toNat) rfl (by omega)
    rw [String.toList_append, toList_digitsText]
    exact read.trans (congrArg some (by simp; omega))

/-- With an exponent one digit stands before the point, and the power of ten makes up for those
    behind it. -/
theorem places_scientific (d : Decimal) : ∃ t ws fs,
    (d.scientific "+").toList = t ++ 'e' :: (powerText (d.exponent + fs.length)).toList ∧
      Places t ws fs ∧ natOfDigits (ws ++ fs) = d.digits ∧
      fs.length = (Nat.toDigits 10 d.digits).length - 1 := by
  obtain ⟨ws, fs, places, whole, length⟩ := places_mantissa (digits_toDigits d.digits)
  refine ⟨_, ws, fs, ?_, places, by rw [whole, natOfDigits_toDigits], length⟩
  simp [Decimal.scientific, powerText, length]

/-! ## Whole texts -/

def Framed (t : List Char) : Prop :=
  (∃ c cs, t = c :: cs ∧ isDigit c = true) ∧ ∃ cs c, t = cs ++ [c] ∧ isDigit c = true

theorem Digits.framed (h : Digits cs) : Framed cs := by
  constructor
  · obtain ⟨c, cs, rfl⟩ := List.exists_cons_of_ne_nil h.1
    exact ⟨c, cs, rfl, h.2 c List.mem_cons_self⟩
  · obtain ⟨cs, c, rfl⟩ := (List.eq_nil_or_concat cs).resolve_left h.1
    exact ⟨cs, c, List.concat_eq_append, h.2 c (by simp)⟩

theorem Framed.append {u : List Char} (ht : Framed t) (hu : Framed u) (cs : List Char) :
    Framed (t ++ (cs ++ u)) := by
  obtain ⟨⟨c, more, rfl, first⟩, -⟩ := ht
  obtain ⟨-, before, d, rfl, last⟩ := hu
  exact ⟨⟨c, more ++ (cs ++ (before ++ [d])), rfl, first⟩,
    c :: more ++ (cs ++ before), d, by simp, last⟩

theorem Places.framed (h : Places t ws fs) : Framed t := by
  cases h with
  | whole digits => exact digits.framed
  | point whole fraction => exact whole.framed.append fraction.framed ['.']

theorem not_isBlank_of_isDigit (h : isDigit c = true) : Text.isBlank c = false := by
  rw [isDigit_iff] at h
  simp [Text.isBlank]
  omega

theorem trim_eq_self {c d : Char} (cs ds : List Char) (first : Text.isBlank c = false)
    (last : Text.isBlank d = false) (same : c :: cs = ds ++ [d]) :
    Text.trim (c :: cs) = c :: cs := by
  rw [Text.trim, List.dropWhile_cons_of_neg (by simp [first]), same, List.reverse_append,
    List.reverse_singleton, List.singleton_append, List.dropWhile_cons_of_neg (by simp [last])]
  simp

theorem toLower_of_isDigit (h : isDigit c = true) : c.toLower = c := by
  rw [isDigit_iff] at h
  refine dif_neg fun upper => ?_
  have : 65 ≤ c.toNat := upper.1
  omega

theorem Framed.word_ne (h : Framed t) {word : String}
    (letter : word.toList.head?.any isDigit = false) : String.ofList (lowerAscii t) ≠ word := by
  obtain ⟨⟨c, cs, rfl, digit⟩, -⟩ := h
  rintro rfl
  simp [lowerAscii, toLower_of_isDigit digit, digit] at letter

theorem Framed.readNumber?_eq (h : Framed t) (negative : Bool) :
    readNumber? ((if negative then ['-'] else []) ++ t) =
      (readPlaces? t).map (negate negative) := by
  have signed : takeSign ((if negative then ['-'] else []) ++ t) = (negative, t) := by
    cases negative with
    | true => rfl
    | false =>
      obtain ⟨⟨c, cs, rfl, digit⟩, -⟩ := h
      simp only [Bool.false_eq_true, if_false, List.nil_append]
      unfold takeSign
      split
      next same =>
        cases same
        cases digit
      next same =>
        cases same
        cases digit
      next => rfl
  simp only [readNumber?, signed]
  rw [if_neg (not_or.2 ⟨h.word_ne rfl, h.word_ne rfl⟩), if_neg (h.word_ne rfl)]

theorem Framed.ofText_eq {negative : Bool} {f : Float} {s : String} (h : Framed t)
    (text : s.toList = (if negative then ['-'] else []) ++ t) (read : readPlaces? t = some f) :
    ofText s = negate negative f := by
  have kept : Text.trim s.toList = s.toList := by
    rw [text]
    obtain ⟨⟨c, cs, first, digit⟩, before, d, last, digit'⟩ := h
    have blank := not_isBlank_of_isDigit digit'
    cases negative with
    | true => exact trim_eq_self t ('-' :: before) rfl blank (by rw [last]; rfl)
    | false =>
      rw [first] at last ⊢
      exact trim_eq_self cs before (not_isBlank_of_isDigit digit) blank last
  rw [ofText, kept, text, h.readNumber?_eq, read]
  rfl

/-! ## The text of a decimal -/

theorem positive_eq (size : Float) (d : Decimal) : Layout.script.positive size d =
    if size < 1e21 ∧ 1e-6 ≤ size then d.positional else d.scientific "+" := by
  have whole (s : String) : s ++ "" = s := String.append_empty
  simp [Layout.positive, Layout.script, whole]

/-- Either text reads as a decimal of the same size. -/
theorem positive_reads (size : Float) (d : Decimal) (pos : 0 < d.digits) (far : -400 ≤ d.exponent)
    (most : d.digits * 10 ^ d.exponent < (10 : ℚ) ^ (1024 : Int)) :
    ∃ n e, Framed (Layout.script.positive size d).toList ∧
      readPlaces? (Layout.script.positive size d).toList = some (ofDecimal n e) ∧
      (n : ℚ) * 10 ^ e = d.digits * 10 ^ d.exponent ∧ min d.exponent 0 ≤ e := by
  rw [positive_eq]
  split
  · obtain ⟨ws, fs, places, value, length⟩ := places_positional d
    refine ⟨_, _, places.framed, ?_, value, by omega⟩
    have read := places.readPlaces?_append stops_nil (by simp)
    rw [List.append_nil] at read
    rw [read]
    simp [readExponent?, ofPlaces_eq]
  · obtain ⟨t, ws, fs, text, places, value, length⟩ := places_scientific d
    refine ⟨d.digits, d.exponent, ?_, ?_, rfl, by omega⟩
    · obtain ⟨c, n, sign⟩ := toList_powerText (d.exponent + fs.length)
      rw [text, sign]
      exact places.framed.append (digits_toDigits n).framed ['e', c]
    · have small : (d.exponent + fs.length).natAbs < exponentLimit := by
        have first : (10 : ℚ) ^ (fs.length : Int) ≤ d.digits := by
          rw [length]
          exact_mod_cast ten_pow_le pos
        have : (10 : ℚ) ^ (d.exponent + fs.length) < 10 ^ (1024 : Int) := by
          refine lt_of_le_of_lt ?_ most
          rw [zpow_add₀ (by norm_num), mul_comm]
          gcongr
        have := (zpow_lt_zpow_iff_right₀ (by norm_num)).1 this
        unfold exponentLimit
        omega
      have stops : Stops isDigit ('e' :: (powerText (d.exponent + fs.length)).toList) := by
        intro c h
        cases h
        rfl
      rw [text, places.readPlaces?_append stops (by simp), readExponent?_powerText small,
        Option.map_some, ofPlaces_eq, value, Int.add_sub_cancel]

end TinyScript.Number

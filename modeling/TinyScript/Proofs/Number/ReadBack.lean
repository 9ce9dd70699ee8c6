/-
  TinyScript.Proofs.Number.ReadBack — numbers survive being written.

  A double other than zero is read back from its digits, whatever layout they have
  (`ofText_of_finite`), and the words for infinity are read as such. Zero is written without its
  sign, so what is read is equal to it all the same (`ofText_scriptText`). Where no exponent is
  written the text is a number of the source too (`tokenize_scriptText`).
-/

import TinyScript.Proofs.Number.Shortest
import TinyScript.Proofs.Number.Texts
import TinyScript.Proofs.Text.Splitting
import TinyScript.Proofs.Token.Names

namespace TinyScript

open Token (tokenize placeAfter)
open Number

namespace Number

attribute [local instance (high)] instPowNat

variable {x : Float} {m n : Nat} {q e : Int}

/-- The digits that are written for a double are read as its size. -/
theorem ofDecimal_shortest (parts : magnitude x = .finite m q) (pos : 0 < m)
    (same : (n : ℚ) * 10 ^ e = (shortest m q).digits * 10 ^ (shortest m q).exponent)
    (least : min (shortest m q).exponent 0 ≤ e) : negate (isNegative x) (ofDecimal n e) = x := by
  obtain ⟨bits, form⟩ := bits_of_finite parts
  obtain ⟨-, far, near⟩ := form.rounds_shortest pos
  rw [← same] at near
  have some : 0 < n := by
    apply Nat.pos_of_ne_zero
    rintro rfl
    rw [Nat.cast_zero, zero_mul] at near
    exact absurd near.ends.1 (not_le.2 (lowEnd_pos pos))
  rw [ofDecimal_eq form some (by omega) near, ← bits, negate_unsigned]

theorem ofText_of_finite (parts : magnitude x = .finite m q) (pos : 0 < m) :
    ofText (scriptText x) = x := by
  obtain ⟨some, far, near⟩ := (bits_of_finite parts).2.rounds_shortest pos
  have most : (shortest m q).digits * 10 ^ (shortest m q).exponent < (10 : ℚ) ^ (1024 : Int) := by
    refine lt_of_lt_of_le ((bits_of_finite parts).2.lt_of_rounds near) ?_
    rw [zpow_ofNat, zpow_ofNat]
    exact pow_le_pow_left₀ (by norm_num) (by norm_num) _
  obtain ⟨n, e, framed, read, same, least⟩ :=
    positive_reads (negate (isNegative x) x) (shortest m q) some far most
  have text : (scriptText x).toList = (if isNegative x then ['-'] else []) ++
      (Layout.script.positive (negate (isNegative x) x) (shortest m q)).toList := by
    simp only [scriptText, Layout.write, parts, if_neg (Nat.ne_of_gt pos), String.toList_append]
    split <;> rfl
  rw [framed.ofText_eq text read, ofDecimal_shortest parts pos same least]

/-- The text of a number reads as a number that is equal to it. -/
theorem ofText_scriptText (h : x.isNaN = false) : (ofText (scriptText x) == x) = true := by
  have special {n : Nat} (bits : x.toBits.toNat % 2 ^ 63 = n) (text : Bool → String)
      (written : scriptText x = text (isNegative x))
      (read : ∀ b, (ofText (text b) == negate b (Float.ofBits n.toUInt64)) = true) :
      (ofText (scriptText x) == x) = true := by
    have read := read (isNegative x)
    rwa [← written, ← bits, negate_unsigned] at read
  cases parts : magnitude x with
  | nan => simp [eq_nan parts] at h
  | infinite =>
    have bits : x.toBits.toNat % 2 ^ 63 = 2047 * 2 ^ 52 := by
      simpa only [parts] using bits_of_magnitude x
    refine special bits (fun b => if b then "-Infinity" else "Infinity") ?_ (by decide)
    simp only [scriptText, Layout.write, parts, Layout.script]
  | finite m q =>
    rcases Nat.eq_zero_or_pos m with rfl | pos
    · obtain ⟨bits, form⟩ := bits_of_finite parts
      have least : q = -1074 := form.full.resolve_right (by decide)
      rw [least] at bits
      refine special (n := 0) bits (fun b => if b then "0" else "0" ++ "") ?_ (by decide)
      simp only [scriptText, Layout.write, parts, Layout.script, if_true]
    · rw [ofText_of_finite parts pos, Float.beq_self_iff]
      simpa using h

/-- Between the bounds the text of a number is one token of the source. -/
theorem tokenize_scriptText (low : 1e-6 ≤ x) (high : x < 1e21) (file : String) :
    tokenize (scriptText x) file = .ok [⟨.number x, placeAfter file []⟩,
      ⟨.eof, placeAfter file (scriptText x).toList⟩] := by
  have positive : isNegative x = false := isNegative_eq_false (by decide +kernel) low
  have same := negate_unsigned x
  rw [positive] at same
  cases parts : magnitude x with
  | nan =>
    rw [eq_nan parts] at low
    exact absurd low (by decide +kernel)
  | infinite =>
    have bits : x.toBits.toNat % 2 ^ 63 = 2047 * 2 ^ 52 := by
      simpa only [parts] using bits_of_magnitude x
    rw [← same, bits] at high
    exact absurd high (by decide +kernel)
  | finite m q =>
    obtain ⟨bits, form⟩ := bits_of_finite parts
    rcases Nat.eq_zero_or_pos m with rfl | pos
    · rw [form.full.resolve_right (by decide)] at bits
      rw [← same, bits] at low
      exact absurd low (by decide +kernel)
    · have text : scriptText x = (shortest m q).positional := by
        simp only [scriptText, Layout.write, parts, if_neg (Nat.ne_of_gt pos), positive, negate]
        rw [if_neg Bool.false_ne_true, positive_eq, if_pos ⟨high, low⟩]
        exact String.empty_append
      obtain ⟨ws, fs, places, value, length⟩ := places_positional (shortest m q)
      have number := ofDecimal_shortest parts pos value (by omega)
      rw [positive, negate, if_neg Bool.false_ne_true] at number
      have denotes := places.denotes
      obtain ⟨⟨c, cs, first, digit⟩, -⟩ := places.framed
      rw [ofPlaces_eq, Int.zero_sub, number, ← text] at denotes
      refine denotes.tokenize (by simp) .nil ?_ .nil file
      rw [List.append_nil, text, first]
      exact Token.startsGap_cons (by simp [Token.isNameChar, digit])

end Number

/-- Writing a number and reading the text gives the number back: in a running script, where `str`
    and `number` are the built-in ones, and in the source, where the text is one token. -/
theorem number_text_reads_back (x : Float) :
    (x.isNaN = false → ∀ (m : Machine) (s : Store) (r : Ref) (p : Text.Position),
      s.lookup? m.scope "str" = some (.function r) → s.cell? r = some (.native .str) →
      s.lookup? m.scope "number" = some (.type (.builtin .number)) →
      ∃ y, m.Evaluates s (.call p (.name p "number") [.call p (.name p "str")
        [.literal p (.number x)]]) (.number y) s ∧ (y == x) = true) ∧
    (1e-6 ≤ x → x < 1e21 → ∀ file, tokenize (scriptText x) file =
      .ok [⟨.number x, placeAfter file []⟩, ⟨.eof, placeAfter file (scriptText x).toList⟩]) := by
  refine ⟨fun hx m s r p hstr hr hnumber => ⟨ofText (scriptText x), ?_, ofText_scriptText hx⟩,
    fun low high file => tokenize_scriptText low high file⟩
  have htext : m.Evaluates s (.call p (.name p "str") [.literal p (.number x)])
      (.string (scriptText x)) s := by
    refine .call (.name hstr) (.literal _) fun k stack hk => ?_
    rw [Machine.call_native hr rfl]
    have hlt : ∀ f : Frame, k < (f :: stack).length := fun _ => Nat.lt_succ_of_lt hk
    exact .head ⟨hlt _, rfl⟩ (.head ⟨hlt _, rfl⟩ .refl)
  exact .call (.name hnumber) htext fun k stack hk => .refl

def Interpreter.hasNumberNames (i : Interpreter) : Bool :=
  match i.store.lookup? Store.global "str", i.store.lookup? Store.global "number" with
  | some (.function r), some (.type (.builtin .number)) =>
    (i.store.cell? r matches some (.native .str))
  | _, _ => false

/-- In a new interpreter a half is written and read back, and its text is a number of the source. -/
theorem a_half_reads_back : ∃ (i : Interpreter) (y : Float),
    Interpreter.create [] 4 = .ok i ∧
    (i.ready [] (.give (.value .nil))).Evaluates i.store (.call default (.name default "number")
      [.call default (.name default "str") [.literal default (.number 0.5)]]) (.number y) i.store ∧
    (y == 0.5) = true ∧ tokenize "0.5" "a" =
      .ok [⟨.number 0.5, placeAfter "a" []⟩, ⟨.eof, placeAfter "a" "0.5".toList⟩] := by
  have hnames : ((Interpreter.create [] 4).toOption.any Interpreter.hasNumberNames) = true := by
    decide +kernel
  obtain ⟨i, hi, hnames⟩ := exists_ok_of_any hnames
  obtain ⟨hread, htoken⟩ := number_text_reads_back 0.5
  have htext : scriptText 0.5 = "0.5" := by decide +kernel
  rw [htext] at htoken
  unfold Interpreter.hasNumberNames at hnames
  split at hnames
  next r hstr hnumber =>
    have hcell : i.store.cell? r = some (.native .str) := by
      split at hnames
      · assumption
      · cases hnames
    obtain ⟨y, hy, he⟩ := hread (by decide +kernel) (i.ready [] (.give (.value .nil))) i.store r
      default hstr hcell hnumber
    exact ⟨i, y, hi, hy, he, htoken (by decide +kernel) (by decide +kernel) "a"⟩
  next => cases hnames

end TinyScript

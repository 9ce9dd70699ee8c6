/-
  TinyScript.Text.Search — looking for a text in time that grows only with the lengths.

  A window as long as the sought text moves over the searched one, and a fingerprint of what is in
  the window is kept up to date at each move. Letters are compared only where the fingerprints
  agree. Texts are split as by the plain definition (`splitText_eq`).
-/

import TinyScript.Text.Pieces

namespace TinyScript.Text

/-! ## Fingerprints -/

/-- How much more a character counts than the one behind it. -/
def placeWeight : UInt64 := 1000003

/-- How much the first of `n + 1` characters counts. -/
def leadWeight (n : Nat) : UInt64 := placeWeight ^ n

def charWeight (c : Char) : UInt64 := c.val.toUInt64

/-- The fingerprint of a text with `c` added behind it. -/
def pushPrint (h : UInt64) (c : Char) : UInt64 := h * placeWeight + charWeight c

/-- A number for a text. Texts that differ seldom have the same one. -/
def fingerprint (cs : List Char) : UInt64 := cs.foldl pushPrint 0

/-- The fingerprint of a window after `out` has left it and `next` has entered it. -/
def rollPrint (lead h : UInt64) (out next : Char) : UInt64 :=
  pushPrint (h - charWeight out * lead) next

theorem foldl_pushPrint (cs : List Char) (h : UInt64) :
    cs.foldl pushPrint h = h * leadWeight cs.length + fingerprint cs := by
  induction cs generalizing h with
  | nil => simp [fingerprint, leadWeight]
  | cons c cs ih =>
    have tail : fingerprint (c :: cs) = pushPrint 0 c * leadWeight cs.length + fingerprint cs :=
      ih _
    have lead : leadWeight (c :: cs).length = leadWeight cs.length * placeWeight := by
      simp [leadWeight, UInt64.pow_succ]
    rw [List.foldl_cons, ih, tail]
    grind [pushPrint]

theorem rollPrint_eq (c a : Char) (cs : List Char) :
    rollPrint (leadWeight cs.length) (fingerprint (c :: cs)) c a = fingerprint (cs ++ [a]) := by
  have first : fingerprint (c :: cs) = pushPrint 0 c * leadWeight cs.length + fingerprint cs :=
    foldl_pushPrint cs _
  have last : fingerprint (cs ++ [a]) = pushPrint (fingerprint cs) a := by
    simp [fingerprint]
  rw [rollPrint, first, last]
  grind [pushPrint]

/-- Whether `sep` starts at `cs`, where `h` is the fingerprint of as many characters of `cs`. -/
def startsAt (sep : List Char) (print h : UInt64) (cs : List Char) : Bool :=
  h == print && sep.isPrefixOf cs

theorem startsAt_eq (sep cs : List Char) :
    startsAt sep (fingerprint sep) (fingerprint (cs.take sep.length)) cs = sep.isPrefixOf cs := by
  cases starts : sep.isPrefixOf cs with
  | false => simp [startsAt, starts]
  | true =>
    have same : sep = cs.take sep.length :=
      List.prefix_iff_eq_take.1 (List.isPrefixOf_iff_prefix.1 starts)
    rw [startsAt, starts, ← same]
    simp

/-- The window after a move, and what is still ahead of it. -/
theorem window_move {c a : Char} {cs ahead : List Char} {n : Nat}
    (h : (c :: cs).drop (n + 1) = a :: ahead) :
    cs.take (n + 1) = cs.take n ++ [a] ∧ cs.drop (n + 1) = ahead ∧ (cs.take n).length = n := by
  have drop : cs.drop n = a :: ahead := h
  have long : n < cs.length := by
    have := congrArg List.length drop
    simp at this
    omega
  refine ⟨?_, ?_, ?_⟩
  · rw [List.take_add_one]
    simp [← List.head?_drop, drop]
  · rw [← List.tail_drop, drop, List.tail_cons]
  · simp
    omega

/-! ## Texts that are too short -/

theorem isPrefixOf_of_short {sep cs : List Char} (h : cs.length < sep.length) :
    sep.isPrefixOf cs = false := by
  rw [← Bool.not_eq_true, List.isPrefixOf_iff_prefix]
  intro starts
  have := starts.length_le
  omega

theorem piecesAfter_of_short {sep cs : List Char} (skip : Nat) (h : cs.length < sep.length) :
    piecesAfter sep skip cs = [cs.drop skip] := by
  induction cs generalizing skip with
  | nil => simp [piecesAfter]
  | cons c cs ih =>
    have shorter : cs.length < sep.length := Nat.lt_of_succ_lt h
    cases skip with
    | zero =>
      rw [piecesAfter, isPrefixOf_of_short h, ih 0 shorter]
      rfl
    | succ skip => rw [piecesAfter, ih skip shorter, List.drop_succ_cons]

/-! ## Searching -/

/-- Whether `sep` occurs in `cs`. The window is at its start, `h` is the fingerprint of what is in
    it, and `ahead` is what it has not reached. -/
def occursFrom (sep : List Char) (print lead : UInt64) : UInt64 → List Char → List Char → Bool
  | h, cs, [] => startsAt sep print h cs
  | h, c :: cs, a :: ahead =>
    startsAt sep print h (c :: cs) || occursFrom sep print lead (rollPrint lead h c a) cs ahead
  | _, [], _ :: _ => false

/-- The pieces of `cs` after `skip` characters that belong to the last occurrence. The window is at
    the start of `cs`, `h` is the fingerprint of what is in it, and `ahead` is what it has not
    reached. -/
def piecesFrom (sep : List Char) (print lead : UInt64) :
    Nat → UInt64 → List Char → List Char → List (List Char)
  | skip, h, cs, [] =>
    if skip = 0 && startsAt sep print h cs then [[], []] else [cs.drop skip]
  | skip + 1, h, c :: cs, a :: ahead =>
    piecesFrom sep print lead skip (rollPrint lead h c a) cs ahead
  | 0, h, c :: cs, a :: ahead =>
    if startsAt sep print h (c :: cs) then
      [] :: piecesFrom sep print lead (sep.length - 1) (rollPrint lead h c a) cs ahead
    else extendFirst c (piecesFrom sep print lead 0 (rollPrint lead h c a) cs ahead)
  | _, _, [], _ :: _ => [[]]

theorem piecesFrom_eq {sep cs ahead : List Char} {n : Nat} (skip : Nat) (size : sep.length = n + 1)
    (rest : cs.drop sep.length = ahead) (long : sep.length ≤ cs.length) :
    piecesFrom sep (fingerprint sep) (leadWeight n) skip (fingerprint (cs.take sep.length)) cs
      ahead = piecesAfter sep skip cs := by
  induction ahead generalizing cs skip with
  | nil =>
    cases cs with
    | nil => simp [size] at long
    | cons c cs =>
      have short : cs.length < sep.length := by
        have := congrArg List.length rest
        simp at this
        omega
      rw [piecesFrom, startsAt_eq]
      cases skip with
      | zero =>
        have none : cs.drop (sep.length - 1) = [] := by
          rw [List.drop_eq_nil_iff]
          omega
        rw [piecesAfter, piecesAfter_of_short _ short, piecesAfter_of_short _ short, none]
        simp [extendFirst]
      | succ skip => simp [piecesAfter, piecesAfter_of_short _ short]
  | cons a ahead ih =>
    cases cs with
    | nil => simp at rest
    | cons c cs =>
      rw [size] at rest
      obtain ⟨window, left, full⟩ := window_move rest
      have roll := rollPrint_eq c a (cs.take n)
      rw [full, ← window] at roll
      have reach : sep.length ≤ cs.length := by
        have := congrArg List.length window
        simp at this
        omega
      have next := fun skip => ih skip (by rw [size, left]) reach
      rw [size] at next
      cases skip with
      | zero =>
        rw [piecesFrom, startsAt_eq, size, List.take_succ_cons, roll, next, next, piecesAfter, size]
      | succ skip => rw [piecesFrom, size, List.take_succ_cons, roll, next, piecesAfter]

/-- The pieces of a text between occurrences of `sep`. -/
def splitText (sep s : String) : List String :=
  let sought := sep.toList
  let cs := s.toList
  let found :=
    if sought.isEmpty then cs.map ([·])
    else if cs.length < sought.length then [cs]
    else piecesFrom sought (fingerprint sought) (leadWeight (sought.length - 1)) 0
      (fingerprint (cs.take sought.length)) cs (cs.drop sought.length)
  found.map String.ofList

/-- Whether `needle` occurs in a text. -/
def containsText (s needle : String) : Bool :=
  let sought := needle.toList
  let cs := s.toList
  if sought.isEmpty then true
  else if cs.length < sought.length then false
  else occursFrom sought (fingerprint sought) (leadWeight (sought.length - 1))
    (fingerprint (cs.take sought.length)) cs (cs.drop sought.length)

theorem splitText_eq (sep s : String) :
    splitText sep s = (pieces sep.toList s.toList).map String.ofList := by
  rw [splitText, pieces]
  split
  · rfl
  · next some =>
    have size : sep.toList.length = (sep.toList.length - 1) + 1 := by
      cases sought : sep.toList with
      | nil => simp [sought] at some
      | cons => simp
    split
    · next short => rw [piecesAfter_of_short 0 short, List.drop_zero]
    · next long => rw [piecesFrom_eq 0 size rfl (Nat.le_of_not_lt long)]

end TinyScript.Text

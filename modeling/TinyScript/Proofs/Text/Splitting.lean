/-
  TinyScript.Proofs.Text.Splitting — splitting a text and joining its pieces.

  A text is searched for the separator from the left, and on behind each occurrence
  (`Occurrences`). The pieces stand between the occurrences, so none of them has one and there is
  one piece more (`Occurrences.pieces`), and joined they are the text. The methods of the script
  cut and join in this way (`split_pieces_join`).
-/

import TinyScript.Proofs.Termination.Endless
import TinyScript.Text.Search

namespace TinyScript

open TinyScript.Text

namespace Text

variable {sep cs before after : List Char} {n : Nat}

/-! ## Occurrences -/

/-- The text has so many occurrences of `sep`, when it is searched from the left and on behind each
    occurrence. Before an occurrence that is found no other one starts. -/
inductive Occurrences (sep : List Char) : Nat → List Char → Prop
  | none {cs : List Char} : ¬ sep <:+: cs → Occurrences sep 0 cs
  | next {before after : List Char} {n : Nat} : ¬ sep <:+: before ++ sep.dropLast →
    Occurrences sep n after → Occurrences sep (n + 1) (before ++ (sep ++ after))

theorem exists_leftmost (h : sep <:+: cs) (hne : sep ≠ []) :
    ∃ before after, cs = before ++ (sep ++ after) ∧ ¬ sep <:+: before ++ sep.dropLast := by
  induction cs with
  | nil => exact absurd (List.infix_nil.1 h) hne
  | cons c cs ih =>
    by_cases hp : sep <+: c :: cs
    · obtain ⟨after, hafter⟩ := hp
      refine ⟨[], after, hafter.symm, fun hin => ?_⟩
      have hlen := hin.length_le
      have := List.length_pos_iff.2 hne
      rw [List.nil_append, List.length_dropLast] at hlen
      omega
    · obtain ⟨before, after, rfl, hno⟩ := ih ((List.infix_cons_iff.1 h).resolve_left hp)
      refine ⟨c :: before, after, rfl, fun hin => ?_⟩
      rcases List.infix_cons_iff.1 hin with hp' | hin
      · have hlast : sep.dropLast <+: sep ++ after :=
          sep.dropLast_prefix.trans (List.prefix_append _ _)
        exact hp (hp'.trans (by simpa using hlast))
      · exact hno hin

theorem exists_occurrences (hne : sep ≠ []) (cs : List Char) : ∃ n, Occurrences sep n cs := by
  induction hk : cs.length using Nat.strongRecOn generalizing cs with
  | _ k ih =>
    by_cases hin : sep <:+: cs
    · obtain ⟨before, after, rfl, hno⟩ := exists_leftmost hin hne
      have := List.length_pos_iff.2 hne
      obtain ⟨n, hn⟩ := ih after.length (by simp at hk; omega) after rfl
      exact ⟨n + 1, .next hno hn⟩
    · exact ⟨0, .none hin⟩

/-! ## Pieces between them -/

theorem piecesAfter_eq_drop (sep : List Char) (k : Nat) (cs : List Char) :
    piecesAfter sep k cs = piecesAfter sep 0 (cs.drop k) := by
  induction cs generalizing k with
  | nil => simp [piecesAfter]
  | cons c cs ih =>
    cases k with
    | zero => rfl
    | succ k => rw [piecesAfter, ih, List.drop_succ_cons]

theorem piecesAfter_none (h : ¬ sep <:+: cs) : piecesAfter sep 0 cs = [cs] := by
  induction cs with
  | nil => rfl
  | cons c cs ih =>
    rw [List.infix_cons_iff, not_or] at h
    rw [piecesAfter, if_neg (by simpa using h.1), ih h.2]
    rfl

theorem piecesAfter_next (hne : sep ≠ []) (h : ¬ sep <:+: before ++ sep.dropLast) :
    piecesAfter sep 0 (before ++ (sep ++ after)) = before :: piecesAfter sep 0 after := by
  induction before with
  | nil =>
    obtain ⟨c, cs, rfl⟩ := List.exists_cons_of_ne_nil hne
    have hp : (c :: cs).isPrefixOf (c :: (cs ++ after)) = true := by simp
    rw [List.nil_append, List.cons_append, piecesAfter, if_pos hp, piecesAfter_eq_drop]
    simp
  | cons b before ih =>
    rw [List.cons_append, List.infix_cons_iff, not_or] at h
    have hp : ¬ sep <+: b :: (before ++ (sep ++ after)) := by
      intro hp
      refine h.1 (List.prefix_of_prefix_length_le hp ?_ ?_)
      · have hlast : sep.dropLast <+: sep ++ after :=
          sep.dropLast_prefix.trans (List.prefix_append _ _)
        simpa using hlast
      · simp
        omega
    rw [List.cons_append, piecesAfter, if_neg (by simpa using hp), ih h.2]
    rfl

/-- The pieces are what stands between the occurrences. -/
theorem Occurrences.pieces (h : Occurrences sep n cs) (hne : sep ≠ []) :
    (piecesAfter sep 0 cs).length = n + 1 ∧ sep.intercalate (piecesAfter sep 0 cs) = cs ∧
      ∀ p ∈ piecesAfter sep 0 cs, ¬ sep <:+: p := by
  induction h with
  | none hno =>
    rw [piecesAfter_none hno]
    simp [hno]
  | @next before after n hno _ ih =>
    obtain ⟨hlength, hjoin, hfree⟩ := ih
    rw [piecesAfter_next hne hno]
    refine ⟨by simp [hlength], ?_, ?_⟩
    · obtain ⟨p, ps, hps⟩ := List.exists_cons_of_length_eq_add_one hlength
      rw [hps] at hjoin ⊢
      rw [← hjoin]
      simp [List.intercalate]
    · rw [List.forall_mem_cons]
      exact ⟨fun hin => hno (hin.trans (List.prefix_append _ _).isInfix), hfree⟩

theorem intercalate_pieces (sep cs : List Char) : sep.intercalate (pieces sep cs) = cs := by
  rw [pieces]
  split
  next hempty =>
    rw [List.isEmpty_iff.1 hempty]
    induction cs with
    | nil => rfl
    | cons c cs ih => cases cs <;> simp_all [List.intercalate]
  next hne =>
    have hne : sep ≠ [] := by simpa using hne
    obtain ⟨n, hn⟩ := exists_occurrences hne cs
    exact (hn.pieces hne).2.1

end Text

/-! ## The methods -/

namespace Machine

variable {m : Machine} {s t t' : Store} {r : Ref} {f u v : Value} {callee arg owner : Expr}
  {pos pos' : Position} {label sep text : String}

theorem Evaluates.call {t'' : Store} (hf : m.Evaluates s callee f t) (ha : m.Evaluates t arg u t')
    (hc : ∀ k stack, k < stack.length → ((m.put t' stack (.give (.value u))).call f [u] pos).Runs k
      (m.put t'' stack (.give (.value v)))) :
    m.Evaluates s (.call pos callee [arg]) v t'' := by
  intro k stack hk
  have hlt : k < (Frame.value (.callee pos [arg]) :: stack).length := Nat.lt_succ_of_lt hk
  have hlt' : k < (Frame.value (.argument pos f [] []) :: stack).length := Nat.lt_succ_of_lt hk
  exact .head ⟨hk, rfl⟩ ((hf k _ hlt).trans (.head ⟨hlt, rfl⟩
    ((ha k _ hlt').trans (.head ⟨hlt', rfl⟩ (hc k stack hk)))))

/-- Strings are written as they are. -/
theorem runs_join (sep : String) (held : List Value) {k : Nat} {stack : List Frame}
    (hk : k < stack.length) (c : Control) (done parts : List String) :
    ((m.put s stack c).renderTexts (.join sep) held done pos (parts.map .string)).Runs k
      (m.put s stack (.give (.value (.string (sep.intercalate (done.reverse ++ parts)))))) := by
  induction parts generalizing done c with
  | nil =>
    rw [List.append_nil]
    exact .refl
  | cons p parts ih =>
    have hlt : ∀ f : Frame, k < (f :: stack).length := fun _ => Nat.lt_succ_of_lt hk
    have hrest := ih (.give (.text p)) (p :: done)
    rw [List.reverse_cons, List.append_assoc, List.singleton_append] at hrest
    exact .head ⟨hlt _, rfl⟩ (.head ⟨hlt _, rfl⟩ hrest)

theorem call_native {n : Native} {stack : List Frame} {c : Control}
    (hr : s.cell? r = some (.native n)) (harity : n.arity? = some 1) :
    (m.put s stack c).call (.function r) [v] pos =
      (m.put s stack c).runNative n (.function r) [v] pos := by
  have hcell : (m.put s stack c).store.cell? r = some (.native n) := hr
  simp only [Machine.call, hcell, callNative, harity]
  rfl

/-- Splitting a string gives an array of its pieces, in a store where they can be joined. -/
theorem evaluates_split (hs : m.Evaluates s owner (.string text) t)
    (ha : ∀ t, m.Evaluates t arg (.string sep) t) :
    ∃ r t', m.Evaluates s (.call pos (.member pos' owner "split") [arg]) (.array r) t' ∧
      t'.cell? r = some (.array ((Text.splitText sep text).map Value.string).toArray) ∧
        r ≠ t'.next := by
  let t₁ := (t.newNative (.method .split (.string text))).2
  let t₂ := (t₁.newArray ((Text.splitText sep text).map Value.string).toArray).2
  refine ⟨t₁.next, t₂, .call (hs.member rfl) (ha t₁) fun k stack hk => ?_, ?_, ?_⟩
  · have hmade : t₁.cell? t.next = some (.native (.method .split (.string text))) :=
      (Store.cell?_alloc _ _ _).trans (if_pos rfl)
    rw [call_native hmade rfl]
    exact .refl
  · exact (Store.cell?_alloc _ _ _).trans (if_pos rfl)
  · exact Nat.ne_of_lt (Nat.lt_succ_self _)

/-- Joining an array of strings gives them with the separator between them. -/
theorem evaluates_join {parts : List String} (hs : m.Evaluates s owner (.array r) t)
    (hr : t.cell? r = some (.array (parts.map Value.string).toArray)) (hne : r ≠ t.next)
    (ha : ∀ t, m.Evaluates t arg (.string sep) t) :
    ∃ t', m.Evaluates s (.call pos (.member pos' owner "join") [arg])
      (.string (sep.intercalate parts)) t' := by
  let t₁ := (t.newNative (.method .join (.array r))).2
  refine ⟨t₁, .call (hs.member rfl) (ha t₁) fun k stack hk => ?_⟩
  have hcell : t₁.cell? r = some (.array (parts.map Value.string).toArray) := by
    rw [← hr]
    exact (Store.cell?_alloc _ _ _).trans (if_neg hne)
  have hitems : (t₁.items r).toList = parts.map Value.string := by simp [Store.items, hcell]
  have hmade : t₁.cell? t.next = some (.native (.method .join (.array r))) :=
    (Store.cell?_alloc _ _ _).trans (if_pos rfl)
  rw [call_native hmade rfl]
  show ((m.put t₁ stack (.give (.value (.string sep)))).renderTexts (.join sep) _ [] pos
    (t₁.items r).toList).Runs k _
  rw [hitems]
  exact runs_join sep _ hk _ [] parts

end Machine

/-- Splitting a string and joining the pieces gives the string back. The pieces are what stands
    between the occurrences of the separator. -/
theorem split_pieces_join (m : Machine) (s : Store) (text sep : String) (p : Position) :
    let quoted := fun text => Expr.literal p (.string text)
    let splitting := Expr.call p (.member p (quoted text) "split") [quoted sep]
    (∃ t, m.Evaluates s (.call p (.member p splitting "join") [quoted sep]) (.string text) t) ∧
      ∃ (parts : List String) (r : Ref) (t : Store), m.Evaluates s splitting (.array r) t ∧
        t.items r = (parts.map Value.string).toArray ∧
        (sep ≠ "" → (∀ part ∈ parts, ¬ sep.toList <:+: part.toList) ∧
          ∀ n, Occurrences sep.toList n text.toList ↔ parts.length = n + 1) := by
  intro quoted splitting
  have hsplit : ∃ r t, m.Evaluates s splitting (.array r) t ∧
      t.cell? r = some (.array ((Text.splitText sep text).map Value.string).toArray) ∧ r ≠ t.next :=
    Machine.evaluates_split (.literal _) fun _ => .literal _
  obtain ⟨r, t, hsplit, hr, hne⟩ := hsplit
  have hpieces : (Text.splitText sep text).map String.toList = pieces sep.toList text.toList := by
    simp [splitText_eq, List.map_map, Function.comp_def]
  refine ⟨?_, Text.splitText sep text, r, t, hsplit, by simp [Store.items, hr], fun hsep => ?_⟩
  · have hjoin : ∃ t, m.Evaluates s (.call p (.member p splitting "join") [quoted sep])
        (.string (sep.intercalate (Text.splitText sep text))) t :=
      Machine.evaluates_join hsplit hr hne fun _ => .literal _
    have hwhole : sep.intercalate (Text.splitText sep text) = text := by
      rw [← String.toList_inj, String.toList_intercalate, hpieces, intercalate_pieces]
    rwa [hwhole] at hjoin
  · have hne : sep.toList ≠ [] := by simpa using hsep
    have hcut : pieces sep.toList text.toList = piecesAfter sep.toList 0 text.toList := by
      simp [pieces, hne]
    rw [hcut] at hpieces
    have hlength : (Text.splitText sep text).length =
        (piecesAfter sep.toList 0 text.toList).length := by
      rw [← hpieces, List.length_map]
    obtain ⟨n, hn⟩ := exists_occurrences hne text.toList
    refine ⟨fun part hpart => (hn.pieces hne).2.2 _ (hpieces ▸ List.mem_map_of_mem hpart),
      fun k => ?_⟩
    rw [hlength]
    refine ⟨fun hk => (hk.pieces hne).1, fun hk => ?_⟩
    rwa [Nat.succ_injective (hk.symm.trans (hn.pieces hne).1)]

end TinyScript

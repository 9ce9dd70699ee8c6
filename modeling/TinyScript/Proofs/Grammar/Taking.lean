/-
  TinyScript.Proofs.Grammar.Taking — tokens that a rule takes.

  A rule that succeeds takes tokens from the front of its list, at least one and never the end of
  the file (`Takes`), and they derive the tree that it returns (`Reads`). Here are the rules that
  open no level: single tokens, types, parameters and lists.
-/

import TinyScript.Grammar.Statement
import TinyScript.Proofs.Grammar.Derivation

namespace TinyScript.Grammar

open TinyScript.Text TinyScript.Derivation

variable {α β ε : Type} {ts mid rest after : List Token} {c : Context} {w : Bool}

theorem bind_eq_ok {x : Except ε α} {f : α → Except ε β} {b : β} :
    (x >>= f) = .ok b ↔ ∃ a, x = .ok a ∧ f a = .ok b := by
  cases x with
  | error e => exact ⟨nofun, fun ⟨_, h, _⟩ => nomatch h⟩
  | ok a => exact ⟨fun h => ⟨a, rfl, h⟩, fun ⟨_, ha, h⟩ => Except.ok.inj ha ▸ h⟩

theorem map_eq_ok {x : Except ε α} {f : α → β} {b : β} :
    f <$> x = .ok b ↔ ∃ a, x = .ok a ∧ f a = b := by
  cases x with
  | error e => exact ⟨nofun, fun ⟨_, h, _⟩ => nomatch h⟩
  | ok a => exact ⟨fun h => ⟨a, rfl, Except.ok.inj h⟩, fun ⟨_, ha, h⟩ => by cases ha; exact h ▸ rfl⟩

/-! ## Tokens that are taken -/

inductive Takes : List Token → List Token → Prop
  | one {k : Token.Kind} {p : Position} {rest : List Token} : k ≠ .eof → Takes (⟨k, p⟩ :: rest) rest
  | cons {k : Token.Kind} {p : Position} {ts rest : List Token} : k ≠ .eof → Takes ts rest →
    Takes (⟨k, p⟩ :: ts) rest

namespace Takes

theorem trans (h : Takes ts mid) (k : Takes mid rest) : Takes ts rest := by
  induction h with
  | one hk => exact .cons hk k
  | cons hk _ ih => exact .cons hk (ih k)

theorem length_lt (h : Takes ts rest) : rest.length < ts.length := by
  induction h with
  | one => exact Nat.lt_succ_self _
  | cons _ _ ih => exact Nat.lt_succ_of_lt ih

theorem exists_append (h : Takes ts rest) :
    ∃ used, ts = used ++ rest ∧ used ≠ [] ∧ ∀ t ∈ used, t.kind ≠ .eof := by
  induction h with
  | @one k p rest hk => exact ⟨[⟨k, p⟩], rfl, by simp, by simpa using hk⟩
  | @cons k p _ _ hk _ ih =>
    obtain ⟨used, rfl, _, hused⟩ := ih
    exact ⟨⟨k, p⟩ :: used, rfl, by simp, by simpa using ⟨hk, hused⟩⟩

end Takes

def MayTake (ts rest : List Token) : Prop := ts = rest ∨ Takes ts rest

theorem Takes.trans_may (h : Takes ts mid) (k : MayTake mid rest) : Takes ts rest := by
  rcases k with rfl | k
  · exact h
  · exact h.trans k

theorem MayTake.trans_takes (h : MayTake ts mid) (k : Takes mid rest) : Takes ts rest := by
  rcases h with rfl | h
  · exact k
  · exact h.trans k

theorem MayTake.trans (h : MayTake ts mid) (k : MayTake mid rest) : MayTake ts rest := by
  rcases h with rfl | h
  · exact k
  · exact .inr (h.trans_may k)

def Reads (rule : List Token → List Token → α → Prop) (ts rest : List Token) (a : α) : Prop :=
  Takes ts rest ∧ rule ts rest a

def IsSound (rule : List Token → List Token → α → Prop) (parse : Parse α) : Prop :=
  ∀ {c : Context} {ts rest : List Token} {a : α}, parse c ts = .ok (a, rest) → Reads rule ts rest a

/-! ## Single tokens -/

theorem isKind_eq {a b : Token.Kind} (h : isKind a b = true) : b = a := by
  cases a <;> cases b <;> simp_all [isKind]

theorem startsWith_eq_true {k : Token.Kind} (h : startsWith k ts = true) :
    ∃ p, ts = ⟨k, p⟩ :: ts.tail := by
  cases ts with
  | nil => cases h
  | cons t rest =>
    obtain ⟨kind, p⟩ := t
    cases isKind_eq h
    exact ⟨p, rfl⟩

theorem consume_eq_ok {k : Token.Kind} (h : consume k c ts = .ok rest) :
    ∃ p, ts = ⟨k, p⟩ :: rest := by
  unfold consume at h
  split at h
  next hk =>
    cases h
    exact startsWith_eq_true hk
  next => cases h

theorem readName_eq_ok {s : String} (h : readName c ts = .ok (s, rest)) :
    ∃ p, ts = ⟨.name s, p⟩ :: rest := by
  unfold readName at h
  split at h
  next p _ =>
    cases h
    exact ⟨p, rfl⟩
  next => cases h

theorem readName?_sound (ts : List Token) :
    MayTake ts (readName? ts).2 ∧ OptionalName ts (readName? ts).2 (readName? ts).1 := by
  unfold readName?
  split
  · exact ⟨.inr (.one nofun), .some⟩
  · exact ⟨.inl rfl, .none⟩

/-- What may have a semicolon before it may have many. -/
theorem of_skipSemicolons {P : List Token → Prop}
    (hcons : ∀ {p ts}, P ts → P (⟨.mark .semicolon, p⟩ :: ts)) (h : P (skipSemicolons ts)) :
    P ts := by
  induction ts with
  | nil => exact h
  | cons t ts ih =>
    obtain ⟨kind, p⟩ := t
    rw [skipSemicolons, List.dropWhile_cons] at h
    split at h
    next hk =>
      cases isKind_eq hk
      exact hcons (ih h)
    next => exact h

theorem statements_skipSemicolons {place : Place} {ss : List Stmt}
    (h : Statements w place (skipSemicolons ts) rest ss) : Statements w place ts rest ss :=
  of_skipSemicolons (P := (Statements w place · rest ss)) (fun h => .semicolon h) h

theorem members_skipSemicolons {properties : List Param} {methods : List FunctionDecl}
    (h : Members w (skipSemicolons ts) rest properties methods) :
    Members w ts rest properties methods :=
  of_skipSemicolons (P := (Members w · rest properties methods)) (fun h => .semicolon h) h

theorem mayTake_skipSemicolons (ts : List Token) : MayTake ts (skipSemicolons ts) := by
  apply of_skipSemicolons (P := (MayTake · (skipSemicolons ts)))
  · exact fun h => .inr (Takes.trans_may (.one nofun) h)
  · exact .inl rfl

theorem startsNamespace_iff {s : String} {p : Position} :
    startsNamespace (⟨.name s, p⟩ :: ts) = true ↔ s = "namespace" ∧ BodyFollows ts := by
  simp only [startsNamespace, Bool.and_eq_true, Bool.or_eq_true, decide_eq_true_eq]
  refine and_congr_right fun _ => ⟨?_, ?_⟩
  · rintro (h | ⟨hn, h⟩)
    · obtain ⟨q, hq⟩ := startsWith_eq_true h
      rw [hq]
      exact .brace
    · unfold startsWithName at hn
      split at hn
      next q rest =>
        obtain ⟨r, hr⟩ := startsWith_eq_true h
        rw [List.tail_cons] at hr
        rw [hr]
        exact .name
      next => cases hn
  · intro h
    cases h with
    | brace => exact .inl rfl
    | name => exact .inr ⟨rfl, rfl⟩

/-! ## Types and lists -/

theorem readTypeNames_sound {names : List String}
    (h : readTypeNames c ts = .ok (names, rest)) : Reads TypeNames ts rest names := by
  fun_induction readTypeNames c ts generalizing names rest with
  | case1 s p q more ih =>
    obtain ⟨⟨found, left⟩, hf, h⟩ := bind_eq_ok.1 h
    cases h
    exact ⟨.cons nofun (.cons nofun (ih hf).1), .more .name (ih hf).2⟩
  | case2 p q more ih =>
    obtain ⟨⟨found, left⟩, hf, h⟩ := bind_eq_ok.1 h
    cases h
    exact ⟨.cons nofun (.cons nofun (ih hf).1), .more .nil (ih hf).2⟩
  | case3 s p more =>
    cases h
    exact ⟨.one nofun, .one .name⟩
  | case4 p more =>
    cases h
    exact ⟨.one nofun, .one .nil⟩
  | case5 => cases h

theorem typing?_sound {o : Option Typing} (h : typing? c ts = .ok (o, rest)) :
    MayTake ts rest ∧ OptionalTyping ts rest o := by
  unfold typing? at h
  split at h
  next hs =>
    obtain ⟨p, hp⟩ := startsWith_eq_true hs
    obtain ⟨⟨t, left⟩, ht, h⟩ := bind_eq_ok.1 h
    cases h
    unfold typing at ht
    generalize ts.tail = more at hp ht
    cases more with
    | nil => cases ht
    | cons first more =>
      obtain ⟨⟨names, left⟩, hn, ht⟩ := bind_eq_ok.1 ht
      cases ht
      have hread := readTypeNames_sound hn
      rw [hp]
      exact ⟨.inr (.cons nofun hread.1), .some hread.2⟩
  next =>
    cases h
    exact ⟨.inl rfl, .none⟩

theorem param_sound : IsSound Parameter param := by
  intro c ts rest x h
  unfold param at h
  split at h
  next => cases h
  next t more =>
    obtain ⟨⟨s, left⟩, hs, h⟩ := bind_eq_ok.1 h
    obtain ⟨p, hp⟩ := readName_eq_ok hs
    obtain ⟨⟨o, left'⟩, ho, h⟩ := bind_eq_ok.1 h
    cases h
    cases hp
    have hread := typing?_sound ho
    exact ⟨Takes.trans_may (.one nofun) hread.1, .mk hread.2⟩

theorem items_sound {rule : List Token → List Token → α → Prop} {item : Parse α} {close : Mark}
    {turns : List Token} {as : List α} (hitem : IsSound rule item)
    (h : items close item c turns ts = .ok (as, rest)) :
    Reads (Items rule · · · close) ts rest as := by
  fun_induction items close item c turns ts generalizing as with
  | case1 turns ts hs =>
    obtain ⟨p, hp⟩ := startsWith_eq_true hs
    cases h
    rw [hp]
    exact ⟨.one nofun, .nil⟩
  | case2 turns ts _ ih =>
    obtain ⟨⟨a, left⟩, ha, h⟩ := bind_eq_ok.1 h
    have hread := hitem ha
    dsimp only at h
    split at h
    next hs =>
      obtain ⟨p, hp⟩ := startsWith_eq_true hs
      cases turns with
      | nil => cases h
      | cons turn turns =>
        obtain ⟨⟨found, left'⟩, hf, h⟩ := bind_eq_ok.1 h
        cases h
        have hmore := ih left hf
        rw [hp] at hread
        exact ⟨hread.1.trans (.cons nofun hmore.1), .more hread.2 hmore.2⟩
    next =>
      split at h
      next hs =>
        obtain ⟨p, hp⟩ := startsWith_eq_true hs
        cases h
        rw [hp] at hread
        exact ⟨hread.1.trans (.one nofun), .last hread.2⟩
      next => cases h

theorem list_sound {rule : List Token → List Token → α → Prop} {item : Parse α} {close : Mark}
    (hitem : IsSound rule item) : IsSound (Items rule · · · close) (list close item) :=
  fun h => items_sound hitem h

/-! ## Where statements stand -/

def Context.place (c : Context) : Place := ⟨c.atTopLevel, c.inFunction, c.inLoop⟩

theorem Context.place_within (c : Context) (r : Rule) : (c.within r).place = c.place := rfl

theorem Context.place_block (c : Context) : (c.enter .block).place = c.place.branch := by
  simp [place, enter, atTopLevel, inFunction, inLoop, Place.branch]

theorem Context.place_loop (c : Context) : (c.enter .loop).place = c.place.loop := by
  simp [place, enter, atTopLevel, inFunction, inLoop, Place.loop]

theorem Context.place_function (c : Context) : (c.enter .function).place = .function := by
  simp [place, enter, atTopLevel, inFunction, inLoop, Place.function]

theorem Context.place_space (c : Context) : (c.enter .namespaceDef).place = .space := by
  simp [place, enter, atTopLevel, inFunction, inLoop, Place.space]

end TinyScript.Grammar

/-
  TinyScript.Proofs.Grammar.Locality — how far a rule looks ahead.

  What a rule makes of its tokens is settled by those that it takes and the two after them, and
  where it fails by the three tokens from its error on (`Steady`). Rules are put together from
  others in a few ways, each of which keeps that. A syntax error therefore stands whatever comes
  further on (`program_error_is_local`).

  The bounds on repeating rules depend on all the tokens that are left, so the loops are steady for
  every bound that is no shorter than the list.
-/

import TinyScript.Proofs.Grammar.Soundness

namespace TinyScript.Grammar

open TinyScript.Text TinyScript.Derivation

variable {α β γ δ : Type} {ts rest : List Token} {c : Context} {mk : α → List Token → γ}
  {mk' : β → List Token → δ} {turns : List Token → List Token} {pos : Position} {exported : Bool}
  {name : Option String}

/-- A rule takes tokens and looks no further than the next two, or the three from its error on. What
    it comes to is `mk` of what it read and of the tokens left. -/
inductive Steady (mk : α → List Token → γ) (f : List Token → Except SyntaxError γ) :
    List Token → Prop
  | ok (used : List Token) {rest : List Token} (a : α) :
    (∀ more, more.take 2 = rest.take 2 → f (used ++ more) = .ok (mk a more)) →
    Steady mk f (used ++ rest)
  | error (used : List Token) {rest : List Token} (c : Context) (cause : Cause) :
    (∀ more, more.take 3 = rest.take 3 → f (used ++ more) = .error (c.error cause more)) →
    Steady mk f (used ++ rest)

def Near (b : List Token → Bool) : Prop := ∀ ts us, us.take 2 = ts.take 2 → b us = b ts

theorem take_append_congr {used more : List Token} {m n : Nat} (h : more.take m = rest.take m)
    (hn : n ≤ used.length + m) : (used ++ more).take n = (used ++ rest).take n := by
  have htake (l : List Token) : l.take (n - used.length) = (l.take m).take (n - used.length) := by
    rw [List.take_take, Nat.min_eq_left (by omega)]
  rw [List.take_append, List.take_append, htake more, h, ← htake rest]

theorem eq_of_head {b : List Token → Bool} (h : ∀ t us vs, b (t :: us) = b (t :: vs))
    {us : List Token} {n : Nat} (hus : us.take (n + 1) = ts.take (n + 1)) : b us = b ts := by
  cases ts with
  | nil => simp_all
  | cons t ts =>
    cases us with
    | nil => cases hus
    | cons u us =>
      cases (List.cons.inj hus).1
      exact h t us ts

theorem near_of_head {b : List Token → Bool} (h : ∀ t us vs, b (t :: us) = b (t :: vs)) : Near b :=
  fun _ _ hus => eq_of_head h hus

theorem near_tail {b : List Token → Bool} (h : ∀ t us vs, b (t :: us) = b (t :: vs)) :
    Near fun ts => b ts.tail := by
  intro ts us hus
  have htail : us.tail.take 1 = ts.tail.take 1 := by
    simpa only [List.drop_take, List.drop_one] using congrArg (List.drop 1) hus
  exact eq_of_head h htail

theorem near_startsWith (k : Token.Kind) : Near (startsWith k) := near_of_head fun _ _ _ => rfl

theorem near_startsWithMark (m : Mark) : Near (startsWithMark m) := near_startsWith _

theorem near_isEmpty : Near List.isEmpty := near_of_head fun _ _ _ => rfl

theorem near_startsWithName : Near startsWithName := by
  refine near_of_head fun t us vs => ?_
  unfold startsWithName
  split <;> simp_all

theorem Near.or {a b : List Token → Bool} (ha : Near a) (hb : Near b) :
    Near fun ts => a ts || b ts := by
  intro ts us h
  show (a us || b us) = (a ts || b ts)
  rw [ha ts us h, hb ts us h]

theorem Near.and {a b : List Token → Bool} (ha : Near a) (hb : Near b) :
    Near fun ts => a ts && b ts := by
  intro ts us h
  show (a us && b us) = (a ts && b ts)
  rw [ha ts us h, hb ts us h]

theorem near_const (b : Bool) : Near fun _ => b := fun _ _ _ => rfl

/-- The word `namespace` and the two tokens after it tell whether a namespace starts. -/
theorem near_startsNamespace (s : String) (p : Position) :
    Near fun ts => startsNamespace (⟨.name s, p⟩ :: ts) := by
  have hbrace : Near fun ts => startsWithMark .leftBrace ts.tail := near_tail fun _ _ _ => rfl
  exact (near_const _).and ((near_startsWithMark _).or (near_startsWithName.and hbrace))

/-! ## Steps -/

namespace Steady

variable {f g : List Token → Except SyntaxError γ}

theorem pure (a : α) : Steady mk (fun u => .ok (mk a u)) ts := .ok [] a fun _ _ => rfl

theorem fail (c : Context) (cause : Cause) : Steady mk (fun u => .error (c.error cause u)) ts :=
  .error [] c cause fun _ _ => rfl

theorem congr (h : Steady mk f ts) (hg : ∀ u, u.take 2 = ts.take 2 → g u = f u) :
    Steady mk g ts := by
  cases h with
  | ok used a hf =>
    refine .ok used a fun more hmore => ?_
    rw [hg _ (take_append_congr hmore (by omega)), hf more hmore]
  | error used c cause hf =>
    refine .error used c cause fun more hmore => ?_
    rw [hg _ (take_append_congr hmore (by omega)), hf more hmore]

/-- Three tokens count where a token is taken, and at an error. -/
theorem congr_three (h : Steady mk f ts)
    (htakes : ∀ a rest, f ts = .ok (mk a rest) → rest.length < ts.length)
    (hg : ∀ u, u.take 3 = ts.take 3 → g u = f u) : Steady mk g ts := by
  cases h with
  | @ok used rest a hf =>
    have hused := htakes a rest (hf rest rfl)
    rw [List.length_append] at hused
    refine .ok used a fun more hmore => ?_
    rw [hg _ (take_append_congr hmore (by omega)), hf more hmore]
  | error used c cause hf =>
    refine .error used c cause fun more hmore => ?_
    rw [hg _ (take_append_congr hmore (by omega)), hf more hmore]

theorem head {t : Token} (h : Steady mk f (t :: rest)) (hg : ∀ u, g (t :: u) = f (t :: u)) :
    Steady mk g (t :: rest) := by
  refine h.congr fun u hu => ?_
  cases u with
  | nil => cases hu
  | cons t' u =>
    cases (List.cons.inj hu).1
    exact hg u

theorem nil (h : Steady mk f []) (hg : g [] = f []) : Steady mk g [] := by
  refine h.congr fun u hu => ?_
  simp_all

theorem take {t : Token} (h : Steady mk (fun u => f (t :: u)) rest) : Steady mk f (t :: rest) := by
  cases h with
  | ok used a hf => exact .ok (t :: used) a hf
  | error used c cause hf => exact .error (t :: used) c cause hf

/-- A token is taken once it was seen which one it is. -/
theorem take_of {kind : Token.Kind} (hs : startsWith kind ts = true)
    (h : ∀ t, Steady mk (fun u => f (t :: u)) ts.tail) : Steady mk f ts := by
  obtain ⟨p, hp⟩ := startsWith_eq_true hs
  rw [hp]
  exact take (h _)

theorem ite {b : List Token → Bool} (hb : Near b) (hf : b ts = true → Steady mk f ts)
    (hg : b ts = false → Steady mk g ts) : Steady mk (fun u => if b u then f u else g u) ts := by
  cases hts : b ts with
  | true => exact (hf hts).congr fun u hu => by rw [hb ts u hu, hts, if_pos rfl]
  | false => exact (hg hts).congr fun u hu => by rw [hb ts u hu, hts, if_neg Bool.false_ne_true]

/-- A rule goes on with what another left. It may depend on the tokens that there were. -/
theorem bind {k : List Token → γ → Except SyntaxError δ} (h : Steady mk f ts)
    (hk : ∀ a used rest, ts = used ++ rest → f ts = .ok (mk a rest) →
      Steady mk' (fun u => k (used ++ u) (mk a u)) rest) :
    Steady mk' (fun u => f u >>= k u) ts := by
  cases h with
  | @ok used rest a hf =>
    have hnext := hk a used rest rfl (hf rest rfl)
    cases hnext with
    | ok used' b hkf =>
      rw [← List.append_assoc]
      refine .ok (used ++ used') b fun more hmore => ?_
      rw [List.append_assoc, hf _ (take_append_congr hmore (by omega))]
      exact hkf more hmore
    | error used' c cause hkf =>
      rw [← List.append_assoc]
      refine .error (used ++ used') c cause fun more hmore => ?_
      rw [List.append_assoc, hf _ (take_append_congr hmore (by omega))]
      exact hkf more hmore
  | error used c cause hf =>
    refine .error used c cause fun more hmore => ?_
    rw [hf more hmore]
    rfl

end Steady

/-! ## Tokens -/

theorem steady_skipSemicolons :
    Steady (fun (_ : Unit) u => u) (fun u => .ok (skipSemicolons u)) ts := by
  induction ts with
  | nil => exact .nil (.pure ()) rfl
  | cons t ts ih =>
    cases hs : isKind (.mark .semicolon) t.kind with
    | true =>
      refine .take (ih.congr fun u _ => ?_)
      simp [skipSemicolons, hs]
    | false =>
      refine .head (.pure ()) fun u => ?_
      simp [skipSemicolons, hs]

theorem steady_consume {kind : Token.Kind} :
    Steady (fun (_ : Unit) u => u) (consume kind c) ts := by
  refine .ite (near_startsWith kind) (fun hs => ?_) fun _ => .fail _ _
  exact .take_of hs fun _ => .pure ()

theorem steady_readName : Steady Prod.mk (readName c) ts := by
  rcases ts with _ | ⟨⟨kind, p⟩, rest⟩
  · exact .nil (.fail c .expectedName) rfl
  · cases kind with
    | name s => exact .take (.pure s)
    | _ => exact .head (.fail c .expectedName) fun _ => rfl

theorem steady_readName? : Steady Prod.mk (fun u => .ok (readName? u)) ts := by
  rcases ts with _ | ⟨⟨kind, p⟩, rest⟩
  · exact .nil (.pure none) rfl
  · cases kind with
    | name s => exact .take (.pure (some s))
    | _ => exact .head (.pure none) fun _ => rfl

/-- The last token taken does not depend on what is left. -/
theorem lastTaken?_append (used rest : List Token) :
    lastTaken? (used ++ rest) rest = used.getLast? := by
  simp [lastTaken?]

theorem steady_terminator {used : List Token} :
    Steady (fun (_ : Unit) u => u) (fun u => terminator c (used ++ u) u) rest := by
  unfold terminator
  simp only [lastTaken?_append]
  refine .ite (near_startsWithMark _) (fun _ => steady_skipSemicolons) fun _ => ?_
  have hends := (near_startsWithMark .rightBrace).or (near_startsWith .eof)
  exact .ite (hends.or (near_const _)) (fun _ => .pure ()) fun _ => .fail _ _

/-! ## Types and lists -/

theorem not_pipe_of_take {us : List Token} (h : us.take 2 = ts.take 2)
    (hts : ∀ p more, ts = ⟨.mark .pipe, p⟩ :: more → False) :
    ∀ p more, us = ⟨.mark .pipe, p⟩ :: more → False := by
  rintro p more rfl
  have hs : startsWithMark .pipe ts = true := near_startsWithMark .pipe _ _ h.symm
  obtain ⟨q, hq⟩ := startsWith_eq_true hs
  exact hts q _ hq

theorem steady_readTypeNames : Steady Prod.mk (readTypeNames c) ts := by
  fun_induction readTypeNames c ts with
  | case1 s p q more ih | case2 p q more ih =>
    refine .take (.take ?_)
    exact .bind ih fun names _ _ _ _ => .pure _
  | case3 s p more hmore =>
    refine .take (.congr (.pure [s]) fun u hu => ?_)
    exact readTypeNames.eq_3 c s p u (not_pipe_of_take hu hmore)
  | case4 p more hmore =>
    refine .take (.congr (.pure ["nil"]) fun u hu => ?_)
    exact readTypeNames.eq_4 c p u (not_pipe_of_take hu hmore)
  | case5 ts _ _ hname hnil =>
    rcases ts with _ | ⟨⟨kind, p⟩, rest⟩
    · exact .nil (.fail c .expectedType) rfl
    · cases kind with
      | name s => exact absurd rfl (hname s p rest)
      | keyword word =>
        cases word with
        | nilWord => exact absurd rfl (hnil p rest)
        | _ => exact .head (.fail c .expectedType) fun _ => rfl
      | _ => exact .head (.fail c .expectedType) fun _ => rfl

theorem steady_typing : Steady Prod.mk (typing c) ts := by
  cases ts with
  | nil => exact .nil (.fail (c.within .typing) .expectedType) rfl
  | cons t rest =>
    refine .head (f := fun u => readTypeNames (c.within .typing) u >>= fun y =>
      .ok (⟨y.1, t.pos⟩, y.2)) ?_ fun _ => rfl
    refine .bind steady_readTypeNames fun names _ _ _ _ => ?_
    dsimp only
    exact .pure _

theorem steady_typing? : Steady Prod.mk (typing? c) ts := by
  refine .ite (near_startsWithMark _) (fun hs => ?_) fun _ => .pure none
  refine .take_of hs fun _ => ?_
  exact .bind steady_typing fun _ _ _ _ _ => .pure _

theorem steady_param : Steady Prod.mk (param c) ts := by
  cases ts with
  | nil => exact .nil (.fail c .expectedName) rfl
  | cons t rest =>
    refine .head (f := fun u => readName c u >>= fun x => typing? c x.2 >>= fun y =>
      .ok (⟨x.1, y.1, t.pos⟩, y.2)) ?_ fun _ => rfl
    refine .bind steady_readName fun name _ _ _ _ => ?_
    refine .bind steady_typing? fun typing _ _ _ _ => ?_
    dsimp only
    exact .pure _

/-- Turns that depend on the tokens and are never fewer. -/
def Roomy (turns : List Token → List Token) : Prop := ∀ u, u.length ≤ (turns u).length

theorem roomy_id : Roomy id := fun _ => Nat.le_refl _

theorem Roomy.tail (h : Roomy turns) (used : List Token) (hused : 0 < used.length) :
    Roomy fun u => (turns (used ++ u)).tail := by
  intro u
  have := h (used ++ u)
  rw [List.length_append] at this
  rw [List.length_tail]
  omega

/-- With as many turns as there are tokens, there is one left wherever a loop goes on. -/
theorem turn_of_le {f : List Token → List Token → β} (hnil : f [] [] = f [default] [])
    (hcons : ∀ turn turns ts, f (turn :: turns) ts = f (default :: turns) ts) {turns : List Token}
    (h : ts.length ≤ turns.length) : f turns ts = f (default :: turns.tail) ts := by
  cases turns with
  | cons turn turns => exact hcons turn turns ts
  | nil =>
    obtain rfl := List.length_eq_zero_iff.1 (Nat.le_zero.1 h)
    exact hnil

theorem items_turn {item : Parse α} {close : Mark}
    (htakes : ∀ ts a rest, item c ts = .ok (a, rest) → Takes ts rest) :
    items close item c [] [] = items close item c [default] [] := by
  rw [items, items]
  cases hx : item c [] with
  | error e => rfl
  | ok x => exact absurd (htakes [] x.1 x.2 hx).length_lt (Nat.not_lt_zero _)

theorem steady_items {item : Parse α} {close : Mark}
    (htakes : ∀ ts a rest, item c ts = .ok (a, rest) → Takes ts rest)
    (hitem : ∀ ts, Steady Prod.mk (item c) ts) (hturns : Roomy turns) :
    Steady Prod.mk (fun u => items close item c (turns u) u) ts := by
  induction hn : ts.length using Nat.strongRecOn generalizing ts turns with
  | _ n ih =>
  simp only [turn_of_le (f := items close item c) (items_turn htakes)
    (fun _ _ _ => by rw [items, items]) (hturns _)]
  unfold items
  refine .ite (near_startsWithMark _) (fun hs => .take_of hs fun _ => .pure []) fun _ => ?_
  refine .bind (hitem ts) fun a used rest hts ha => ?_
  have hless := (htakes ts a rest ha).length_lt
  dsimp only
  refine .ite (near_startsWithMark _) (fun hs => ?_) fun _ => ?_
  · refine .take_of hs fun t => ?_
    have hroom : Roomy fun u => (turns (used ++ t :: u)).tail := by
      simpa using hturns.tail (used ++ [t]) (by simp)
    refine .bind (ih _ ?_ hroom rfl) fun values _ _ _ _ => ?_
    · rw [List.length_tail]
      omega
    · dsimp only
      exact .pure _
  · refine .ite (near_startsWithMark _) (fun hs => ?_) fun _ => .fail _ _
    exact .take_of hs fun _ => .pure _

theorem steady_list {item : Parse α} {close : Mark}
    (htakes : ∀ ts a rest, item c ts = .ok (a, rest) → Takes ts rest)
    (hitem : ∀ ts, Steady Prod.mk (item c) ts) : Steady Prod.mk (list close item c) ts := by
  show Steady Prod.mk (fun u => items close item c (id u) u) ts
  exact steady_items htakes hitem roomy_id

/-! ## Bodies -/

structure SteadyBelow (below : Below) : Prop where
  sound : Sound below
  statement : ∀ c ts, Steady Prod.mk (below.statement c) ts
  assignment : ∀ c ts, Steady Prod.mk (below.assignment c) ts
  unary : ∀ c ts, Steady Prod.mk (below.unary c) ts

section

variable {below : Below}

variable (hb : SteadyBelow below)

include hb

theorem steady_expression : Steady Prod.mk (expression below c) ts :=
  hb.assignment (c.within .expression) ts

theorem steady_blockStatements (hturns : Roomy turns) :
    Steady Prod.mk (fun u => blockStatements below c (turns u) u) ts := by
  induction hn : ts.length using Nat.strongRecOn generalizing ts turns with
  | _ n ih =>
  simp only [turn_of_le (f := blockStatements below c) rfl (fun _ _ _ => rfl) (hturns _)]
  unfold blockStatements
  refine .ite (near_startsWithMark _) (fun hs => .take_of hs fun _ => .pure []) fun _ => ?_
  refine .ite ((near_startsWith _).or near_isEmpty) (fun _ => .fail _ _) fun _ => ?_
  refine .bind (hb.statement c ts) fun s used rest hts hs => ?_
  have hless := (hb.sound.statement hs).1.length_lt
  rw [hts, List.length_append] at hless
  refine .bind steady_terminator fun _ used' rest' hrest _ => ?_
  rw [hts, hrest, List.length_append, List.length_append] at hn
  have hroom : Roomy fun u => (turns (used ++ (used' ++ u))).tail := by
    simpa using hturns.tail (used ++ used') (by simp; omega)
  refine .bind (ih rest'.length (by omega) hroom rfl) fun ss _ _ _ _ => ?_
  dsimp only
  exact .pure _

theorem steady_block : Steady Prod.mk (block below c) ts := by
  refine .bind steady_consume fun _ _ rest _ _ => ?_
  refine .bind (k := fun _ u => blockStatements below _ (id u) u) steady_skipSemicolons
    fun _ _ _ _ _ => ?_
  exact steady_blockStatements hb roomy_id

theorem steady_functionRest :
    Steady Prod.mk (functionRest below name pos c) ts := by
  refine .bind steady_consume fun _ _ _ _ _ => ?_
  refine .bind (steady_list (fun _ _ _ h => (param_sound h).1) fun _ => steady_param)
    fun params _ _ _ _ => ?_
  refine .bind steady_typing? fun returns _ _ _ _ => ?_
  refine .ite (near_startsWithMark _) (fun _ => ?_) fun _ => ?_
  · exact .bind (steady_block hb) fun _ _ _ _ _ => .pure _
  · exact .bind (steady_expression hb) fun _ _ _ _ _ => .pure _

omit hb in
theorem classMembers_eq {turns : List Token} (h : ts.length ≤ turns.length) :
    classMembers below c turns ts = (Except.ok (skipSemicolons ts) >>= fun left =>
      if startsWithMark .rightBrace left then .ok ([], [], left.tail)
      else if startsWithMark .leftParen left.tail then
        readName (c.within .method) left >>= fun x =>
        functionRest below (some x.1) ((left.head?.map (·.pos)).getD (.start ""))
          (c.within .method) x.2 >>= fun y =>
        classMembers below c turns.tail y.2 >>= fun z => .ok (z.1, y.1 :: z.2.1, z.2.2)
      else param (c.within .property) left >>= fun x =>
        classMembers below c turns.tail x.2 >>= fun z => .ok (x.1 :: z.1, z.2.1, z.2.2)) := by
  rw [classMembers]
  cases turns with
  | cons turn turns => rfl
  | nil =>
    obtain rfl := List.length_eq_zero_iff.1 (Nat.le_zero.1 h)
    rfl

theorem steady_classMembers (hturns : Roomy turns) :
    Steady (fun (x : List Param × List FunctionDecl) u => (x.1, x.2, u))
      (fun u => classMembers below c (turns u) u) ts := by
  induction hn : ts.length using Nat.strongRecOn generalizing ts turns with
  | _ n ih =>
  simp only [classMembers_eq (hturns _)]
  refine .bind steady_skipSemicolons fun _ semicolons left hleft _ => ?_
  rw [hleft, List.length_append] at hn
  refine .ite (near_startsWithMark _) (fun hs => .take_of hs fun _ => .pure ([], [])) fun _ => ?_
  refine .ite (near_tail fun _ _ _ => rfl) (fun hs => ?_) fun _ => ?_
  · cases left with
    | nil => cases hs
    | cons t left =>
      refine .head (f := fun u => readName (c.within .method) u >>= fun x =>
        functionRest below (some x.1) t.pos (c.within .method) x.2 >>= fun y =>
        classMembers below c (turns (semicolons ++ u)).tail y.2 >>= fun z =>
        .ok (z.1, y.1 :: z.2.1, z.2.2)) ?_ fun _ => rfl
      refine .bind steady_readName fun name used rest hused hname => ?_
      obtain ⟨p, hp⟩ := readName_eq_ok hname
      dsimp only
      refine .bind (steady_functionRest hb) fun method used' rest' hused' hmethod => ?_
      have hless := (functionRest_sound hb.sound hmethod).1.length_lt
      rw [hp, List.length_cons] at hn
      have hroom : Roomy fun u => (turns (semicolons ++ (used ++ (used' ++ u)))).tail := by
        rw [hused', List.length_append] at hless
        simpa using hturns.tail (semicolons ++ used ++ used') (by simp; omega)
      refine .bind (ih rest'.length (by omega) hroom rfl) fun x _ _ _ _ => ?_
      dsimp only
      exact .pure (x.1, method :: x.2)
  · refine .bind steady_param fun property used rest hused hp => ?_
    have hless := (param_sound hp).1.length_lt
    have hroom : Roomy fun u => (turns (semicolons ++ (used ++ u))).tail := by
      rw [hused, List.length_append] at hless
      simpa using hturns.tail (semicolons ++ used) (by simp; omega)
    refine .bind (ih rest.length (by omega) hroom rfl) fun x _ _ _ _ => ?_
    dsimp only
    exact .pure (property :: x.1, x.2)

theorem steady_classRest :
    Steady Prod.mk (classRest below name pos c) ts := by
  refine .bind steady_consume fun _ _ _ _ _ => ?_
  refine .bind (steady_classMembers hb roomy_id) fun _ _ _ _ _ => ?_
  exact .pure _

theorem steady_namespaceRest :
    Steady Prod.mk (namespaceRest below name pos c) ts :=
  .bind (steady_block hb) fun _ _ _ _ _ => .pure _

/-! ## Expressions -/

theorem steady_field : Steady Prod.mk (field below c) ts := by
  rcases ts with _ | ⟨⟨kind, p⟩, rest⟩
  · exact .nil (.fail c .expectedName) rfl
  · cases kind with
    | name key | string key =>
      refine .take (.bind steady_consume fun _ _ _ _ _ => ?_)
      exact .bind (steady_expression hb) fun _ _ _ _ _ => .pure _
    | _ => exact .head (.fail c .expectedName) fun _ => rfl

omit hb in
/-- A name that may be left out, and then a rule. -/
theorem steady_named (rule : Option String → List Token → Except SyntaxError (α × List Token))
    (hrule : ∀ name ts, Steady Prod.mk (rule name) ts) (f : α → β) :
    Steady Prod.mk (fun u => rule (readName? u).1 (readName? u).2 >>= fun x => .ok (f x.1, x.2))
      ts := by
  refine .bind (k := fun _ x => rule x.1 x.2 >>= fun y => .ok (f y.1, y.2)) steady_readName?
    fun name _ _ _ _ => ?_
  refine .bind (hrule name _) fun a _ _ _ _ => ?_
  dsimp only
  exact .pure _

theorem steady_primary : Steady Prod.mk (primary below c) ts := by
  rcases ts with _ | ⟨⟨kind, pos⟩, rest⟩
  · exact .nil (.fail (c.within .primary) .expectedExpression) rfl
  · cases kind with
    | number x => exact .take (.pure _)
    | string s => exact .take (.pure _)
    | name s =>
      refine .take (.ite (near_startsNamespace s pos) (fun _ => ?_) fun _ => .pure _)
      exact steady_named (namespaceRest below · pos ((c.within .primary).within .namespaceDef))
        (fun _ _ => steady_namespaceRest hb) (Expr.namespaceDef pos)
    | keyword word =>
      cases word with
      | trueWord => exact .take (.pure _)
      | falseWord => exact .take (.pure _)
      | nilWord => exact .take (.pure _)
      | funcWord =>
        exact .take (steady_named (functionRest below · pos ((c.within .primary).within .function))
          (fun _ _ => steady_functionRest hb) (Expr.function pos))
      | classWord =>
        exact .take (steady_named (classRest below · pos ((c.within .primary).within .classDef))
          (fun _ _ => steady_classRest hb) (Expr.classDef pos))
      | importWord =>
        refine .take (.bind steady_consume fun _ _ _ _ _ => ?_)
        refine .bind (steady_expression hb) fun e _ _ _ _ => ?_
        exact .bind steady_consume fun _ _ _ _ _ => .pure _
      | _ => exact .head (.fail (c.within .primary) .expectedExpression) fun _ => rfl
    | mark m =>
      cases m with
      | leftParen =>
        refine .take (.bind (steady_expression hb) fun e _ _ _ _ => ?_)
        exact .bind steady_consume fun _ _ _ _ _ => .pure _
      | leftBracket =>
        refine .take (.bind (steady_list ?_ ?_) fun _ _ _ _ _ => .pure _)
        · exact fun _ _ _ h => (expression_sound hb.sound h).1
        · exact fun _ => steady_expression hb
      | leftBrace =>
        refine .take (.bind (steady_list ?_ ?_) fun _ _ _ _ _ => .pure _)
        · exact fun _ _ _ h => (field_sound hb.sound h).1
        · exact fun _ => steady_field hb
      | _ => exact .head (.fail (c.within .primary) .expectedExpression) fun _ => rfl
    | _ => exact .head (.fail (c.within .primary) .expectedExpression) fun _ => rfl

theorem steady_postfixes (hturns : Roomy turns) {e : Expr} :
    Steady Prod.mk (fun u => postfixes below c (turns u) e u) ts := by
  induction hn : ts.length using Nat.strongRecOn generalizing ts turns e with
  | _ n ih =>
  simp only [turn_of_le (f := (postfixes below c · e)) rfl (fun _ _ _ => rfl) (hturns _)]
  rcases ts with _ | ⟨⟨kind, p⟩, rest⟩
  · exact .nil (.pure e) rfl
  · have hnext {used left : List Token} (e : Expr) (hleft : rest = used ++ left) :
        Steady Prod.mk (fun u => postfixes below c (turns (⟨kind, p⟩ :: (used ++ u))).tail e u)
          left := by
      apply ih left.length _ (hturns.tail (⟨kind, p⟩ :: used) (by simp)) rfl
      rw [← hn, hleft]
      simp only [List.length_cons, List.length_append]
      omega
    cases kind with
    | mark m =>
      cases m with
      | leftParen =>
        refine .take (.bind (steady_list ?_ ?_) fun args _ _ hleft _ => hnext _ hleft)
        · exact fun _ _ _ h => (expression_sound hb.sound h).1
        · exact fun _ => steady_expression hb
      | dot => exact .take (.bind steady_readName fun name _ _ hleft _ => hnext _ hleft)
      | leftBracket =>
        refine .take (.bind (steady_expression hb) fun key used left hleft _ => ?_)
        refine .bind steady_consume fun _ used' left' hleft' _ => ?_
        rw [hleft', ← List.append_assoc] at hleft
        simpa using hnext (.index e.pos e key) hleft
      | _ => exact .head (.pure e) fun _ => rfl
    | _ => exact .head (.pure e) fun _ => rfl

theorem steady_call : Steady Prod.mk (call below c) ts := by
  refine .bind (steady_primary hb) fun e _ _ _ _ => ?_
  show Steady Prod.mk (fun u => postfixes below c (id u) e u) _
  exact steady_postfixes hb roomy_id

theorem steady_power : Steady Prod.mk (power below c) ts := by
  refine .bind (steady_call hb) fun base _ rest _ _ => ?_
  refine .ite (near_startsWithMark _) (fun hs => ?_) fun _ => .pure _
  refine .take_of hs fun _ => ?_
  exact .bind (hb.unary c _) fun _ _ _ _ _ => .pure _

theorem steady_unaryBody : Steady Prod.mk (unaryBody below c) ts := by
  rcases ts with _ | ⟨⟨kind, pos⟩, rest⟩
  · exact .nil (steady_power hb) rfl
  · cases hop : prefixOp? kind with
    | none =>
      refine .head (f := power below c) (steady_power hb) fun u => ?_
      simp only [unaryBody, hop]
    | some op =>
      refine .take (.congr (f := fun u => below.unary (c.within .unary) u >>= fun x =>
        .ok (.unary pos op x.1, x.2)) ?_ fun u _ => ?_)
      · refine .bind (hb.unary _ _) fun _ _ _ _ _ => ?_
        dsimp only
        exact .pure _
      · simp only [unaryBody, hop]
        rfl

omit hb in
theorem steady_binaryChain {operators : Operators} {operand : Parse Expr}
    (hoperand : ∀ ts, Steady Prod.mk (operand c) ts) (hturns : Roomy turns) {left : Expr} :
    Steady Prod.mk (fun u => binaryChain operators operand c (turns u) left u) ts := by
  induction hn : ts.length using Nat.strongRecOn generalizing ts turns left with
  | _ n ih =>
  simp only [turn_of_le (f := (binaryChain operators operand c · left)) rfl (fun _ _ _ => rfl)
    (hturns _)]
  cases ts with
  | nil => exact .nil (.pure left) rfl
  | cons t rest =>
    cases hop : operators t.kind with
    | none =>
      refine .head (.pure left) fun u => ?_
      simp only [binaryChain, hop]
    | some op =>
      refine .take (.congr (f := fun u => operand c u >>= fun x =>
        binaryChain operators operand c (turns (t :: u)).tail (.binary left.pos op left x.1) x.2) ?_
        fun u _ => ?_)
      · refine .bind (hoperand rest) fun right used after hafter _ => ?_
        dsimp only
        apply ih after.length _ (hturns.tail (t :: used) (by simp)) rfl
        rw [← hn, hafter]
        simp only [List.length_cons, List.length_append]
        omega
      · simp only [binaryChain, hop]

theorem steady_binaryExpr : Steady Prod.mk (binaryExpr below c) ts := by
  unfold binaryExpr
  induction operatorLevels generalizing ts with
  | nil => exact hb.unary c ts
  | cons operators levels ih =>
    refine .bind ih fun left _ _ _ _ => ?_
    show Steady Prod.mk (fun u => binaryChain operators _ c (id u) left u) _
    exact steady_binaryChain (fun _ => ih) roomy_id

theorem steady_assignmentBody : Steady Prod.mk (assignmentBody below c) ts := by
  refine .bind (steady_binaryExpr hb) fun target _ rest _ _ => ?_
  rcases rest with _ | ⟨⟨kind, p⟩, rest⟩
  · exact .nil (.pure target) rfl
  · cases kind with
    | assign sign =>
      cases htarget : target.isTarget with
      | true =>
        refine .take (.congr (f := fun u => below.assignment (c.within .assignment) u >>= fun x =>
          .ok (.assign target.pos sign target x.1, x.2)) ?_ fun u _ => ?_)
        · refine .bind (hb.assignment _ _) fun _ _ _ _ _ => ?_
          dsimp only
          exact .pure _
        · simp only [htarget]
          rfl
      | false =>
        refine .head (.fail (c.within .assignment) .invalidTarget) fun u => ?_
        simp only [htarget]
        rfl
    | _ => exact .head (.pure target) fun _ => rfl

/-! ## Statements -/

theorem steady_destructuring {q : Qualifier} :
    Steady Prod.mk (destructuring below q exported pos c) ts := by
  refine .bind (steady_list (fun _ _ _ h => (param_sound h).1) fun _ => steady_param)
    fun targets _ _ _ _ => ?_
  refine .bind steady_consume fun _ _ _ _ _ => ?_
  exact .bind (steady_expression hb) fun _ _ _ _ _ => .pure _

theorem steady_declaredName {q : Qualifier} :
    Steady Prod.mk (declaredName below q exported pos c) ts := by
  refine .bind steady_readName fun name _ _ _ _ => ?_
  refine .bind steady_typing? fun typing _ rest _ _ => ?_
  refine .ite (near_startsWith _) (fun hs => ?_) fun _ => ?_
  · refine .take_of hs fun _ => ?_
    exact .bind (steady_expression hb) fun _ _ _ _ _ => .pure _
  · split
    next => exact .fail _ _
    next => exact .pure _

omit hb in
/-- A name, what follows it, and a statement made of that. -/
theorem steady_afterName (c : Context)
    (rule : String → List Token → Except SyntaxError (α × List Token))
    (hrule : ∀ name ts, Steady Prod.mk (rule name) ts) (f : α → β) :
    Steady Prod.mk (fun u => readName c u >>= fun x => rule x.1 x.2 >>= fun y => .ok (f y.1, y.2))
      ts := by
  refine .bind steady_readName fun name _ _ _ _ => ?_
  refine .bind (hrule name _) fun a _ _ _ _ => ?_
  dsimp only
  exact .pure _

def declares (t : Token) (rest : List Token) : Bool :=
  (qualifier? t.kind).isSome || startsWithName rest &&
    (isKind (.keyword .funcWord) t.kind || isKind (.keyword .classWord) t.kind ||
      startsNamespace (t :: rest))

omit hb in
theorem near_declares (t : Token) : Near (declares t) := by
  have hspace : Near fun ts => startsNamespace (t :: ts) := by
    obtain ⟨kind, p⟩ := t
    cases kind with
    | name s => exact near_startsNamespace s p
    | _ => exact near_const false
  exact (near_const _).or (near_startsWithName.and ((near_const _).or hspace))

omit hb in
theorem declaration?_eq_none {t : Token} (h : declares t ts = false) :
    declaration? below exported pos c (t :: ts) = .ok none := by
  obtain ⟨kind, here⟩ := t
  simp only [declares, Bool.or_eq_false_iff, Bool.and_eq_false_iff, Option.isSome_eq_false_iff,
    Option.isNone_iff_eq_none] at h
  obtain ⟨hq, hname⟩ := h
  simp only [declaration?, hq]
  cases hn : startsWithName ts with
  | false => rfl
  | true =>
    simp only [hn, Bool.true_eq_false, false_or] at hname
    obtain ⟨⟨hfunc, hclass⟩, hspace⟩ := hname
    cases kind with
    | keyword word =>
      cases word with
      | funcWord => cases hfunc
      | classWord => cases hclass
      | _ => rfl
    | name s => simp [hspace]
    | _ => rfl

/-- A declaration, or else a rule that fails or takes a token. -/
theorem steady_declarationOr {other : List Token → Except SyntaxError (Stmt × List Token)}
    (hother : Steady Prod.mk other ts)
    (htakes : ∀ s rest, other ts = .ok (s, rest) → rest.length < ts.length) :
    Steady Prod.mk (fun u => declaration? below exported pos c u >>= fun o =>
      o.elim (other u) .ok) ts := by
  rcases ts with _ | ⟨⟨kind, here⟩, rest⟩
  · exact .nil hother rfl
  cases hdeclares : declares ⟨kind, here⟩ rest with
  | false =>
    refine hother.congr_three htakes fun u hu => ?_
    cases u with
    | nil => cases hu
    | cons t u =>
      obtain ⟨rfl, hnext⟩ : t = ⟨kind, here⟩ ∧ u.take 2 = rest.take 2 := List.cons.inj hu
      rw [declaration?_eq_none ((near_declares _ _ _ hnext).trans hdeclares)]
      rfl
  | true =>
  refine .take ?_
  cases hq : qualifier? kind with
  | some q =>
    refine .congr (f := fun u => if startsWithMark .leftBracket u then
        destructuring below q exported pos (c.within .destructuring) u.tail
      else declaredName below q exported pos (c.within .declaration) u) ?_ fun u _ => ?_
    · refine .ite (near_startsWithMark _) (fun hs => ?_) fun _ => steady_declaredName hb
      exact .take_of hs fun _ => steady_destructuring hb
    · simp only [declaration?, hq]
      split
      next => cases destructuring below q exported pos (c.within .destructuring) u.tail <;> rfl
      next => cases declaredName below q exported pos (c.within .declaration) u <;> rfl
  | none =>
    simp only [declares, hq, Option.isSome_none, Bool.false_or, Bool.and_eq_true,
      Bool.or_eq_true] at hdeclares
    obtain ⟨hname, hword⟩ := hdeclares
    have hnamed (u : List Token) (hu : u.take 2 = rest.take 2) : startsWithName u = true :=
      (near_startsWithName _ _ hu).trans hname
    cases kind with
    | keyword word =>
      cases word with
      | funcWord =>
        refine .congr (steady_afterName (c.within .function)
          (fun name => functionRest below (some name) here (c.within .function))
          (fun _ _ => steady_functionRest hb) (Stmt.function pos · exported)) fun u hu => ?_
        simp only [declaration?, hq, hnamed u hu, Bool.not_true, Bool.false_eq_true, ↓reduceIte,
          bind_assoc, pure_bind, Option.elim_some]
      | classWord =>
        refine .congr (steady_afterName (c.within .classDef)
          (fun name => classRest below (some name) here (c.within .classDef))
          (fun _ _ => steady_classRest hb) (Stmt.classDef pos · exported)) fun u hu => ?_
        simp only [declaration?, hq, hnamed u hu, Bool.not_true, Bool.false_eq_true, ↓reduceIte,
          bind_assoc, pure_bind, Option.elim_some]
      | _ => simp [isKind, startsNamespace] at hword
    | name s =>
      have hspace : startsNamespace (⟨.name s, here⟩ :: rest) = true := by
        simpa [isKind] using hword
      refine .congr (steady_afterName (c.within .namespaceDef)
        (fun name => namespaceRest below (some name) here (c.within .namespaceDef))
        (fun _ _ => steady_namespaceRest hb) (Stmt.namespaceDef pos · exported)) fun u hu => ?_
      have hspace' : startsNamespace (⟨.name s, here⟩ :: u) = true :=
        (near_startsNamespace s here _ _ hu).trans hspace
      simp only [declaration?, hq, hnamed u hu, hspace', Bool.not_true, Bool.false_eq_true,
        ↓reduceIte, bind_assoc, pure_bind, Option.elim_some]
    | _ => simp [isKind, startsNamespace] at hword

/-! ### Conditions and loops -/

theorem steady_elseRest {next : List Token → Position → Parse Stmt}
    (hnext : ∀ used rest pos, ts = used ++ rest → rest.length < ts.length →
      Steady Prod.mk (fun u => next (used ++ u) pos c u) rest) :
    Steady Prod.mk (fun u => elseRest below (some (next u)) c u) ts := by
  cases ts with
  | nil => exact .nil (.fail c (.expected (.mark .leftBrace))) rfl
  | cons t rest =>
    cases hs : isKind (.keyword .ifWord) t.kind with
    | true =>
      refine .take (.congr (hnext [t] rest t.pos rfl (Nat.lt_succ_self _)) fun u _ => ?_)
      simp only [elseRest, hs]
      rfl
    | false =>
      refine .head (f := fun u => block below c u >>= fun x => .ok (.block t.pos x.1, x.2)) ?_
        fun u => ?_
      · refine .bind (steady_block hb) fun _ _ _ _ _ => ?_
        dsimp only
        exact .pure _
      · simp only [elseRest, hs]
        rfl

theorem steady_ifBranch {next : List Token → Position → Parse Stmt}
    (hnext : ∀ used rest pos c, ts = used ++ rest → rest.length < ts.length →
      Steady Prod.mk (fun u => next (used ++ u) pos c u) rest) :
    Steady Prod.mk (fun u => ifBranch below (some (next u)) pos c u) ts := by
  refine .bind (steady_expression hb) fun condition used rest hts hcondition => ?_
  have hless := (expression_sound hb.sound hcondition).1.length_lt
  refine .bind (steady_block hb) fun body used' rest' hrest _ => ?_
  refine .ite (near_startsWith _) (fun hs => ?_) fun _ => .pure _
  cases rest' with
  | nil => cases hs
  | cons t rest' =>
    refine .take (.bind (steady_elseRest hb fun used'' rest'' pos hrest' _ => ?_)
      fun _ _ _ _ _ => .pure _)
    have hall : ts = used ++ (used' ++ t :: used'') ++ rest'' := by
      rw [hts, hrest, hrest']
      simp
    simpa using hnext _ rest'' pos _ hall (by simp [hall]; omega)

omit hb in
/-- The turns for further conditions are only used where there is an expression. -/
theorem ifRest_turn {turns : List Token} (h : ts.length ≤ turns.length) (hb : Sound below) :
    ifRest below turns pos c ts = ifBranch below (some (ifRest below turns.tail)) pos c ts := by
  cases turns with
  | cons turn turns => rfl
  | nil =>
    obtain rfl := List.length_eq_zero_iff.1 (Nat.le_zero.1 h)
    show ifBranch below none pos c [] = _
    unfold ifBranch
    cases hx : expression below (c.within .ifElse) [] with
    | error e => simp only [hx]; rfl
    | ok x => exact absurd (expression_sound hb hx).1.length_lt (Nat.not_lt_zero _)

theorem steady_ifRest (hturns : Roomy turns) :
    Steady Prod.mk (fun u => ifRest below (turns u) pos c u) ts := by
  induction hn : ts.length using Nat.strongRecOn generalizing ts turns pos c with
  | _ n ih =>
  simp only [ifRest_turn (hturns _) hb.sound]
  refine steady_ifBranch hb fun used rest pos c hts hless => ?_
  have hroom : Roomy fun u => (turns (used ++ u)).tail := by
    rw [hts, List.length_append] at hless
    exact hturns.tail used (by omega)
  rw [hn] at hless
  exact ih rest.length hless hroom rfl

theorem steady_whileRest : Steady Prod.mk (whileRest below pos c) ts := by
  refine .bind (steady_expression hb) fun condition _ _ _ _ => ?_
  exact .bind (steady_block hb) fun _ _ _ _ _ => .pure _

theorem steady_forRest : Steady Prod.mk (forRest below pos c) ts := by
  refine .bind steady_readName fun item _ _ _ _ => ?_
  refine .bind steady_consume fun _ _ _ _ _ => ?_
  refine .bind (steady_expression hb) fun iterable _ _ _ _ => ?_
  exact .bind (steady_block hb) fun _ _ _ _ _ => .pure _

theorem steady_returnStatement {pos p : Position} :
    Steady Prod.mk (returnStatement below pos c) (⟨.keyword .returnWord, p⟩ :: rest) := by
  unfold returnStatement
  refine .ite (near_const _) (fun _ => .fail _ _) fun _ => ?_
  have hends : Near endsReturn :=
    ((near_isEmpty.or (near_startsWithMark _)).or (near_startsWithMark _)).or (near_startsWith _)
  refine .take (.ite hends (fun _ => .pure _) fun _ => ?_)
  exact .bind (steady_expression hb) fun _ _ _ _ _ => .pure _

omit hb in
/-- A statement of one word, where it may stand. -/
theorem steady_word {allowed : Bool} {s : Stmt} {t : Token} {cause : Cause} :
    Steady Prod.mk (fun u => if allowed then .ok (s, u.tail) else .error (c.error cause u))
      (t :: rest) := by
  cases allowed with
  | true => exact .take (.pure s)
  | false => exact .fail c cause

theorem steady_statementBody : Steady Prod.mk (statementBody below c) ts := by
  rcases ts with _ | ⟨⟨kind, pos⟩, rest⟩
  · exact .nil (.fail (c.within .statement) .expectedExpression) rfl
  have hother : Steady Prod.mk (fun u => declaration? below false pos (c.within .statement) u >>=
      fun o => o.elim (expression below (c.within .statement) u >>= fun x =>
        .ok (.expr pos x.1, x.2)) .ok) (⟨kind, pos⟩ :: rest) := by
    refine steady_declarationOr hb ?_ fun s left h => ?_
    · refine .bind (steady_expression hb) fun _ _ _ _ _ => ?_
      dsimp only
      exact .pure _
    · simp only [bind_eq_ok, Prod.exists] at h
      obtain ⟨e, left', he, h⟩ := h
      cases h
      exact (expression_sound hb.sound he).1.length_lt
  cases kind with
  | keyword word =>
    cases word with
    | exportWord =>
      cases htop : (c.within .statement).atTopLevel with
      | false =>
        refine .head (.fail (c.within .statement) .exportNotTopLevel) fun u => ?_
        simp only [statementBody, htop]
        rfl
      | true =>
        have hexport : Steady Prod.mk (fun u =>
            declaration? below true pos (c.within .statement) u >>= fun o =>
              o.elim (.error ((c.within .statement).error .expectedDeclaration u)) .ok) rest :=
          steady_declarationOr hb (.fail _ _) (by simp)
        refine .take (.congr hexport fun u _ => ?_)
        simp only [statementBody, htop]
        refine bind_congr fun o => ?_
        cases o <;> rfl
    | ifWord =>
      refine .take ?_
      show Steady Prod.mk (fun u => ifRest below (id u) pos (c.within .statement) u) rest
      exact steady_ifRest hb roomy_id
    | whileWord => exact .take (steady_whileRest hb)
    | forWord => exact .take (steady_forRest hb)
    | returnWord => exact .head (steady_returnStatement hb) fun _ => rfl
    | breakWord => exact .head steady_word fun _ => rfl
    | continueWord => exact .head steady_word fun _ => rfl
    | _ =>
      refine .head hother fun u => bind_congr fun o => ?_
      cases o <;> rfl
  | _ =>
    refine .head hother fun u => bind_congr fun o => ?_
    cases o <;> rfl

/-! ## Programs -/

theorem steady_programStatements (hturns : Roomy turns) :
    Steady (fun p _ => p) (fun u => programStatements below c (turns u) u) ts := by
  induction hn : ts.length using Nat.strongRecOn generalizing ts turns with
  | _ n ih =>
  simp only [turn_of_le (f := programStatements below c) rfl (fun _ _ _ => rfl) (hturns _)]
  unfold programStatements
  refine .ite ((near_startsWith _).or near_isEmpty) (fun _ => .pure []) fun _ => ?_
  refine .bind (hb.statement c ts) fun s used rest hts hs => ?_
  have hless := (hb.sound.statement hs).1.length_lt
  rw [hts, List.length_append] at hless
  refine .bind steady_terminator fun _ used' rest' hrest _ => ?_
  rw [hts, hrest, List.length_append, List.length_append] at hn
  have hroom : Roomy fun u => (turns (used ++ (used' ++ u))).tail := by
    simpa using hturns.tail (used ++ used') (by simp; omega)
  refine .bind (ih rest'.length (by omega) hroom rfl) fun ss _ _ _ _ => ?_
  exact .pure (s :: ss)

end

theorem steady_withLevels (n : Nat) : SteadyBelow (withLevels n) := by
  induction n with
  | zero =>
    exact ⟨withLevels_sound 0, fun _ _ => .fail _ _, fun _ _ => .fail _ _, fun _ _ => .fail _ _⟩
  | succ n ih =>
    exact ⟨withLevels_sound (n + 1), fun _ _ => steady_statementBody ih,
      fun _ _ => steady_assignmentBody ih, fun _ _ => steady_unaryBody ih⟩

theorem steady_program : Steady (fun p _ => p) program ts := by
  refine .bind (k := fun _ u => programStatements (withLevels maxNesting) ⟨[.program], []⟩ (id u) u)
    steady_skipSemicolons fun _ _ _ _ _ => ?_
  exact steady_programStatements (steady_withLevels maxNesting) roomy_id

theorem eq_of_index_eq (h : ts.Pairwise fun s t => s.pos.index < t.pos.index) {i j : Nat}
    {s t : Token} (hs : ts[i]? = some s) (ht : ts[j]? = some t) (heq : s.pos.index = t.pos.index) :
    i = j := by
  obtain ⟨hi, rfl⟩ := List.getElem?_eq_some_iff.1 hs
  obtain ⟨hj, rfl⟩ := List.getElem?_eq_some_iff.1 ht
  have hless := List.pairwise_iff_getElem.1 h
  rcases Nat.lt_trichotomy i j with hij | hij | hij
  · have := hless i j hi hj hij
    omega
  · exact hij
  · have := hless j i hj hi hij
    omega

/-- The three tokens from an error on settle it. -/
theorem exists_of_program_error {e : SyntaxError} (h : program ts = .error e) :
    ∃ used rest c cause, ts = used ++ rest ∧ e = Context.error c cause rest ∧
      ∀ more, more.take 3 = rest.take 3 → program (used ++ more) = .error (c.error cause more) := by
  cases (steady_program : Steady (fun p _ => p) program ts) with
  | @ok used rest p hf =>
    rw [hf rest rfl] at h
    cases h
  | @error used rest c cause hf =>
    rw [hf rest rfl] at h
    cases h
    exact ⟨used, rest, c, cause, rfl, rfl, hf⟩

/-- A syntax error is local: it stays, with its cause, its place, the token it found and the rules
    that were being read, as long as the tokens up to the second one after it stay. -/
theorem program_error_is_local {us : List Token} {e : SyntaxError} {k : Nat} {t : Token}
    (horder : ts.Pairwise fun s t => s.pos.index < t.pos.index) (h : program ts = .error e)
    (ht : ts[k]? = some t) (hpos : e.pos = t.pos) (hfound : e.found = t.kind)
    (hsame : us.take (k + 3) = ts.take (k + 3)) : program us = .error e := by
  obtain ⟨used, rest, c, cause, rfl, rfl, hlocal⟩ := exists_of_program_error h
  cases rest with
  | nil =>
    -- the error with no token to find would be at the first token, which is the end of the file
    obtain ⟨kind, p⟩ := t
    cases hfound
    have hzero : p.index = 0 := (congrArg Position.index hpos).symm
    rw [List.append_nil] at *
    cases used with
    | nil => cases ht
    | cons first used =>
      cases k with
      | zero =>
        cases ht
        cases h
      | succ k =>
        have hless : first.pos.index < p.index :=
          (List.pairwise_cons.1 horder).1 _ (List.mem_of_getElem? ht)
        omega
  | cons first rest =>
    have hk : k = used.length :=
      eq_of_index_eq horder ht (by simp) (congrArg Position.index hpos).symm
    subst hk
    have hused : us.take used.length = used := by
      simpa [List.take_take] using congrArg (List.take used.length) hsame
    have hnext : (us.drop used.length).take 3 = (first :: rest).take 3 := by
      simpa [List.drop_take] using congrArg (List.drop used.length) hsame
    rw [← List.take_append_drop used.length us, hused, hlocal _ hnext]
    cases hmore : us.drop used.length with
    | nil =>
      rw [hmore] at hnext
      cases hnext
    | cons first' rest' =>
      rw [hmore] at hnext
      cases (List.cons.inj hnext).1
      rfl

/-- `export namespace x (` is an error at its second token, whatever follows: it takes two tokens
    more to tell that no namespace starts there. -/
theorem an_export_fails_whatever_follows : ∃ ts us e t,
    ts.map Token.kind =
      [.keyword .exportWord, .name "namespace", .name "x", .mark .leftParen, .eof] ∧
    us.map Token.kind = [.keyword .exportWord, .name "namespace", .name "x", .mark .leftParen,
      .mark .leftBrace, .eof] ∧
    ts.Pairwise (fun s t => s.pos.index < t.pos.index) ∧ program ts = .error e ∧
    ts[1]? = some t ∧ e.pos = t.pos ∧ e.found = t.kind ∧ us.take 4 = ts.take 4 ∧
    e.rules = [.program, .statement] ∧ program us = .error e := by
  have hfail : program (([.keyword .exportWord, .name "namespace", .name "x", .mark .leftParen,
      .eof] : List Token.Kind).zipIdx.map fun x => ⟨x.1, ⟨x.2, 1, x.2 + 1, "a"⟩⟩) =
      .error ⟨.expectedDeclaration, ⟨1, 1, 2, "a"⟩, .name "namespace", [.program, .statement]⟩ :=
    rfl
  refine ⟨_, ([.keyword .exportWord, .name "namespace", .name "x", .mark .leftParen,
      .mark .leftBrace, .eof] : List Token.Kind).zipIdx.map fun x => ⟨x.1, ⟨x.2, 1, x.2 + 1, "a"⟩⟩,
    _, ⟨.name "namespace", ⟨1, 1, 2, "a"⟩⟩, rfl, rfl, by decide, hfail, rfl, rfl, rfl, rfl, rfl, ?_⟩
  exact program_error_is_local (k := 1) (by decide) hfail rfl rfl rfl rfl

end TinyScript.Grammar

/-
  TinyScript.Proofs.Grammar.Watched — where the rules look.

  A watched rule comes to what the rule comes to, whatever its tokens are: it never asks for a place
  past their end. It takes tokens from the front and never the end of the file, it sees nothing but
  what is left after some of them, and its error is at the tokens that it left (`Follows`). There is
  one lemma for each step that a rule is made of and one for each rule.
-/

import TinyScript.Proofs.Grammar.Taking
import TinyScript.Proofs.Grammar.Watching
import TinyScript.Proofs.Token.Partition

namespace TinyScript.Grammar

open TinyScript.Text

variable {α β γ : Type} {ts mid rest : List Token} {c : Context} {turns : List Token} {a : α}

theorem mayTake_append {used : List Token} (h : ∀ t ∈ used, t.kind ≠ .eof) (rest : List Token) :
    MayTake (used ++ rest) rest := by
  induction used with
  | nil => exact .inl rfl
  | cons t used ih =>
    rw [List.forall_mem_cons] at h
    exact .inr (Takes.trans_may (.one h.1) (ih h.2))

theorem MayTake.exists_append (h : MayTake ts rest) :
    ∃ used, ts = used ++ rest ∧ ∀ t ∈ used, t.kind ≠ .eof := by
  rcases h with rfl | h
  · exact ⟨[], rfl, by simp⟩
  · obtain ⟨used, hused, _, hne⟩ := h.exists_append
    exact ⟨used, hused, hne⟩

inductive Leaves : Except SyntaxError (α × List Token) → List Token → Prop
  | ok {a : α} {rest : List Token} : Leaves (.ok (a, rest)) rest
  | error {c : Context} {cause : Cause} {rest : List Token} :
    Leaves (.error (c.error cause rest)) rest

/-- A watched rule comes to `r`, and goes through its tokens from the front up to what is left. -/
structure Follows (w : Watch α) (ts : List Token) (r : Except SyntaxError (α × List Token)) :
    Prop where
  result : (w ts).result = some r
  seen : ∀ u ∈ (w ts).seen, MayTake ts u
  taken : ∀ t ∈ (w ts).taken, t.kind ≠ .eof
  left : ∃ u, ts = (w ts).taken ++ u ∧ Leaves r u

def Watches (w : Context → Watch α) (p : Parse α) : Prop := ∀ c ts, Follows (w c) ts (p c ts)

/-! ## Steps -/

namespace Watch

variable {w : Watch α} {k : α → Watch β}

theorem bind_of_ok (h : (w ts).result = some (.ok (a, rest))) :
    (w >>= k) ts =
      ⟨(w ts).seen ++ (k a rest).seen, (w ts).taken ++ (k a rest).taken, (k a rest).result⟩ := by
  change Watch.bind w k ts = _
  rw [Watch.bind, h]

theorem bind_of_error {e : SyntaxError} (h : (w ts).result = some (.error e)) :
    (w >>= k) ts = ⟨(w ts).seen, (w ts).taken, some (.error e)⟩ := by
  change Watch.bind w k ts = _
  rw [Watch.bind, h]

end Watch

namespace Follows

variable {w : Watch α} {k : α → Watch β} {r : Except SyntaxError (β × List Token)}

theorem pure : Follows (Pure.pure a) ts (.ok (a, ts)) :=
  ⟨rfl, by simp [Pure.pure], by simp [Pure.pure], ts, rfl, .ok⟩

theorem fail {cause : Cause} :
    Follows (Watch.fail cause c : Watch α) ts (.error (c.error cause ts)) :=
  ⟨rfl, by simp [Watch.fail, MayTake], by simp [Watch.fail], ts, rfl, .error⟩

/-- What is left after a rule that read something. -/
theorem mayTake (h : Follows w ts (.ok (a, rest))) : MayTake ts rest := by
  obtain ⟨u, hu, hleft⟩ := h.left
  cases hleft
  conv => arg 1; rw [hu]
  exact mayTake_append h.taken rest

/-- A rule goes on with what another left. -/
theorem andThen (h : Follows w ts (.ok (a, mid))) (hk : Follows (k a) mid r) :
    Follows (w >>= k) ts r := by
  have hmay := h.mayTake
  obtain ⟨u, hu, hleft⟩ := h.left
  obtain ⟨v, hv, hleft'⟩ := hk.left
  cases hleft
  refine ⟨?_, ?_, ?_, v, ?_, hleft'⟩ <;> rw [Watch.bind_of_ok h.result]
  · exact hk.result
  · intro x hx
    rcases List.mem_append.1 hx with hx | hx
    · exact h.seen x hx
    · exact hmay.trans (hk.seen x hx)
  · intro t ht
    rcases List.mem_append.1 ht with ht | ht
    · exact h.taken t ht
    · exact hk.taken t ht
  · rw [List.append_assoc, ← hv]
    exact hu

theorem bind_error {e : SyntaxError} (h : Follows w ts (.error e)) :
    Follows (w >>= k) ts (.error e) := by
  obtain ⟨u, hu, hleft⟩ := h.left
  refine ⟨?_, ?_, ?_, u, ?_, ?_⟩
  · rw [Watch.bind_of_error h.result]
  · rw [Watch.bind_of_error h.result]
    exact h.seen
  · rw [Watch.bind_of_error h.result]
    exact h.taken
  · rw [Watch.bind_of_error h.result]
    exact hu
  · cases hleft
    exact .error

/-- A rule whose result holds what was read and what is left in its own way, and what follows it. -/
theorem bind_map {g : γ → α × List Token} {x : Except SyntaxError γ}
    {f : γ → Except SyntaxError (β × List Token)} (h : Follows w ts (g <$> x))
    (hk : ∀ y, MayTake ts (g y).2 → Follows (k (g y).1) (g y).2 (f y)) :
    Follows (w >>= k) ts (x >>= f) := by
  cases x with
  | error e => exact bind_error h
  | ok y => exact andThen h (hk y h.mayTake)

theorem bind {x : Except SyntaxError (α × List Token)}
    {f : α × List Token → Except SyntaxError (β × List Token)} (h : Follows w ts x)
    (hk : ∀ a rest, MayTake ts rest → Follows (k a) rest (f (a, rest))) :
    Follows (w >>= k) ts (x >>= f) :=
  bind_map (g := id) (by rwa [id_map]) fun y => hk y.1 y.2

/-- A rule that only takes tokens, and what follows it. -/
theorem bindUnit {w : Watch Unit} {k : Unit → Watch β} {x : Except SyntaxError (List Token)}
    {f : List Token → Except SyntaxError (β × List Token)} (h : Follows w ts (((), ·) <$> x))
    (hk : ∀ rest, MayTake ts rest → Follows (k ()) rest (f rest)) :
    Follows (w >>= k) ts (x >>= f) :=
  bind_map h hk

theorem look {f : List Token → α} (h : Follows (k (f ts)) ts r) :
    Follows (Watch.look f >>= k) ts r :=
  andThen ⟨rfl, by simp [Watch.look, MayTake], by simp [Watch.look], ts, rfl, .ok⟩ h

theorem first {k : Token → Watch β} {t : Token} (h : Follows (k t) (t :: rest) r) :
    Follows (Watch.first >>= k) (t :: rest) r :=
  andThen ⟨rfl, by simp [Watch.first, MayTake], by simp [Watch.first], _, rfl, .ok⟩ h

theorem take {k : Token → Watch β} {t : Token} (ht : t.kind ≠ .eof) (h : Follows (k t) rest r) :
    Follows (Watch.take >>= k) (t :: rest) r := by
  refine andThen ⟨rfl, ?_, by simpa [Watch.take] using ht, rest, rfl, .ok⟩ h
  simpa [Watch.take] using ⟨.inl rfl, .inr (.one ht)⟩

/-- A rule takes a token after it saw which one it is. -/
theorem take_of {k : Token → Watch β} {kind : Token.Kind} (hs : startsWith kind ts = true)
    (hne : kind ≠ .eof) (h : ∀ t, Follows (k t) ts.tail r) :
    Follows (Watch.take >>= k) ts r := by
  obtain ⟨p, hp⟩ := startsWith_eq_true hs
  rw [hp]
  exact take hne (h _)

theorem ite {p : Prop} [Decidable p] {w v : Watch α} {x y : Except SyntaxError (α × List Token)}
    (hw : p → Follows w ts x) (hv : ¬p → Follows v ts y) :
    Follows (if p then w else v) ts (if p then x else y) := by
  split
  next h => exact hw h
  next h => exact hv h

end Follows

/-! ## Tokens -/

theorem skipSemicolons_cons_eq_ite (t : Token) (rest : List Token) :
    skipSemicolons (t :: rest) =
      if startsWithMark .semicolon (t :: rest) then skipSemicolons rest else t :: rest :=
  List.dropWhile_cons

theorem follows_semicolons (h : ts.length ≤ turns.length) :
    Follows (Watch.semicolons turns) ts (.ok ((), skipSemicolons ts)) := by
  induction turns generalizing ts with
  | nil =>
    obtain rfl := List.length_eq_zero_iff.1 (Nat.le_zero.1 h)
    exact .pure
  | cons _ turns ih =>
    unfold Watch.semicolons
    refine .look ?_
    cases ts with
    | nil => exact .pure
    | cons t rest =>
      rw [skipSemicolons_cons_eq_ite]
      by_cases hs : startsWithMark .semicolon (t :: rest) = true
      · rw [if_pos hs, if_pos hs]
        exact .take_of hs (by simp) fun _ => ih (Nat.le_of_succ_le_succ h)
      · rw [if_neg hs, if_neg hs]
        exact .pure

theorem follows_skipSemicolons : Follows Watch.skipSemicolons ts (.ok ((), skipSemicolons ts)) :=
  .look (follows_semicolons (Nat.le_refl _))

theorem follows_consume {kind : Token.Kind} (hne : kind ≠ .eof) :
    Follows (Watch.consume kind c) ts (((), ·) <$> consume kind c ts) := by
  unfold Watch.consume consume
  refine .look ?_
  split
  next hs => exact .take_of hs hne fun _ => .pure
  next => exact .fail

theorem watches_readName : Watches Watch.readName readName := by
  intro c ts
  refine .look ?_
  rcases ts with _ | ⟨⟨kind, p⟩, rest⟩
  · exact .fail
  · cases kind with
    | name s => exact .take (by simp) .pure
    | _ => exact .fail

theorem follows_readName? : Follows Watch.readName? ts (.ok (readName? ts)) := by
  refine .look ?_
  rcases ts with _ | ⟨⟨kind, p⟩, rest⟩
  · exact .pure
  · cases kind with
    | name s => exact .take (by simp) .pure
    | _ => exact .pure

/-- The last token taken is at its place, as long as there was one before. -/
theorem follows_lastTaken? (h : MayTake mid ts) :
    Follows (Watch.lastTaken? mid) ts (.ok (lastTaken? mid ts, ts)) := by
  refine ⟨?_, by simp [Watch.lastTaken?, MayTake], by simp [Watch.lastTaken?], ts, rfl, .ok⟩
  obtain ⟨used, rfl, -⟩ := h.exists_append
  have hlast : lastTaken? (used ++ ts) ts = used.getLast? := by simp [lastTaken?]
  rw [hlast]
  rcases List.eq_nil_or_concat' used with rfl | ⟨init, t, rfl⟩
  · simp [Watch.lastTaken?]
  · have hplace : (init ++ [t] ++ ts).length - ts.length - 1 = init.length := by
      simp only [List.length_append, List.length_singleton]
      omega
    have hget : (init ++ [t] ++ ts)[init.length]? = some t := by simp
    unfold Watch.lastTaken?
    rw [if_neg (by simp; omega), if_neg (by simp; omega), hplace, hget]
    simp

theorem follows_terminator (h : MayTake mid ts) :
    Follows (Watch.terminator c mid) ts (((), ·) <$> terminator c mid ts) := by
  unfold Watch.terminator terminator
  refine .look ?_
  split
  next => exact follows_skipSemicolons
  next =>
    refine .andThen (follows_lastTaken? h) (.look ?_)
    split
    next => exact .pure
    next => exact .fail

/-! ## Types and lists -/

theorem follows_readTypeNames (h : ts.length ≤ turns.length) :
    Follows (Watch.readTypeNames c turns) ts (readTypeNames c ts) := by
  fun_induction readTypeNames c ts generalizing turns with
  | case1 s p q more ih | case2 p q more ih =>
    cases turns with
    | nil => cases h
    | cons _ turns =>
      have hturns : more.length ≤ turns.length := by
        simp only [List.length_cons] at h
        omega
      unfold Watch.readTypeNames
      refine .look ?_
      refine .take (by simp) ?_
      refine .look ?_
      refine .take (by simp) ?_
      exact .bind (ih hturns) fun _ _ _ => .pure
  | case3 s p more hmore | case4 p more hmore =>
    have hs : ¬startsWithMark .pipe more = true := by
      intro hs
      obtain ⟨q, hq⟩ := startsWith_eq_true hs
      exact hmore q _ hq
    unfold Watch.readTypeNames
    refine .look ?_
    refine .take (by simp) ?_
    refine .look ?_
    rw [if_neg hs]
    exact .pure
  | case5 ts _ _ hname hnil =>
    unfold Watch.readTypeNames
    refine .look ?_
    rcases ts with _ | ⟨⟨kind, p⟩, rest⟩
    · exact .fail
    · cases kind with
      | name s => exact absurd rfl (hname s p rest)
      | keyword word =>
        cases word with
        | nilWord => exact absurd rfl (hnil p rest)
        | _ => exact .fail
      | _ => exact .fail

theorem watches_typing : Watches Watch.typing typing := by
  intro c ts
  unfold Watch.typing typing
  refine .look ?_
  cases ts with
  | nil => exact .fail
  | cons t rest =>
    refine .look ?_
    exact .bind (follows_readTypeNames (Nat.le_refl _)) fun _ _ _ => .pure

theorem watches_typing? : Watches Watch.typing? typing? := by
  intro c ts
  unfold Watch.typing? typing?
  refine .look (.ite (fun hs => ?_) fun _ => .pure)
  refine .take_of hs (by simp) fun _ => ?_
  exact .bind (watches_typing c _) fun _ _ _ => .pure

theorem watches_param : Watches Watch.param param := by
  intro c ts
  unfold Watch.param param
  refine .look ?_
  cases ts with
  | nil => exact .fail
  | cons t rest =>
    refine .bind (watches_readName c _) fun s rest _ => ?_
    exact .bind (watches_typing? c rest) fun _ _ _ => .pure

theorem follows_items {item : Context → Watch α} {parse : Parse α} (hitem : Watches item parse)
    {close : Mark} :
    Follows (Watch.items close item c turns) ts (items close parse c turns ts) := by
  induction turns generalizing ts with
  | nil =>
    unfold Watch.items items
    refine .look (.ite (fun hs => .take_of hs (by simp) fun _ => .pure) fun _ => ?_)
    refine .bind (hitem c ts) fun a rest _ => ?_
    refine .look (.ite (fun _ => .fail) fun _ => ?_)
    refine .look (.ite (fun hs => ?_) fun _ => .fail)
    exact .take_of hs (by simp) fun _ => .pure
  | cons _ turns ih =>
    unfold Watch.items items
    refine .look (.ite (fun hs => .take_of hs (by simp) fun _ => .pure) fun _ => ?_)
    refine .bind (hitem c ts) fun a rest _ => ?_
    refine .look (.ite (fun hs => ?_) fun _ => ?_)
    · refine .take_of hs (by simp) fun _ => ?_
      exact .bind ih fun _ _ _ => .pure
    · refine .look (.ite (fun hs => ?_) fun _ => .fail)
      exact .take_of hs (by simp) fun _ => .pure

theorem watches_list {item : Context → Watch α} {parse : Parse α} (hitem : Watches item parse)
    (close : Mark) : Watches (Watch.list close item) (list close parse) :=
  fun _ _ => .look (follows_items hitem)

/-! ## Bodies -/

structure Below.Follows (w : Watch.Below) (below : Below) : Prop where
  statement : Watches w.statement below.statement
  assignment : Watches w.assignment below.assignment
  unary : Watches w.unary below.unary

section

variable {w : Watch.Below} {below : Below} (h : below.Follows w)

include h

theorem watches_expression : Watches (Watch.expression w) (expression below) :=
  fun c ts => h.assignment (c.within .expression) ts

theorem follows_blockStatements :
    Follows (Watch.blockStatements w c turns) ts (blockStatements below c turns ts) := by
  induction turns generalizing ts with
  | nil =>
    unfold Watch.blockStatements blockStatements
    refine .look (.ite (fun hs => .take_of hs (by simp) fun _ => .pure) fun _ => ?_)
    exact .look (.ite (fun _ => .fail) fun _ => .fail)
  | cons _ turns ih =>
    unfold Watch.blockStatements blockStatements
    refine .look (.ite (fun hs => .take_of hs (by simp) fun _ => .pure) fun _ => ?_)
    refine .look (.ite (fun _ => .fail) fun _ => .look ?_)
    refine .bind (h.statement c ts) fun s rest hrest => ?_
    refine .bindUnit (follows_terminator hrest) fun rest _ => ?_
    exact .bind ih fun _ _ _ => .pure

theorem watches_block : Watches (Watch.block w) (block below) := by
  intro c ts
  refine .bindUnit (follows_consume (by simp)) fun rest _ => ?_
  refine .andThen follows_skipSemicolons (.look ?_)
  exact follows_blockStatements h

theorem watches_functionRest (name : Option String) (pos : Position) :
    Watches (Watch.functionRest w name pos) (functionRest below name pos) := by
  intro c ts
  refine .bindUnit (follows_consume (by simp)) fun rest _ => ?_
  refine .bind (watches_list watches_param _ c rest) fun params rest _ => ?_
  refine .bind (watches_typing? c rest) fun returns rest _ => ?_
  refine .look (.ite (fun _ => ?_) fun _ => ?_)
  · exact .bind (watches_block h _ rest) fun _ _ _ => .pure
  · exact .bind (watches_expression h _ rest) fun _ _ _ => .pure

def members (x : List Param × List FunctionDecl × List Token) :
    (List Param × List FunctionDecl) × List Token := ((x.1, x.2.1), x.2.2)

theorem follows_classMembers :
    Follows (Watch.classMembers w c turns) ts (members <$> classMembers below c turns ts) := by
  induction turns generalizing ts with
  | nil =>
    unfold Watch.classMembers classMembers
    refine .andThen follows_skipSemicolons (.look ?_)
    generalize skipSemicolons ts = ts
    dsimp only
    rw [apply_ite (Functor.map members), apply_ite (Functor.map members), map_bind, map_bind]
    refine .ite (fun hs => .take_of hs (by simp) fun _ => .pure) fun _ => ?_
    refine .look (.ite (fun hs => ?_) fun _ => ?_)
    · cases ts with
      | nil => cases hs
      | cons t rest =>
        refine .first (.bind (watches_readName _ _) fun name rest _ => ?_)
        dsimp only
        rw [map_bind]
        exact .bind (watches_functionRest h _ _ _ rest) fun _ _ _ => .fail
    · exact .bind (watches_param _ ts) fun _ _ _ => .fail
  | cons _ turns ih =>
    unfold Watch.classMembers classMembers
    refine .andThen follows_skipSemicolons (.look ?_)
    generalize skipSemicolons ts = ts
    dsimp only
    rw [apply_ite (Functor.map members), apply_ite (Functor.map members), map_bind, map_bind]
    refine .ite (fun hs => .take_of hs (by simp) fun _ => .pure) fun _ => ?_
    refine .look (.ite (fun hs => ?_) fun _ => ?_)
    · cases ts with
      | nil => cases hs
      | cons t rest =>
        refine .first (.bind (watches_readName _ _) fun name rest _ => ?_)
        dsimp only
        rw [map_bind]
        refine .bind (watches_functionRest h _ _ _ rest) fun method rest _ => ?_
        dsimp only
        rw [map_bind]
        exact .bind_map ih fun _ _ => .pure
    · refine .bind (watches_param _ ts) fun property rest _ => ?_
      dsimp only
      rw [map_bind]
      exact .bind_map ih fun _ _ => .pure

theorem watches_classRest (name : Option String) (pos : Position) :
    Watches (Watch.classRest w name pos) (classRest below name pos) := by
  intro c ts
  refine .bindUnit (follows_consume (by simp)) fun rest _ => ?_
  refine .look ?_
  exact .bind_map (follows_classMembers h) fun _ _ => .pure

theorem watches_namespaceRest (name : Option String) (pos : Position) :
    Watches (Watch.namespaceRest w name pos) (namespaceRest below name pos) :=
  fun _ ts => .bind (watches_block h _ ts) fun _ _ _ => .pure

/-! ## Expressions -/

theorem watches_field : Watches (Watch.field w) (field below) := by
  intro c ts
  refine .look ?_
  rcases ts with _ | ⟨⟨kind, p⟩, rest⟩
  · exact .fail
  · cases kind with
    | name key | string key =>
      refine .take (by simp) ?_
      refine .bindUnit (follows_consume (by simp)) fun rest _ => ?_
      exact .bind (watches_expression h c rest) fun _ _ _ => .pure
    | _ => exact .fail

theorem watches_primary : Watches (Watch.primary w) (primary below) := by
  intro c ts
  refine .look ?_
  rcases ts with _ | ⟨⟨kind, pos⟩, rest⟩
  · exact .fail
  · cases kind with
    | number x => exact .take (by simp) .pure
    | string s => exact .take (by simp) .pure
    | name s =>
      refine .look (.ite (fun _ => ?_) fun _ => .take (by simp) .pure)
      refine .take (by simp) ?_
      refine .andThen follows_readName? ?_
      exact .bind (watches_namespaceRest h _ _ _ _) fun _ _ _ => .pure
    | keyword word =>
      cases word with
      | trueWord => exact .take (by simp) .pure
      | falseWord => exact .take (by simp) .pure
      | nilWord => exact .take (by simp) .pure
      | funcWord =>
        refine .take (by simp) ?_
        refine .andThen follows_readName? ?_
        exact .bind (watches_functionRest h _ _ _ _) fun _ _ _ => .pure
      | classWord =>
        refine .take (by simp) ?_
        refine .andThen follows_readName? ?_
        exact .bind (watches_classRest h _ _ _ _) fun _ _ _ => .pure
      | importWord =>
        refine .take (by simp) ?_
        refine .bindUnit (follows_consume (by simp)) fun rest _ => ?_
        refine .bind (watches_expression h _ rest) fun e rest _ => ?_
        exact .bindUnit (follows_consume (by simp)) fun _ _ => .pure
      | _ => exact .fail
    | mark m =>
      cases m with
      | leftParen =>
        refine .take (by simp) ?_
        refine .bind (watches_expression h _ rest) fun e rest _ => ?_
        exact .bindUnit (follows_consume (by simp)) fun _ _ => .pure
      | leftBracket =>
        refine .take (by simp) ?_
        exact .bind (watches_list (watches_expression h) _ _ rest) fun _ _ _ => .pure
      | leftBrace =>
        refine .take (by simp) ?_
        exact .bind (watches_list (watches_field h) _ _ rest) fun _ _ _ => .pure
      | _ => exact .fail
    | _ => exact .fail

theorem follows_postfixes {e : Expr} :
    Follows (Watch.postfixes w c turns e) ts (postfixes below c turns e ts) := by
  induction turns generalizing e ts with
  | nil => exact .pure
  | cons _ turns ih =>
    refine .look ?_
    rcases ts with _ | ⟨⟨kind, p⟩, rest⟩
    · exact .pure
    · cases kind with
      | mark m =>
        cases m with
        | leftParen =>
          refine .take (by simp) ?_
          exact .bind (watches_list (watches_expression h) _ _ rest) fun _ _ _ => ih
        | dot =>
          refine .take (by simp) ?_
          exact .bind (watches_readName c rest) fun _ _ _ => ih
        | leftBracket =>
          refine .take (by simp) ?_
          refine .bind (watches_expression h _ rest) fun key rest _ => ?_
          exact .bindUnit (follows_consume (by simp)) fun _ _ => ih
        | _ => exact .pure
      | _ => exact .pure

theorem watches_call : Watches (Watch.call w) (call below) :=
  fun c ts => .bind (watches_primary h c ts) fun _ _ _ => .look (follows_postfixes h)

theorem watches_power : Watches (Watch.power w) (power below) := by
  intro c ts
  refine .bind (watches_call h c ts) fun base rest _ => ?_
  refine .look (.ite (fun hs => ?_) fun _ => .pure)
  refine .take_of hs (by simp) fun _ => ?_
  exact .bind (h.unary c rest.tail) fun _ _ _ => .pure

omit h in
theorem ne_eof_of_eq_some {f : Token.Kind → Option α} (hf : f .eof = none) {kind : Token.Kind}
    (ha : f kind = some a) : kind ≠ .eof := by
  rintro rfl
  rw [hf] at ha
  cases ha

theorem watches_unaryBody : Watches (Watch.unaryBody w) (unaryBody below) := by
  intro c ts
  unfold Watch.unaryBody unaryBody
  refine .look ?_
  rcases ts with _ | ⟨⟨kind, pos⟩, rest⟩
  · exact watches_power h c []
  · dsimp only [List.head?_cons, Option.bind_some]
    cases hop : prefixOp? kind with
    | none => exact watches_power h c _
    | some op =>
      refine .first ?_
      refine .take (ne_eof_of_eq_some rfl hop) ?_
      exact .bind (h.unary _ rest) fun _ _ _ => .pure

omit h in
theorem follows_binaryChain {operators : Operators} (hops : operators .eof = none)
    {operand : Context → Watch Expr} {parse : Parse Expr} (hoperand : Watches operand parse)
    {left : Expr} :
    Follows (Watch.binaryChain operators operand c turns left) ts
      (binaryChain operators parse c turns left ts) := by
  induction turns generalizing left ts with
  | nil => exact .pure
  | cons _ turns ih =>
    unfold Watch.binaryChain binaryChain
    refine .look ?_
    cases ts with
    | nil => exact .pure
    | cons t rest =>
      dsimp only [List.head?_cons, Option.bind_some]
      cases hop : operators t.kind with
      | none => exact .pure
      | some op =>
        refine .take (ne_eof_of_eq_some hops hop) ?_
        exact .bind (hoperand c rest) fun _ _ _ => ih

omit h in
theorem watches_binaryLevel {operators : Operators} (hops : operators .eof = none)
    {operand : Context → Watch Expr} {parse : Parse Expr} (hoperand : Watches operand parse) :
    Watches (Watch.binaryLevel operators operand) (binaryLevel operators parse) :=
  fun c ts => .bind (hoperand c ts) fun _ _ _ => .look (follows_binaryChain hops hoperand)

omit h in
/-- The end of the file is no operator. -/
theorem operatorLevels_eof : ∀ operators ∈ operatorLevels, operators .eof = none := by
  simp [operatorLevels, coalesceOps, orOps, andOps, equalityOps, relationalOps, additiveOps,
    multiplicativeOps]

theorem watches_binaryExpr : Watches (Watch.binaryExpr w) (binaryExpr below) := by
  unfold Watch.binaryExpr binaryExpr
  have hlevels := operatorLevels_eof
  generalize operatorLevels = levels at hlevels
  induction levels with
  | nil => exact h.unary
  | cons operators levels ih =>
    rw [List.forall_mem_cons] at hlevels
    exact watches_binaryLevel hlevels.1 (ih hlevels.2)

theorem watches_assignmentBody : Watches (Watch.assignmentBody w) (assignmentBody below) := by
  intro c ts
  refine .bind (watches_binaryExpr h c ts) fun target rest _ => ?_
  refine .look ?_
  rcases rest with _ | ⟨⟨kind, p⟩, rest⟩
  · exact .pure
  · cases kind with
    | assign sign =>
      refine .ite (fun _ => ?_) fun _ => .fail
      refine .take (by simp) ?_
      exact .bind (h.assignment _ rest) fun _ _ _ => .pure
    | _ => exact .pure

/-! ## Statements -/

theorem watches_destructuring (q : Qualifier) (exported : Bool) (pos : Position) :
    Watches (Watch.destructuring w q exported pos) (destructuring below q exported pos) := by
  intro c ts
  refine .bind (watches_list watches_param _ c ts) fun targets rest _ => ?_
  refine .bindUnit (follows_consume (by simp)) fun rest _ => ?_
  exact .bind (watches_expression h c rest) fun _ _ _ => .pure

theorem watches_declaredName (q : Qualifier) (exported : Bool) (pos : Position) :
    Watches (Watch.declaredName w q exported pos) (declaredName below q exported pos) := by
  intro c ts
  refine .bind (watches_readName c ts) fun name rest _ => ?_
  refine .bind (watches_typing? c rest) fun typing rest _ => ?_
  refine .look (.ite (fun hs => ?_) fun _ => .ite (fun _ => .fail) fun _ => .pure)
  refine .take_of hs (by simp) fun _ => ?_
  exact .bind (watches_expression h c rest.tail) fun _ _ _ => .pure

def declared (ts : List Token) (o : Option (Stmt × List Token)) : Option Stmt × List Token :=
  (o.map Prod.fst, (o.map Prod.snd).getD ts)

omit h in
theorem Follows.some_declared {v : Watch Stmt} {x : Except SyntaxError (Stmt × List Token)}
    (hv : Follows v rest x) :
    Follows (do let s ← v; return some s) rest (declared ts <$> some <$> x) := by
  rw [Functor.map_map, map_eq_pure_bind]
  exact .bind hv fun _ _ _ => .pure

theorem follows_declaration? (exported : Bool) (pos : Position) :
    Follows (Watch.declaration? w exported pos c) ts
      (declared ts <$> declaration? below exported pos c ts) := by
  unfold Watch.declaration? declaration?
  refine .look ?_
  rcases ts with _ | ⟨⟨kind, here⟩, rest⟩
  · exact .look .pure
  · dsimp only [List.head?_cons, Option.bind_some]
    cases hq : qualifier? kind with
    | some q =>
      refine .take (ne_eof_of_eq_some rfl hq) (.look ?_)
      dsimp only
      rw [apply_ite (Functor.map (declared _))]
      refine .ite (fun hs => ?_) fun _ => ?_
      · exact .take_of hs (by simp) fun _ => .some_declared (watches_destructuring h _ _ _ _ _)
      · exact .some_declared (watches_declaredName h _ _ _ _ _)
    | none =>
      refine .look ?_
      dsimp only [Watch.declared?]
      cases hname : startsWithName rest with
      | false => exact .pure
      | true =>
        simp only [Bool.not_true, Bool.false_eq_true, ↓reduceIte]
        cases kind with
        | keyword word =>
          cases word with
          | funcWord =>
            refine .first (.take (by simp) ?_)
            dsimp only
            rw [map_bind]
            refine .bind (watches_readName _ rest) fun name rest _ => ?_
            dsimp only
            rw [map_bind]
            exact .bind (watches_functionRest h _ _ _ rest) fun _ _ _ => .pure
          | classWord =>
            refine .first (.take (by simp) ?_)
            dsimp only
            rw [map_bind]
            refine .bind (watches_readName _ rest) fun name rest _ => ?_
            dsimp only
            rw [map_bind]
            exact .bind (watches_classRest h _ _ _ rest) fun _ _ _ => .pure
          | _ => exact .pure
        | name s =>
          refine .look ?_
          dsimp only
          rw [apply_ite (Functor.map (declared _)), map_bind]
          refine .ite (fun _ => ?_) fun _ => .pure
          refine .first (.take (by simp) ?_)
          refine .bind (watches_readName _ rest) fun name rest _ => ?_
          dsimp only
          rw [map_bind]
          exact .bind (watches_namespaceRest h _ _ _ rest) fun _ _ _ => .pure
        | _ => exact .pure

/-- A declaration, or else what may be there in its place. -/
theorem follows_declarationOr {exported : Bool} {pos : Position} {k : Option Stmt → Watch β}
    {f : Option (Stmt × List Token) → Except SyntaxError (β × List Token)}
    (hsome : ∀ s rest, Follows (k (some s)) rest (f (some (s, rest))))
    (hnone : Follows (k none) ts (f none)) :
    Follows (Watch.declaration? w exported pos c >>= k) ts
      (declaration? below exported pos c ts >>= f) := by
  refine .bind_map (follows_declaration? h exported pos) fun o _ => ?_
  cases o with
  | some found => exact hsome found.1 found.2
  | none => exact hnone

omit h in
def WatchesAgain (v : Option (Position → Context → Watch Stmt))
    (again : Option (Position → Parse Stmt)) : Prop :=
  Option.Rel (fun v p => ∀ pos, Watches (v pos) (p pos)) v again

theorem watches_elseRest {v : Option (Position → Context → Watch Stmt)}
    {again : Option (Position → Parse Stmt)} (hv : WatchesAgain v again) :
    Watches (Watch.elseRest w v) (elseRest below again) := by
  intro c ts
  unfold Watch.elseRest elseRest
  refine .look ?_
  cases ts with
  | nil => exact .fail
  | cons t rest =>
    cases hv with
    | none => exact .bind (watches_block h c _) fun _ _ _ => .pure
    | some hagain =>
      dsimp only [List.head?_cons]
      cases hs : isKind (.keyword .ifWord) t.kind with
      | false => exact .bind (watches_block h c _) fun _ _ _ => .pure
      | true =>
        have hne : t.kind ≠ .eof := by simp [isKind_eq hs]
        refine .take hne ?_
        exact hagain t.pos c rest

theorem watches_ifBranch {v : Option (Position → Context → Watch Stmt)}
    {again : Option (Position → Parse Stmt)} (hv : WatchesAgain v again) (pos : Position) :
    Watches (Watch.ifBranch w v pos) (ifBranch below again pos) := by
  intro c ts
  refine .bind (watches_expression h _ ts) fun condition rest _ => ?_
  refine .bind (watches_block h _ rest) fun body rest _ => ?_
  refine .look (.ite (fun hs => ?_) fun _ => .pure)
  refine .take_of hs (by simp) fun _ => ?_
  exact .bind (watches_elseRest h hv _ rest.tail) fun _ _ _ => .pure

theorem watches_ifRest (turns : List Token) (pos : Position) :
    Watches (Watch.ifRest w turns pos) (ifRest below turns pos) := by
  induction turns generalizing pos with
  | nil => exact watches_ifBranch h .none pos
  | cons _ turns ih => exact watches_ifBranch h (.some ih) pos

theorem watches_whileRest (pos : Position) :
    Watches (Watch.whileRest w pos) (whileRest below pos) := by
  intro c ts
  refine .bind (watches_expression h _ ts) fun condition rest _ => ?_
  exact .bind (watches_block h _ rest) fun _ _ _ => .pure

theorem watches_forRest (pos : Position) :
    Watches (Watch.forRest w pos) (forRest below pos) := by
  intro c ts
  refine .bind (watches_readName _ ts) fun item rest _ => ?_
  refine .bindUnit (follows_consume (by simp)) fun rest _ => ?_
  refine .bind (watches_expression h _ rest) fun iterable rest _ => ?_
  exact .bind (watches_block h _ rest) fun _ _ _ => .pure

/-- A `return` is read where its word is. -/
theorem follows_returnStatement {pos p : Position} :
    Follows (Watch.returnStatement w pos c) (⟨.keyword .returnWord, p⟩ :: rest)
      (returnStatement below pos c (⟨.keyword .returnWord, p⟩ :: rest)) := by
  refine .ite (fun _ => .fail) fun _ => ?_
  refine .take (by simp) (.look (.ite (fun _ => .pure) fun _ => ?_))
  exact .bind (watches_expression h _ rest) fun _ _ _ => .pure

theorem watches_statementBody : Watches (Watch.statementBody w) (statementBody below) := by
  intro c ts
  refine .look ?_
  rcases ts with _ | ⟨⟨kind, pos⟩, rest⟩
  · exact .fail
  · cases kind with
    | keyword word =>
      cases word with
      | exportWord =>
        refine .ite (fun _ => .fail) fun _ => ?_
        refine .take (by simp) ?_
        exact follows_declarationOr h (fun _ _ => .pure) .fail
      | ifWord => exact .take (by simp) (.look (watches_ifRest h rest pos _ rest))
      | whileWord => exact .take (by simp) (watches_whileRest h pos _ rest)
      | forWord => exact .take (by simp) (watches_forRest h pos _ rest)
      | returnWord => exact follows_returnStatement h
      | breakWord => exact .ite (fun _ => .take (by simp) .pure) fun _ => .fail
      | continueWord => exact .ite (fun _ => .take (by simp) .pure) fun _ => .fail
      | _ =>
        refine follows_declarationOr h (fun _ _ => .pure) ?_
        exact .bind (watches_expression h _ _) fun _ _ _ => .pure
    | _ =>
      refine follows_declarationOr h (fun _ _ => .pure) ?_
      exact .bind (watches_expression h _ _) fun _ _ _ => .pure

end

/-! ## Programs -/

theorem follows_withLevels (n : Nat) : (withLevels n).Follows (Watch.withLevels n) := by
  induction n with
  | zero => exact ⟨fun _ _ => .fail, fun _ _ => .fail, fun _ _ => .fail⟩
  | succ n ih => exact ⟨watches_statementBody ih, watches_assignmentBody ih, watches_unaryBody ih⟩

def FollowsTo (v : Watch α) (ts : List Token) (x : Except SyntaxError α) : Prop :=
  ∃ r, Follows v ts r ∧ Prod.fst <$> r = x

namespace FollowsTo

variable {v : Watch α} {k : α → Watch β} {x : Except SyntaxError α}

theorem pure : FollowsTo (Pure.pure a) ts (.ok a) := ⟨_, .pure, rfl⟩

theorem look {f : List Token → α} {y : Except SyntaxError β} (h : FollowsTo (k (f ts)) ts y) :
    FollowsTo (Watch.look f >>= k) ts y := by
  obtain ⟨r, hr, hy⟩ := h
  exact ⟨r, .look hr, hy⟩

theorem ite {p : Prop} [Decidable p] {u v : Watch α} {x y : Except SyntaxError α}
    (hu : p → FollowsTo u ts x) (hv : ¬p → FollowsTo v ts y) :
    FollowsTo (if p then u else v) ts (if p then x else y) := by
  split
  next h => exact hu h
  next h => exact hv h

theorem bind_map {g : γ → α × List Token} {x : Except SyntaxError γ}
    {f : γ → Except SyntaxError β} (h : Follows v ts (g <$> x))
    (hk : ∀ y, MayTake ts (g y).2 → FollowsTo (k (g y).1) (g y).2 (f y)) :
    FollowsTo (v >>= k) ts (x >>= f) := by
  cases x with
  | error e => exact ⟨.error e, h.bind_error, rfl⟩
  | ok y =>
    obtain ⟨r, hr, hx⟩ := hk y h.mayTake
    exact ⟨r, .andThen h hr, hx⟩

theorem map (h : FollowsTo v ts x) (f : α → β) :
    FollowsTo (do let a ← v; return f a) ts (do let a ← x; return f a) := by
  obtain ⟨r, hr, rfl⟩ := h
  refine ⟨r >>= fun y => .ok (f y.1, y.2), .bind hr fun _ _ _ => .pure, ?_⟩
  cases r with
  | error e => rfl
  | ok y => rfl

end FollowsTo

theorem followsTo_programStatements {w : Watch.Below} {below : Below} (h : below.Follows w)
    (c : Context) (turns ts : List Token) :
    FollowsTo (Watch.programStatements w c turns) ts (programStatements below c turns ts) := by
  induction turns generalizing ts with
  | nil =>
    unfold Watch.programStatements programStatements
    exact .look (.ite (fun _ => .pure) fun _ => .pure)
  | cons _ turns ih =>
    unfold Watch.programStatements programStatements
    refine .look (.ite (fun _ => .pure) fun _ => .look ?_)
    refine .bind_map (g := id) (by rw [id_map]; exact h.statement c ts) fun y hy => ?_
    refine .bind_map (follows_terminator hy) fun rest _ => ?_
    exact (ih rest).map (y.1 :: ·)

theorem followsTo_program (ts : List Token) : FollowsTo Watch.program ts (program ts) := by
  obtain ⟨r, hr, hx⟩ := followsTo_programStatements (follows_withLevels maxNesting)
    ⟨[.program], []⟩ (skipSemicolons ts) (skipSemicolons ts)
  exact ⟨r, .andThen follows_skipSemicolons (.look hr), hx⟩

theorem exists_eof_of_tokenize {source file : String} (h : Token.tokenize source file = .ok ts) :
    ∃ t ∈ ts, t.kind = .eof := by
  obtain ⟨first, cut, lexed, rest, hp, hno⟩ := Token.exists_partition file source.toList
  cases rest with
  | nil =>
    rw [hp.tokenize_done] at h
    cases h
    exact ⟨_, List.mem_append_right _ (List.mem_singleton_self _), rfl⟩
  | cons ch rest =>
    rw [hp.tokenize_stop hno] at h
    cases h

/-- What is left of tokens with an end of the file is never empty, because it is never taken. -/
theorem MayTake.ne_nil (h : MayTake ts rest) (heof : ∃ t ∈ ts, t.kind = .eof) : rest ≠ [] := by
  obtain ⟨used, rfl, hused⟩ := h.exists_append
  obtain ⟨t, ht, hk⟩ := heof
  rintro rfl
  rw [List.append_nil] at ht
  exact hused t ht hk

/-- The tokens of a program, whatever they are, are read from the front. No rule asks for a place
    past their end, what it sees is what is left of them, and it takes no end of the file. The
    tokens of a text have one, so there is always a token left, and an error is at the first one
    that was not taken. -/
theorem program_reads_only_its_tokens (ts : List Token) :
    (Watch.program ts).result.map (Except.map Prod.fst) = some (program ts) ∧
    (∀ u ∈ (Watch.program ts).seen, u <:+ ts) ∧
    (Watch.program ts).taken <+: ts ∧ (∀ t ∈ (Watch.program ts).taken, t.kind ≠ .eof) ∧
    ∀ source file, Token.tokenize source file = .ok ts →
      (∀ u ∈ (Watch.program ts).seen, u ≠ []) ∧
      ∀ e, program ts = .error e → ∃ t rest, ts = (Watch.program ts).taken ++ t :: rest ∧
        e.pos = t.pos ∧ e.found = t.kind := by
  obtain ⟨r, hr, hx⟩ := followsTo_program ts
  obtain ⟨u, hu, hleft⟩ := hr.left
  refine ⟨?_, ?_, ⟨u, hu.symm⟩, hr.taken, fun source file htokens => ⟨?_, ?_⟩⟩
  · rw [hr.result, ← hx]
    rfl
  · intro v hv
    obtain ⟨used, hused, -⟩ := (hr.seen v hv).exists_append
    exact ⟨used, hused.symm⟩
  · exact fun v hv => (hr.seen v hv).ne_nil (exists_eof_of_tokenize htokens)
  · intro e he
    have hmay : MayTake ts u := by
      conv => arg 1; rw [hu]
      exact mayTake_append hr.taken u
    obtain ⟨t, rest, rfl⟩ := List.exists_cons_of_ne_nil
      (hmay.ne_nil (exists_eof_of_tokenize htokens))
    rw [← hx] at he
    cases hleft with
    | ok => cases he
    | error =>
      cases he
      exact ⟨t, rest, hu, rfl, rfl⟩

/-- A list that is left open has its error at the end of the file, which is still there. -/
theorem an_open_list_fails_at_the_end : ∃ ts e t rest,
    Token.tokenize "let xs = [nil, " "a" = .ok ts ∧ program ts = .error e ∧
    (Watch.program ts).taken.length = 6 ∧ ts = (Watch.program ts).taken ++ t :: rest ∧
    e.pos = t.pos ∧ e.found = t.kind := by
  have hrun : ((Token.tokenize "let xs = [nil, " "a").toOption.any fun ts =>
      !(program ts).toOption.isSome && (Watch.program ts).taken.length == 6) = true := by
    decide +kernel
  rcases hts : Token.tokenize "let xs = [nil, " "a" with _ | ts <;> rw [hts] at hrun
  · cases hrun
  · have hrun := Bool.and_eq_true_iff.1 hrun
    rcases he : program ts with e | p <;> rw [he] at hrun
    · obtain ⟨t, rest, ht, hpos, hfound⟩ :=
        ((program_reads_only_its_tokens ts).2.2.2.2 _ _ hts).2 e he
      exact ⟨ts, e, t, rest, rfl, he, beq_iff_eq.1 hrun.2, ht, hpos, hfound⟩
    · cases hrun.1

end TinyScript.Grammar

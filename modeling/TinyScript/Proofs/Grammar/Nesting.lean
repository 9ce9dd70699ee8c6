/-
  TinyScript.Proofs.Grammar.Nesting — how deep a program is.

  A way down a program goes from a statement or an expression to a part of it, and on to a part of
  that (`Way`). Some parts only carry on what they are part of: the statement after `else`, the left
  operand of an operator, and what is called or has the member or the element that is asked for.
  These are `chained`, and all others are `inner`.

  Of what is read, no way meets more than `maxNesting` inner statements, and at most eight times as
  many inner expressions: one for each level of binary operators and one more
  (`counted_nesting_le`). The chained ones are not counted while they are read, so there is no
  limit to them (`chains_exceed_the_nesting`).
-/

import TinyScript.Proofs.Grammar.Completeness
import TinyScript.Proofs.Grammar.Deriving

namespace TinyScript

open TinyScript.Text

variable {pos : Position} {e : Expr} {s : Stmt}

/-! ## Ways down a program -/

inductive Node where
  | stmt (s : Stmt)
  | expr (e : Expr)

inductive Link where
  | inner | chained
  deriving DecidableEq

def Node.isStmt : Node → Bool
  | stmt _ => true
  | expr _ => false

def innerStmts (ss : List Stmt) : List (Link × Node) := ss.map fun s => (.inner, .stmt s)

def innerExprs (es : List Expr) : List (Link × Node) := es.map fun e => (.inner, .expr e)

def ClassDecl.statements (d : ClassDecl) : List Stmt := d.methods.flatMap (·.body)

def Expr.children : Expr → List (Link × Node)
  | name .. | literal .. => []
  | group _ e | unary _ _ e | importFrom _ e => innerExprs [e]
  | array _ es => innerExprs es
  | object _ fs => innerExprs (fs.map (·.2))
  | binary _ _ l r => (.chained, .expr l) :: innerExprs [r]
  | assign _ _ t v => innerExprs [t, v]
  | call _ f args => (.chained, .expr f) :: innerExprs args
  | member _ e _ => [(.chained, .expr e)]
  | index _ e k => (.chained, .expr e) :: innerExprs [k]
  | function _ d => innerStmts d.body
  | classDef _ d => innerStmts d.statements
  | namespaceDef _ d => innerStmts d.body

def Stmt.children : Stmt → List (Link × Node)
  | expr _ e | destructure _ _ _ e _ => innerExprs [e]
  | declare _ _ _ _ e _ | returnValue _ e => innerExprs e.toList
  | function _ d _ => innerStmts d.body
  | classDef _ d _ => innerStmts d.statements
  | namespaceDef _ d _ => innerStmts d.body
  | ifElse _ c body other =>
    innerExprs [c] ++ innerStmts body ++ other.toList.map fun s => (.chained, .stmt s)
  | whileLoop _ e body | forLoop _ _ e body => innerExprs [e] ++ innerStmts body
  | block _ body => innerStmts body
  | breakLoop _ | continueLoop _ => []

def Node.children : Node → List (Link × Node)
  | stmt s => s.children
  | expr e => e.children

inductive Way : Node → List (Link × Node) → Prop
  | stop {x : Node} : Way x []
  | down {x y : Node} {k : Link} {way : List (Link × Node)} : (k, y) ∈ x.children → Way y way →
    Way x ((k, y) :: way)

def counted (way : List (Link × Node)) : List Node := (way.filter (·.1 = .inner)).map (·.2)

def statementsOn (nodes : List Node) : Nat := nodes.countP Node.isStmt

def expressionsOn (nodes : List Node) : Nat := nodes.countP fun x => !x.isStmt

section

variable {x y : Node} {nodes : List Node} {way : List (Link × Node)}

@[simp] theorem counted_inner : counted ((.inner, y) :: way) = y :: counted way := rfl

@[simp] theorem counted_chained : counted ((.chained, y) :: way) = counted way := rfl

theorem statementsOn_cons :
    statementsOn (x :: nodes) = statementsOn nodes + if x.isStmt then 1 else 0 :=
  List.countP_cons

@[simp] theorem statementsOn_expr {e : Expr} :
    statementsOn (.expr e :: nodes) = statementsOn nodes :=
  statementsOn_cons

theorem expressionsOn_cons :
    expressionsOn (x :: nodes) = expressionsOn nodes + if x.isStmt then 0 else 1 := by
  rw [expressionsOn, List.countP_cons]
  cases x.isStmt <;> rfl

@[simp] theorem expressionsOn_expr {e : Expr} :
    expressionsOn (.expr e :: nodes) = expressionsOn nodes + 1 :=
  expressionsOn_cons

end

/-! ## Bounds for all ways from a node -/

namespace Node

variable {x y : Node} {a b a' b' n : Nat}

/-- On every way down from the node there are fewer than `a` inner statements, and no more than `b`
    inner expressions with the node itself. -/
def Within (x : Node) (a b : Nat) : Prop :=
  ∀ way, Way x way → statementsOn (counted way) < a ∧ expressionsOn (x :: counted way) ≤ b

theorem Within.mono (h : x.Within a b) (ha : a ≤ a') (hb : b ≤ b') : x.Within a' b' :=
  fun way hway => ⟨Nat.lt_of_lt_of_le (h way hway).1 ha, Nat.le_trans (h way hway).2 hb⟩

/-- Statements are chained to statements, and expressions to expressions. -/
theorem isStmt_of_chained (h : (.chained, y) ∈ x.children) : y.isStmt = x.isStmt := by
  cases x with
  | stmt s =>
    cases s with
    | ifElse =>
      simp only [children, Stmt.children, innerExprs, innerStmts, List.mem_append, List.mem_map,
        Prod.mk.injEq, reduceCtorEq, false_and, and_false, exists_false, false_or] at h
      obtain ⟨_, _, _, rfl⟩ := h
      rfl
    | _ => simp [children, Stmt.children, innerExprs, innerStmts] at h
  | expr e =>
    cases e with
    | binary | call | member | index =>
      simp only [children, Expr.children, innerExprs, List.mem_cons, List.mem_map, Prod.mk.injEq,
        reduceCtorEq, false_and, and_false, exists_false, or_false, List.not_mem_nil] at h
      obtain ⟨_, rfl⟩ := h
      rfl
    | _ => simp [children, Expr.children, innerExprs, innerStmts] at h

/-- A node whose inner parts keep to `n` levels opens one more. -/
theorem within_level (h : ∀ k y, (k, y) ∈ x.children → y.Within n (8 * n) ∨
    k = .chained ∧ y.Within (n + 1) (8 * n + 1)) : x.Within (n + 1) (8 * n + 1) := by
  intro way hway
  cases hway with
  | stop =>
    rw [expressionsOn_cons]
    refine ⟨Nat.succ_pos n, ?_⟩
    simp only [counted, expressionsOn]
    split <;> simp
  | @down _ y k way hy hway =>
    rcases h k y hy with hin | ⟨rfl, hchained⟩
    · have hle := hin way hway
      cases k with
      | inner =>
        simp only [counted_inner, statementsOn_cons, expressionsOn_cons] at hle ⊢
        grind
      | chained =>
        simp only [counted_chained, expressionsOn_cons] at hle ⊢
        grind
    · have hle := hchained way hway
      simp only [counted_chained, expressionsOn_cons, isStmt_of_chained hy] at hle ⊢
      exact hle

/-- An expression made of operands is one more than the inner ones, and none more than those that it
    carries on. -/
theorem within_operands (ha : 0 < a)
    (h : ∀ k y, (k, y) ∈ e.children →
      ∃ operand, y = expr operand ∧ y.Within a (if k = .inner then b else b + 1)) :
    (expr e).Within a (b + 1) := by
  intro way hway
  cases hway with
  | stop => exact ⟨ha, Nat.succ_le_succ (Nat.zero_le b)⟩
  | @down _ y k way hy hway =>
    obtain ⟨operand, rfl, hwithin⟩ := h k y hy
    have hle := hwithin way hway
    cases k with
    | inner =>
      rw [counted_inner, statementsOn_expr, expressionsOn_expr]
      exact ⟨hle.1, Nat.succ_le_succ hle.2⟩
    | chained =>
      rw [counted_chained, expressionsOn_expr]
      exact ⟨hle.1, expressionsOn_expr ▸ hle.2⟩

theorem within_binary {op : BinaryOp} {l r : Expr} (hl : (expr l).Within a (b + 1))
    (hr : (expr r).Within a b) :
    (expr (.binary pos op l r)).Within a (b + 1) := by
  refine within_operands (Nat.zero_lt_of_lt (hl [] .stop).1) fun k y hy => ?_
  simp only [Expr.children, innerExprs, List.map_cons, List.map_nil, List.mem_cons, Prod.mk.injEq,
    List.not_mem_nil, or_false] at hy
  rcases hy with ⟨rfl, rfl⟩ | ⟨rfl, rfl⟩
  · exact ⟨_, rfl, hl⟩
  · exact ⟨_, rfl, hr⟩

theorem within_assign {sign : AssignSign} {t v : Expr} (ht : (expr t).Within a b)
    (hv : (expr v).Within a b) :
    (expr (.assign pos sign t v)).Within a (b + 1) := by
  refine within_operands (Nat.zero_lt_of_lt (ht [] .stop).1) fun k y hy => ?_
  simp only [Expr.children, innerExprs, List.map_cons, List.map_nil, List.mem_cons, Prod.mk.injEq,
    List.not_mem_nil, or_false] at hy
  rcases hy with ⟨rfl, rfl⟩ | ⟨rfl, rfl⟩
  · exact ⟨_, rfl, ht⟩
  · exact ⟨_, rfl, hv⟩

/-- A bare expression as a body is returned by a statement that no level is opened for. The one of
    the expression counts for it. -/
theorem within_returned (h : (expr e).Within a b) :
    (stmt (.returnValue pos (some e))).Within a b := by
  intro way hway
  cases hway with
  | stop => exact ⟨(h [] .stop).1, Nat.zero_le b⟩
  | @down _ y k way hy hway =>
    simp only [children, Stmt.children, innerExprs, Option.toList_some, List.map_cons, List.map_nil,
      List.mem_singleton, Prod.mk.injEq] at hy
    obtain ⟨rfl, rfl⟩ := hy
    exact h way hway

theorem children_withName (name : String) (e : Expr) : (e.withName name).children = e.children := by
  cases e <;> rfl

theorem within_withName {name : String} (h : (expr e).Within a b) :
    (expr (e.withName name)).Within a b := by
  intro way hway
  cases hway with
  | stop => exact h [] .stop
  | down hy hway =>
    rw [Node.children, children_withName] at hy
    exact h _ (.down hy hway)

theorem within_of_inner {k : Link} {es : List Expr} (hinner : ∀ e ∈ es, (expr e).Within a b)
    (hy : (k, y) ∈ innerExprs es) : y.Within a b := by
  obtain ⟨e, he, heq⟩ := List.mem_map.1 hy
  cases heq
  exact hinner e he

theorem within_of_one {k : Link} (he : (expr e).Within a b) (hy : (k, y) ∈ innerExprs [e]) :
    y.Within a b :=
  within_of_inner (List.forall_mem_singleton.2 he) hy

theorem within_of_body {k : Link} {ss : List Stmt} (hbody : ∀ s ∈ ss, (stmt s).Within a b)
    (hy : (k, y) ∈ innerStmts ss) : y.Within a b := by
  obtain ⟨s, hs, heq⟩ := List.mem_map.1 hy
  cases heq
  exact hbody s hs

end Node

/-! ## Rules -/

namespace Grammar

open Node

variable {α : Type} {n : Nat} {c : Context} {ts rest turns : List Token}

structure Nested (n : Nat) (below : Below) : Prop where
  statement : ∀ {c : Context} {ts rest : List Token} {s : Stmt},
    below.statement c ts = .ok (s, rest) → (stmt s).Within n (8 * n)
  assignment : ∀ {c : Context} {ts rest : List Token} {e : Expr},
    below.assignment c ts = .ok (e, rest) → (expr e).Within n (8 * n)
  unary : ∀ {c : Context} {ts rest : List Token} {e : Expr},
    below.unary c ts = .ok (e, rest) → (expr e).Within n (8 * n)

theorem items_all {P : α → Prop} {close : Mark} {item : Parse α} {as : List α}
    (hitem : ∀ {c : Context} {ts rest : List Token} {a : α}, item c ts = .ok (a, rest) → P a)
    (h : items close item c turns ts = .ok (as, rest)) : ∀ a ∈ as, P a := by
  fun_induction items close item c turns ts generalizing as with
  | case1 =>
    cases h
    simp
  | case2 turns ts _ ih =>
    simp only [bind_eq_ok, Prod.exists] at h
    obtain ⟨a, left, ha, h⟩ := h
    split at h
    · cases turns with
      | nil => cases h
      | cons turn turns =>
        simp only [bind_eq_ok, Prod.exists] at h
        obtain ⟨more, left', hmore, h⟩ := h
        cases h
        exact List.forall_mem_cons.2 ⟨hitem ha, ih left hmore⟩
    · split at h
      · cases h
        simpa using hitem ha
      · cases h

section

variable {below : Below} (hb : Nested n below)
include hb

theorem expression_nested (h : expression below c ts = .ok (e, rest)) :
    (expr e).Within n (8 * n) :=
  hb.assignment h

theorem expressions_nested {close : Mark} {es : List Expr}
    (h : list close (expression below) c ts = .ok (es, rest)) :
    ∀ e ∈ es, (expr e).Within n (8 * n) :=
  items_all (expression_nested hb) h

theorem blockStatements_nested {ss : List Stmt}
    (h : blockStatements below c turns ts = .ok (ss, rest)) :
    ∀ s ∈ ss, (stmt s).Within n (8 * n) := by
  fun_induction blockStatements below c turns ts generalizing ss with
  | case1 =>
    cases h
    simp
  | case2 => cases h
  | case3 => cases h
  | case4 ts _ _ turn turns ih =>
    simp only [bind_eq_ok, Prod.exists] at h
    obtain ⟨s, left, hs, left', _, more, left'', hmore, h⟩ := h
    cases h
    exact List.forall_mem_cons.2 ⟨hb.statement hs, ih left' hmore⟩

theorem block_nested {ss : List Stmt} (h : block below c ts = .ok (ss, rest)) :
    ∀ s ∈ ss, (stmt s).Within n (8 * n) := by
  simp only [block, bind_eq_ok] at h
  obtain ⟨left, _, h⟩ := h
  exact blockStatements_nested hb h

theorem functionRest_nested {name : Option String} {d : FunctionDecl}
    (h : functionRest below name pos c ts = .ok (d, rest)) :
    ∀ s ∈ d.body, (stmt s).Within n (8 * n) := by
  simp only [functionRest, bind_eq_ok, Prod.exists] at h
  obtain ⟨left, _, params, after, _, returns, body, _, h⟩ := h
  split at h
  · simp only [bind_eq_ok, Prod.exists] at h
    obtain ⟨ss, left', hss, h⟩ := h
    cases h
    exact block_nested hb hss
  · simp only [bind_eq_ok, Prod.exists] at h
    obtain ⟨e, left', he, h⟩ := h
    cases h
    exact List.forall_mem_singleton.2 (within_returned (expression_nested hb he))

theorem classMembers_nested {properties : List Param} {methods : List FunctionDecl}
    (h : classMembers below c turns ts = .ok (properties, methods, rest)) :
    ∀ d ∈ methods, ∀ s ∈ d.body, (stmt s).Within n (8 * n) := by
  fun_induction classMembers below c turns ts generalizing properties methods with
  | case1 =>
    cases h
    simp
  | case2 =>
    rename_i turns ts _ _ _ _ ih
    simp only [bind_eq_ok, Prod.exists] at h
    obtain ⟨name, left, _, d, left', hd, h⟩ := h
    cases turns with
    | nil => cases h
    | cons turn turns =>
      simp only [bind_eq_ok, Prod.exists] at h
      obtain ⟨ps, ms, left'', hmore, h⟩ := h
      cases h
      exact List.forall_mem_cons.2 ⟨functionRest_nested hb hd, ih left' hmore⟩
  | case3 =>
    rename_i turns ts _ _ _ ih
    simp only [bind_eq_ok, Prod.exists] at h
    obtain ⟨x, left, _, h⟩ := h
    cases turns with
    | nil => cases h
    | cons turn turns =>
      simp only [bind_eq_ok, Prod.exists] at h
      obtain ⟨ps, ms, left', hmore, h⟩ := h
      cases h
      exact ih left hmore

theorem classRest_nested {name : Option String} {d : ClassDecl}
    (h : classRest below name pos c ts = .ok (d, rest)) :
    ∀ s ∈ d.statements, (stmt s).Within n (8 * n) := by
  simp only [classRest, bind_eq_ok, Prod.exists] at h
  obtain ⟨left, _, properties, methods, left', hmembers, h⟩ := h
  cases h
  intro s hs
  obtain ⟨d, hd, hs⟩ := List.mem_flatMap.1 hs
  exact classMembers_nested hb hmembers d hd s hs

theorem namespaceRest_nested {name : Option String} {d : NamespaceDecl}
    (h : namespaceRest below name pos c ts = .ok (d, rest)) :
    ∀ s ∈ d.body, (stmt s).Within n (8 * n) := by
  simp only [namespaceRest, bind_eq_ok, Prod.exists] at h
  obtain ⟨body, left, hbody, h⟩ := h
  cases h
  exact block_nested hb hbody

theorem field_nested {f : String × Expr} (h : field below c ts = .ok (f, rest)) :
    (expr f.2).Within n (8 * n) := by
  unfold field at h
  dsimp only at h
  split at h
  · simp only [bind_eq_ok, Prod.exists] at h
    obtain ⟨left, _, e, left', he, h⟩ := h
    cases h
    exact expression_nested hb he
  · simp only [bind_eq_ok, Prod.exists] at h
    obtain ⟨left, _, e, left', he, h⟩ := h
    cases h
    exact expression_nested hb he
  · cases h

/-! ### Expressions -/

theorem primary_nested (h : primary below c ts = .ok (e, rest)) :
    (expr e).Within (n + 1) (8 * n + 1) := by
  refine within_level fun k y hy => .inl ?_
  unfold primary at h
  dsimp only at h
  split at h
  next => cases h
  next =>
    split at h
    next => cases h; cases hy
    next => cases h; cases hy
    next => cases h; cases hy
    next => cases h; cases hy
    next => cases h; cases hy
    next =>
      split at h
      · simp only [bind_eq_ok, Prod.exists] at h
        obtain ⟨d, left, hd, h⟩ := h
        cases h
        exact within_of_body (namespaceRest_nested hb hd) hy
      · cases h
        cases hy
    next =>
      simp only [bind_eq_ok, Prod.exists] at h
      obtain ⟨inner, left, he, left', _, h⟩ := h
      cases h
      exact within_of_one (expression_nested hb he) hy
    next =>
      simp only [bind_eq_ok, Prod.exists] at h
      obtain ⟨es, left, hes, h⟩ := h
      cases h
      exact within_of_inner (expressions_nested hb hes) hy
    next =>
      simp only [bind_eq_ok, Prod.exists] at h
      obtain ⟨fs, left, hfs, h⟩ := h
      cases h
      refine within_of_inner (List.forall_mem_map.2 fun f hf => ?_) hy
      exact items_all (field_nested hb) hfs f hf
    next =>
      simp only [bind_eq_ok, Prod.exists] at h
      obtain ⟨d, left, hd, h⟩ := h
      cases h
      exact within_of_body (functionRest_nested hb hd) hy
    next =>
      simp only [bind_eq_ok, Prod.exists] at h
      obtain ⟨d, left, hd, h⟩ := h
      cases h
      exact within_of_body (classRest_nested hb hd) hy
    next =>
      simp only [bind_eq_ok, Prod.exists] at h
      obtain ⟨left, _, e, left', he, left'', _, h⟩ := h
      cases h
      exact within_of_one (expression_nested hb he) hy
    next => cases h

/-- What a postfix is put to is chained to it. -/
theorem postfixes_nested {e found : Expr} (h : postfixes below c turns e ts = .ok (found, rest))
    (he : (expr e).Within (n + 1) (8 * n + 1)) : (expr found).Within (n + 1) (8 * n + 1) := by
  fun_induction postfixes below c turns e ts with
  | case1 =>
    cases h
    exact he
  | case2 turn turns e p ts ih =>
    simp only [bind_eq_ok, Prod.exists] at h
    obtain ⟨args, left, hargs, h⟩ := h
    refine ih args left h (within_level fun k y hy => ?_)
    rcases List.mem_cons.1 hy with heq | hy
    · cases heq
      exact .inr ⟨rfl, he⟩
    · exact .inl (within_of_inner (expressions_nested hb hargs) hy)
  | case3 turn turns e p ts ih =>
    simp only [bind_eq_ok, Prod.exists] at h
    obtain ⟨name, left, _, h⟩ := h
    refine ih name left h (within_level fun k y hy => ?_)
    cases List.mem_singleton.1 hy
    exact .inr ⟨rfl, he⟩
  | case4 =>
    rename_i ih
    simp only [bind_eq_ok, Prod.exists] at h
    obtain ⟨key, left, hkey, left', _, h⟩ := h
    refine ih key left' h (within_level fun k y hy => ?_)
    rcases List.mem_cons.1 hy with heq | hy
    · cases heq
      exact .inr ⟨rfl, he⟩
    · exact .inl (within_of_one (expression_nested hb hkey) hy)
  | case5 =>
    cases h
    exact he

theorem call_nested (h : call below c ts = .ok (e, rest)) :
    (expr e).Within (n + 1) (8 * n + 1) := by
  simp only [call, bind_eq_ok, Prod.exists] at h
  obtain ⟨first, left, hfirst, h⟩ := h
  exact postfixes_nested hb h (primary_nested hb hfirst)

theorem power_nested (h : power below c ts = .ok (e, rest)) :
    (expr e).Within (n + 1) (8 * n + 1) := by
  simp only [power, bind_eq_ok, Prod.exists] at h
  obtain ⟨base, left, hbase, h⟩ := h
  split at h
  · simp only [bind_eq_ok, Prod.exists] at h
    obtain ⟨exponent, left', hexponent, h⟩ := h
    cases h
    exact within_binary (call_nested hb hbase)
      ((hb.unary hexponent).mono (Nat.le_succ n) (Nat.le_refl _))
  · cases h
    exact call_nested hb hbase

theorem unaryBody_nested (h : unaryBody below c ts = .ok (e, rest)) :
    (expr e).Within (n + 1) (8 * (n + 1)) := by
  refine Within.mono ?_ (Nat.le_refl _) (b := 8 * n + 1) (by omega)
  unfold unaryBody at h
  split at h
  · split at h
    · simp only [bind_eq_ok, Prod.exists] at h
      obtain ⟨operand, left, hoperand, h⟩ := h
      cases h
      exact within_level fun k y hy => .inl (within_of_one (hb.unary hoperand) hy)
    · exact power_nested hb h
  · exact power_nested hb h

omit hb in
/-- A chain goes no deeper than its first operand, and one step deeper than the others. -/
theorem binaryChain_nested {a b : Nat} {operators : Operators} {operand : Parse Expr}
    {left found : Expr}
    (hoperand : ∀ {c : Context} {ts rest : List Token} {e : Expr},
      operand c ts = .ok (e, rest) → (expr e).Within a b)
    (h : binaryChain operators operand c turns left ts = .ok (found, rest))
    (hleft : (expr left).Within a (b + 1)) : (expr found).Within a (b + 1) := by
  fun_induction binaryChain operators operand c turns left ts with
  | case1 =>
    cases h
    exact hleft
  | case2 turn turns left t more op _ ih =>
    simp only [bind_eq_ok, Prod.exists] at h
    obtain ⟨right, after, hright, h⟩ := h
    exact ih right after h (within_binary hleft (hoperand hright))
  | case3 =>
    cases h
    exact hleft
  | case4 =>
    cases h
    exact hleft

omit hb in
/-- Each level of binary operators is a step. -/
theorem levels_nested {a b : Nat} {operand : Parse Expr} (levels : List Operators)
    (hoperand : ∀ {c : Context} {ts rest : List Token} {e : Expr},
      operand c ts = .ok (e, rest) → (expr e).Within a b) {c : Context} {ts rest : List Token}
    (h : levels.foldr binaryLevel operand c ts = .ok (e, rest)) :
    (expr e).Within a (b + levels.length) := by
  induction levels generalizing c ts rest e with
  | nil => exact hoperand h
  | cons operators levels ih =>
    simp only [List.foldr_cons, binaryLevel, bind_eq_ok, Prod.exists] at h
    obtain ⟨left, after, hleft, h⟩ := h
    exact binaryChain_nested ih h ((ih hleft).mono (Nat.le_refl a) (Nat.le_succ _))

theorem assignmentBody_nested (h : assignmentBody below c ts = .ok (e, rest)) :
    (expr e).Within (n + 1) (8 * (n + 1)) := by
  simp only [assignmentBody, bind_eq_ok, Prod.exists] at h
  obtain ⟨target, left, htarget, h⟩ := h
  have hwithin : (expr target).Within (n + 1) (8 * n + 7) :=
    (levels_nested operatorLevels hb.unary htarget).mono (Nat.le_succ n) (Nat.le_refl _)
  split at h
  · split at h
    · simp only [bind_eq_ok, Prod.exists] at h
      obtain ⟨value, left', hvalue, h⟩ := h
      cases h
      exact within_assign hwithin
        ((hb.assignment hvalue).mono (Nat.le_succ n) (Nat.le_add_right _ 7))
    · cases h
  · cases h
    exact hwithin.mono (Nat.le_refl _) (by omega)

/-! ### Statements -/

omit hb in
theorem within_statement (h : (stmt s).Within (n + 1) (8 * n + 1)) :
    (stmt s).Within (n + 1) (8 * (n + 1)) :=
  h.mono (Nat.le_refl _) (by omega)

omit hb in
/-- A statement with a condition or the like and a body. -/
theorem within_of_both {y : Node} {k : Link} {body : List Stmt} (he : (expr e).Within n (8 * n))
    (hbody : ∀ s ∈ body, (stmt s).Within n (8 * n))
    (hy : (k, y) ∈ innerExprs [e] ++ innerStmts body) : y.Within n (8 * n) := by
  rcases List.mem_append.1 hy with hy | hy
  · exact within_of_one he hy
  · exact within_of_body hbody hy

theorem declaration?_nested {exported : Bool}
    (h : declaration? below exported pos c ts = .ok (some (s, rest))) :
    (stmt s).Within (n + 1) (8 * n + 1) := by
  refine within_level fun k y hy => .inl ?_
  unfold declaration? at h
  split at h
  next => cases h
  next =>
    split at h
    next =>
      split at h
      next =>
        obtain ⟨found, hfound, h⟩ := map_eq_ok.1 h
        cases h
        simp only [destructuring, bind_eq_ok, Prod.exists] at hfound
        obtain ⟨targets, left, _, left', _, e, left'', he, hfound⟩ := hfound
        cases hfound
        exact within_of_one (expression_nested hb he) hy
      next =>
        obtain ⟨found, hfound, h⟩ := map_eq_ok.1 h
        cases h
        simp only [declaredName, bind_eq_ok, Prod.exists] at hfound
        obtain ⟨name, left, _, typing, left', _, hfound⟩ := hfound
        split at hfound
        · simp only [bind_eq_ok, Prod.exists] at hfound
          obtain ⟨e, left'', he, hfound⟩ := hfound
          cases hfound
          exact within_of_one (within_withName (expression_nested hb he)) hy
        · split at hfound
          · cases hfound
          · cases hfound
            cases hy
    next =>
      split at h
      next => cases h
      next =>
        split at h
        next =>
          simp only [bind_eq_ok, Prod.exists] at h
          obtain ⟨name, left, _, d, left', hd, h⟩ := h
          cases h
          exact within_of_body (functionRest_nested hb hd) hy
        next =>
          simp only [bind_eq_ok, Prod.exists] at h
          obtain ⟨name, left, _, d, left', hd, h⟩ := h
          cases h
          exact within_of_body (classRest_nested hb hd) hy
        next =>
          split at h
          next =>
            simp only [bind_eq_ok, Prod.exists] at h
            obtain ⟨name, left, _, d, left', hd, h⟩ := h
            cases h
            exact within_of_body (namespaceRest_nested hb hd) hy
          next => cases h
        next => cases h

theorem elseRest_nested {again : Option (Position → Parse Stmt)}
    (hagain : ∀ read ∈ again, ∀ {q : Position} {c : Context} {ts rest : List Token} {s : Stmt},
      read q c ts = .ok (s, rest) → (stmt s).Within (n + 1) (8 * n + 1))
    (h : elseRest below again c ts = .ok (s, rest)) : (stmt s).Within (n + 1) (8 * n + 1) := by
  unfold elseRest at h
  split at h
  next => cases h
  next =>
    split at h
    next read _ => exact hagain read rfl h
    next =>
      simp only [bind_eq_ok, Prod.exists] at h
      obtain ⟨ss, left, hss, h⟩ := h
      cases h
      exact within_level fun k y hy => .inl (within_of_body (block_nested hb hss) hy)

/-- The statement after `else` is chained to the one that it belongs to. -/
theorem ifBranch_nested {again : Option (Position → Parse Stmt)}
    (hagain : ∀ read ∈ again, ∀ {q : Position} {c : Context} {ts rest : List Token} {s : Stmt},
      read q c ts = .ok (s, rest) → (stmt s).Within (n + 1) (8 * n + 1))
    (h : ifBranch below again pos c ts = .ok (s, rest)) : (stmt s).Within (n + 1) (8 * n + 1) := by
  simp only [ifBranch, bind_eq_ok, Prod.exists] at h
  obtain ⟨e, left, he, body, left', hbody, h⟩ := h
  have hparts := fun {y k} => within_of_both (y := y) (k := k) (expression_nested hb he)
    (block_nested hb hbody)
  split at h
  · simp only [bind_eq_ok, Prod.exists] at h
    obtain ⟨other, left'', hother, h⟩ := h
    cases h
    refine within_level fun k y hy => ?_
    rcases List.mem_append.1 hy with hy | hy
    · exact .inl (hparts hy)
    · cases List.mem_singleton.1 hy
      exact .inr ⟨rfl, elseRest_nested hb hagain hother⟩
  · cases h
    refine within_level fun k y hy => .inl ?_
    rcases List.mem_append.1 hy with hy | hy
    · exact hparts hy
    · cases hy

theorem ifRest_nested (turns : List Token) {c : Context} {ts rest : List Token}
    (h : ifRest below turns pos c ts = .ok (s, rest)) :
    (stmt s).Within (n + 1) (8 * n + 1) := by
  induction turns generalizing c pos ts rest s with
  | nil => exact ifBranch_nested hb (fun _ hread => absurd hread (Option.not_mem_none _)) h
  | cons _ turns ih =>
    refine ifBranch_nested hb (fun read hread => ?_) h
    cases Option.mem_some_iff.1 hread
    exact ih

theorem loop_nested
    (h : whileRest below pos c ts = .ok (s, rest) ∨ forRest below pos c ts = .ok (s, rest)) :
    (stmt s).Within (n + 1) (8 * n + 1) := by
  refine within_level fun k y hy => .inl ?_
  rcases h with h | h
  · simp only [whileRest, bind_eq_ok, Prod.exists] at h
    obtain ⟨e, left, he, body, left', hbody, h⟩ := h
    cases h
    exact within_of_both (expression_nested hb he) (block_nested hb hbody) hy
  · simp only [forRest, bind_eq_ok, Prod.exists] at h
    obtain ⟨item, left, _, left', _, e, left'', he, body, last, hbody, h⟩ := h
    cases h
    exact within_of_both (expression_nested hb he) (block_nested hb hbody) hy

theorem returnStatement_nested (h : returnStatement below pos c ts = .ok (s, rest)) :
    (stmt s).Within (n + 1) (8 * n + 1) := by
  refine within_level fun k y hy => .inl ?_
  simp only [returnStatement] at h
  split at h
  · cases h
  · split at h
    · cases h
      cases hy
    · simp only [bind_eq_ok, Prod.exists] at h
      obtain ⟨e, left, he, h⟩ := h
      cases h
      exact within_of_one (expression_nested hb he) hy

theorem statementBody_nested (h : statementBody below c ts = .ok (s, rest)) :
    (stmt s).Within (n + 1) (8 * n + 1) := by
  simp only [statementBody] at h
  split at h
  next => cases h
  next =>
    split at h
    next =>
      split at h
      next => cases h
      next =>
        simp only [bind_eq_ok] at h
        obtain ⟨found, hfound, h⟩ := h
        split at h
        next =>
          cases h
          exact declaration?_nested hb hfound
        next => cases h
    next => exact ifRest_nested hb _ h
    next => exact loop_nested hb (.inl h)
    next => exact loop_nested hb (.inr h)
    next => exact returnStatement_nested hb h
    next =>
      split at h
      next =>
        cases h
        exact within_level fun _ _ hy => by cases hy
      next => cases h
    next =>
      split at h
      next =>
        cases h
        exact within_level fun _ _ hy => by cases hy
      next => cases h
    next =>
      simp only [bind_eq_ok] at h
      obtain ⟨found, hfound, h⟩ := h
      split at h
      next =>
        cases h
        exact declaration?_nested hb hfound
      next =>
        simp only [bind_eq_ok, Prod.exists] at h
        obtain ⟨e, left, he, h⟩ := h
        cases h
        exact within_level fun k y hy => .inl (within_of_one (expression_nested hb he) hy)

theorem programStatements_nested {p : Program} (h : programStatements below c turns ts = .ok p) :
    ∀ s ∈ p, (stmt s).Within n (8 * n) := by
  fun_induction programStatements below c turns ts generalizing p with
  | case1 =>
    cases h
    simp
  | case2 =>
    cases h
    simp
  | case3 ts _ turn turns ih =>
    simp only [bind_eq_ok, Prod.exists] at h
    obtain ⟨s, left, hs, left', _, ss, hss, h⟩ := h
    cases h
    exact List.forall_mem_cons.2 ⟨hb.statement hs, ih left' hss⟩

end

theorem withLevels_nested (n : Nat) : Nested n (withLevels n) := by
  induction n with
  | zero => exact ⟨nofun, nofun, nofun⟩
  | succ n ih =>
    exact ⟨fun h => within_statement (statementBody_nested ih h), assignmentBody_nested ih,
      unaryBody_nested ih⟩

/-- On every way down a program that is read there are at most `maxNesting` statements and eight
    times as many expressions, if those that are chained to what is above them are left out. -/
theorem counted_nesting_le {p : Program} (h : program ts = .ok p) {s : Stmt} (hs : s ∈ p)
    {way : List (Link × Node)} (hway : Way (.stmt s) way) :
    statementsOn (.stmt s :: counted way) ≤ maxNesting ∧
      expressionsOn (.stmt s :: counted way) ≤ 8 * maxNesting := by
  have hwithin := programStatements_nested (withLevels_nested maxNesting) h s hs way hway
  rw [statementsOn_cons]
  exact ⟨hwithin.1, hwithin.2⟩

/-- In `if a {} else if b { f(x); }` the second condition is chained to the first, and so is `f` to
    the call. -/
theorem a_call_after_a_condition_is_counted :
    ∃ (ts : List Token) (p : Program) (s : Stmt) (way : List (Link × Node)),
      ts.map Token.kind = [.keyword .ifWord, .name "a", .mark .leftBrace, .mark .rightBrace,
        .keyword .elseWord, .keyword .ifWord, .name "b", .mark .leftBrace, .name "f",
        .mark .leftParen, .name "x", .mark .rightParen, .mark .semicolon, .mark .rightBrace, .eof] ∧
      program ts = .ok p ∧ s ∈ p ∧ Way (.stmt s) way ∧
      way.map (·.1) = [.chained, .inner, .inner, .chained] ∧
      statementsOn (.stmt s :: counted way) ≤ maxNesting ∧
      expressionsOn (.stmt s :: counted way) ≤ 8 * maxNesting := by
  let call : Expr := .call default (.name default "f") [.name default "x"]
  let second : Stmt := .ifElse default (.name default "b") [.expr default call] none
  let first : Stmt := .ifElse default (.name default "a") [] (some second)
  have hread : program ([.keyword .ifWord, .name "a", .mark .leftBrace, .mark .rightBrace,
      .keyword .elseWord, .keyword .ifWord, .name "b", .mark .leftBrace, .name "f",
      .mark .leftParen, .name "x", .mark .rightParen, .mark .semicolon, .mark .rightBrace,
      .eof].map (⟨·, default⟩)) = .ok [first] := rfl
  have hway : Way (.stmt first) [(.chained, .stmt second), (.inner, .stmt (.expr default call)),
      (.inner, .expr call), (.chained, .expr (.name default "f"))] :=
    .down (.tail _ (.head _)) (.down (.tail _ (.head _)) (.down (.head _) (.down (.head _) .stop)))
  exact ⟨_, [first], first, _, rfl, hread, .head _, hway, rfl,
    counted_nesting_le hread (.head _) hway⟩

/-! ## Chains -/

def conditions : Nat → Stmt
  | 0 => .ifElse default (.literal default .nil) [] none
  | k + 1 => .ifElse default (.literal default .nil) [] (some (conditions k))

def additions : Nat → Expr
  | 0 => .literal default .nil
  | k + 1 => .binary default .add (additions k) (.literal default .nil)

theorem statementLevels_conditions (k : Nat) : statementLevels [conditions k] = 3 := by
  have hlevels : (conditions k).levels = 2 := by
    induction k with
    | zero => rfl
    | succ k ih =>
      rw [conditions, Stmt.levels, ih]
      rfl
  rw [statementLevels, hlevels]
  rfl

theorem wellFormed_conditions (k : Nat) : statementsWellFormed .file [conditions k] = true := by
  have hwf : (conditions k).wellFormed .file = true ∧ (conditions k).isBranch = true := by
    induction k with
    | zero => exact ⟨rfl, rfl⟩
    | succ k ih =>
      refine ⟨?_, rfl⟩
      rw [conditions, Stmt.wellFormed, ih.1, ih.2]
      rfl
  refine statementsWellFormed_cons.2 ⟨?_, fun _ => rfl, hwf.1, rfl⟩
  cases k <;> rfl

/-- The left operand of an addition opens no level, unless it is the first. -/
theorem statementLevels_additions (k : Nat) :
    statementLevels [.expr default (additions k)] = 3 := by
  have hlevels : (additions k).levels + (additions k).operandEntry = 1 := by
    induction k with
    | zero => rfl
    | succ k ih =>
      rw [additions, Expr.levels, if_neg (by decide), ih]
      rfl
  rw [statementLevels, Stmt.levels, Expr.entry, ← Nat.add_assoc, hlevels]
  rfl

theorem wellFormed_additions (k : Nat) :
    statementsWellFormed .file [.expr default (additions k)] = true := by
  have hwf : (additions k).head.ownName?.join.isNone = true ∧ (additions k).wellFormed = true ∧
      BinaryOp.add.leftRank ≤ (additions k).rank := by
    induction k with
    | zero => exact ⟨rfl, rfl, by decide⟩
    | succ k ih =>
      refine ⟨ih.1, ?_, Nat.le_refl _⟩
      rw [additions, Expr.wellFormed, ih.2.1, decide_eq_true ih.2.2]
      rfl
  refine statementsWellFormed_cons.2 ⟨rfl, fun _ => rfl, ?_, rfl⟩
  rw [Stmt.wellFormed, hwf.1, hwf.2.1]
  rfl

/-- Whatever their positions, further conditions are as many statements below the first. -/
theorem exists_way_of_conditions {k : Nat} (h : s.unplaced = (conditions k).unplaced) :
    ∃ way, Way (.stmt s) way ∧ statementsOn (way.map (·.2)) = k := by
  induction k generalizing s with
  | zero => exact ⟨[], .stop, rfl⟩
  | succ k ih =>
    obtain ⟨pos, c, body, other, rfl, hother⟩ : ∃ pos c body other,
        s = .ifElse pos c body (some other) ∧ other.unplaced = (conditions k).unplaced := by
      cases s with
      | ifElse pos c body other =>
        cases other with
        | none => cases (Stmt.ifElse.inj h).2.2.2
        | some other => exact ⟨pos, c, body, other, rfl, Option.some.inj (Stmt.ifElse.inj h).2.2.2⟩
      | declare _ _ _ _ e _ => cases e <;> cases h
      | returnValue _ e => cases e <;> cases h
      | _ => cases h
    obtain ⟨way, hway, hcount⟩ := ih hother
    refine ⟨(.chained, .stmt other) :: way, .down ?_ hway, ?_⟩
    · exact List.mem_append_right _ (.head _)
    · rw [List.map_cons, statementsOn_cons, hcount]
      rfl

/-- Whatever their positions, additions are as many expressions below the last. -/
theorem exists_way_of_additions {k : Nat} (h : e.unplaced = (additions k).unplaced) :
    ∃ way, Way (.expr e) way ∧ expressionsOn (way.map (·.2)) = k := by
  induction k generalizing e with
  | zero => exact ⟨[], .stop, rfl⟩
  | succ k ih =>
    obtain ⟨pos, op, l, r, rfl, hl⟩ : ∃ pos op l r,
        e = .binary pos op l r ∧ l.unplaced = (additions k).unplaced := by
      cases e with
      | binary pos op l r => exact ⟨pos, op, l, r, rfl, (Expr.binary.inj h).2.2.1⟩
      | _ => cases h
    obtain ⟨way, hway, hcount⟩ := ih hl
    refine ⟨(.chained, .expr l) :: way, .down (.head _) hway, ?_⟩
    rw [List.map_cons, expressionsOn_expr, hcount]

/-- A single statement that opens few levels is read, with positions or without. -/
theorem exists_read (hwf : statementsWellFormed .file [s] = true)
    (hlevels : statementLevels [s] ≤ 512) :
    ∃ ts s', program ts = .ok [s'] ∧ s'.unplaced = s.unplaced := by
  obtain ⟨p, hread, hview⟩ := (program_reads_back _ hwf (map_kind_writtenTokens [s])).1 hlevels
  cases p with
  | nil => cases hview
  | cons s' p =>
    cases p with
    | nil => exact ⟨_, s', hread, (List.cons.inj hview).1⟩
    | cons => cases (List.cons.inj hview).2

/-- A program is read that has more than `maxNesting` statements on a way down, and one that has
    more than sixteen times as many expressions. -/
theorem chains_exceed_the_nesting :
    (∃ ts p s way, program ts = .ok p ∧ s ∈ p ∧ Way (.stmt s) way ∧
      maxNesting < statementsOn (.stmt s :: way.map (·.2))) ∧
    ∃ ts p s way, program ts = .ok p ∧ s ∈ p ∧ Way (.stmt s) way ∧
      16 * maxNesting < expressionsOn (.stmt s :: way.map (·.2)) := by
  constructor
  · obtain ⟨ts, s, hread, hview⟩ := exists_read (wellFormed_conditions maxNesting)
      (Nat.le_trans (Nat.le_of_eq (statementLevels_conditions _)) (by decide))
    obtain ⟨way, hway, hcount⟩ := exists_way_of_conditions hview
    refine ⟨ts, [s], s, way, hread, .head _, hway, ?_⟩
    rw [statementsOn_cons, hcount]
    exact Nat.lt_succ_self _
  · obtain ⟨ts, s, hread, hview⟩ := exists_read (wellFormed_additions (16 * maxNesting))
      (Nat.le_trans (Nat.le_of_eq (statementLevels_additions _)) (by decide))
    obtain ⟨pos, e, rfl, he⟩ : ∃ pos e, s = .expr pos e ∧
        e.unplaced = (additions (16 * maxNesting)).unplaced := by
      cases s with
      | expr pos e => exact ⟨pos, e, rfl, (Stmt.expr.inj hview).2⟩
      | declare _ _ _ _ e _ | returnValue _ e | ifElse _ _ _ e => cases e <;> cases hview
      | _ => cases hview
    obtain ⟨way, hway, hcount⟩ := exists_way_of_additions he
    refine ⟨ts, [.expr pos e], .expr pos e, (.inner, .expr e) :: way, hread, .head _,
      .down (.head _) hway, ?_⟩
    rw [List.map_cons, expressionsOn_cons, expressionsOn_expr, hcount]
    exact Nat.lt_succ_self _

end Grammar

end TinyScript

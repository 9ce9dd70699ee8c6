/-
  TinyScript.Proofs.Code.Placement — where statements stand in programs.

  Two rules are checked through a whole tree (`Rules`). By the first, `return`, `break`, `continue`
  and `export` stand only where they may: a return in a function body with no namespace body between
  them, a break or continue in the body of a loop with nothing but branches between them, and an
  export at the top. By the second, there are no while loops and no `str` methods. Whatever is read
  keeps the first rule (`program_placed`).
-/

import TinyScript.Proofs.Grammar.Linearization
import TinyScript.Proofs.Grammar.Soundness

namespace TinyScript

open TinyScript.Derivation

/-- A branch of a branch is a branch of the same place. -/
@[simp]
theorem Derivation.Place.branch_branch (p : Place) : p.branch.branch = p.branch := rfl

/-! ## Rules -/

structure Rules where
  /-- Statements stand only where they may. -/
  places : Bool
  /-- There are no while loops and no methods named `str`. -/
  bounded : Bool
  deriving DecidableEq, Repr

namespace Rules

def placed : Rules := ⟨true, false⟩

def tame : Rules := ⟨false, true⟩

end Rules

namespace Stmt

def mayStand (p : Place) : Stmt → Bool
  | returnValue .. => p.returns
  | breakLoop _ | continueLoop _ => p.loops
  | s => !s.isExported || p.exports

def isWhile : Stmt → Bool
  | whileLoop .. => true
  | _ => false

end Stmt

namespace Rules

variable (k : Rules)

def stands (p : Place) (s : Stmt) : Bool :=
  (!k.places || s.mayStand p) && (!k.bounded || !s.isWhile)

def names (method : String) : Bool := !k.bounded || method != "str"

mutual

def expr : Expr → Bool
  | .name .. | .literal .. => true
  | .group _ e | .unary _ _ e | .member _ e _ | .importFrom _ e => expr e
  | .array _ es => exprs es
  | .object _ fs => fields fs
  | .binary _ _ l r | .assign _ _ l r | .index _ l r => expr l && expr r
  | .call _ f args => expr f && exprs args
  | .function _ d => function d
  | .classDef _ d => classDef d
  | .namespaceDef _ d => space d

def exprs : List Expr → Bool
  | [] => true
  | e :: es => expr e && exprs es

def fields : List (String × Expr) → Bool
  | [] => true
  | (_, e) :: fs => expr e && fields fs

def inside (p : Place) : Stmt → Bool
  | .expr _ e | .destructure _ _ _ e _ | .declare _ _ _ _ (some e) _ | .returnValue _ (some e) =>
    expr e
  | .declare _ _ _ _ none _ | .returnValue _ none | .breakLoop _ | .continueLoop _ => true
  | .function _ d _ => function d
  | .classDef _ d _ => classDef d
  | .namespaceDef _ d _ => space d
  | .ifElse _ e body none => expr e && stmts p.branch body
  | .ifElse _ e body (some s) =>
    expr e && stmts p.branch body && (k.stands p.branch s && inside p.branch s)
  | .whileLoop _ e body | .forLoop _ _ e body => expr e && stmts p.loop body
  | .block _ body => stmts p.branch body

def stmts (p : Place) : List Stmt → Bool
  | [] => true
  | s :: ss => (k.stands p s && inside p s) && stmts p ss

def function : FunctionDecl → Bool
  | ⟨_, _, _, body, _⟩ => stmts .function body

def methods : List FunctionDecl → Bool
  | [] => true
  | d :: ds => (k.names d.shownName && function d) && methods ds

def classDef : ClassDecl → Bool
  | ⟨_, _, ms, _⟩ => methods ms

def space : NamespaceDecl → Bool
  | ⟨_, body, _⟩ => stmts .space body

end

def stmt (p : Place) (s : Stmt) : Bool := k.stands p s && k.inside p s

def program (p : Program) : Bool := k.stmts .file p

variable {k}

theorem expr_withName (name : String) (e : Expr) : k.expr (e.withName name) = k.expr e := by
  cases e with
  | function _ d => cases d; rfl
  | classDef _ d => cases d; rfl
  | namespaceDef _ d => cases d; rfl
  | _ => rfl

theorem function_eq (d : FunctionDecl) : k.function d = k.stmts .function d.body := by
  cases d
  rfl

theorem stmts_cons (p : Place) (s : Stmt) (ss : List Stmt) :
    k.stmts p (s :: ss) = (k.stmt p s && k.stmts p ss) := rfl

theorem inside_else (p : Place) (pos : Text.Position) (e : Expr) (body : List Stmt) (s : Stmt) :
    k.inside p (.ifElse pos e body (some s)) =
      (k.expr e && k.stmts p.branch body && k.stmt p.branch s) := rfl

/-- What may be in a statement is the same in a branch. -/
theorem inside_branch (p : Place) (s : Stmt) : k.inside p.branch s = k.inside p s := by
  cases s with
  | declare _ _ _ _ init _ => cases init <;> rfl
  | ifElse _ _ _ otherwise => cases otherwise <;> rfl
  | returnValue _ value => cases value <;> rfl
  | _ => rfl

/-- A branch exports nothing, and everything else may stand there too. -/
theorem stmt_of_branch {p : Place} {s : Stmt} (h : k.stmt p.branch s = true) :
    k.stmt p s = true := by
  have hstand : s.mayStand p.branch = true → s.mayStand p = true := by
    cases s <;> simp +contextual [Stmt.mayStand, Place.branch]
  simp only [stmt, stands, inside_branch, Bool.and_eq_true, Bool.or_eq_true] at h ⊢
  exact ⟨⟨h.1.1.imp_right hstand, h.1.2⟩, h.2⟩

@[simp]
theorem placed_stands (p : Place) (s : Stmt) : placed.stands p s = s.mayStand p := by
  simp [stands, placed]

theorem placed_stmt (p : Place) (s : Stmt) :
    placed.stmt p s = (s.mayStand p && placed.inside p s) := by
  rw [stmt, placed_stands]

@[simp]
theorem placed_names (method : String) : placed.names method = true := rfl

end Rules

/-! ## What is read is placed -/

namespace Derivation

open Rules

variable {w : Bool}

mutual

theorem Expression.placed : ∀ {ts rest : List Token} {e : Expr},
    Expression w ts rest e → placed.expr e = true
  | _, _, _, .plain h => h.placed
  | _, _, _, .assign h _ h' => by simp [Rules.expr, h.placed, h'.placed]

theorem Operand.placed : ∀ {n : Nat} {ts rest : List Token} {e : Expr},
    Operand w n ts rest e → placed.expr e = true
  | _, _, _, _, .unary h => h.placed
  | _, _, _, _, .tighter h => h.placed
  | _, _, _, _, .binary _ h h' => by simp [Rules.expr, h.placed, h'.placed]

theorem Unary.placed : ∀ {ts rest : List Token} {e : Expr},
    Unary w ts rest e → placed.expr e = true
  | _, _, _, .sign h => by simp [Rules.expr, h.placed]
  | _, _, _, .power h h' => by simp [Rules.expr, h.placed, h'.placed]
  | _, _, _, .call h => h.placed

theorem Call.placed : ∀ {ts rest : List Token} {e : Expr},
    Call w ts rest e → placed.expr e = true
  | _, _, _, .primary h => h.placed
  | _, _, _, .call h hargs => by simp [Rules.expr, h.placed, exprs_placed hargs]
  | _, _, _, .member h => by simp [Rules.expr, h.placed]
  | _, _, _, .index h hkey => by simp [Rules.expr, h.placed, hkey.placed]

theorem Primary.placed : ∀ {ts rest : List Token} {e : Expr},
    Primary w ts rest e → placed.expr e = true
  | _, _, _, .number => rfl
  | _, _, _, .string => rfl
  | _, _, _, .true => rfl
  | _, _, _, .false => rfl
  | _, _, _, .nil => rfl
  | _, _, _, .name _ => rfl
  | _, _, _, .group h => by simp [Rules.expr, h.placed]
  | _, _, _, .array hitems => by simp [Rules.expr, exprs_placed hitems]
  | _, _, _, .object hfields => by simp [Rules.expr, fields_placed hfields]
  | _, _, _, .function _ hd => by simp [Rules.expr, hd.placed]
  | _, _, _, .classDef _ hm => by simp [Rules.expr, Rules.classDef, hm.placed]
  | _, _, _, .importFrom h => by simp [Rules.expr, h.placed]
  | _, _, _, .namespaceDef _ hbody => by simp [Rules.expr, Rules.space, hbody.placed]

theorem exprs_placed : ∀ {ts rest : List Token} {es : List Expr} {close : Mark},
    Items (Expression w) ts rest es close → placed.exprs es = true
  | _, _, _, _, .nil => rfl
  | _, _, _, _, .last h => by simp [Rules.exprs, h.placed]
  | _, _, _, _, .more h hs => by simp [Rules.exprs, h.placed, exprs_placed hs]

theorem fields_placed : ∀ {ts rest : List Token} {fs : List (String × Expr)} {close : Mark},
    Items (Field w) ts rest fs close → placed.fields fs = true
  | _, _, _, _, .nil => rfl
  | _, _, _, _, .last h => by simp [Rules.fields, h.placed]
  | _, _, _, _, .more h hs => by simp [Rules.fields, h.placed, fields_placed hs]

theorem Field.placed : ∀ {ts rest : List Token} {f : String × Expr},
    Field w ts rest f → placed.expr f.2 = true
  | _, _, _, .name h => h.placed
  | _, _, _, .string h => h.placed

theorem FunctionRest.placed : ∀ {name : Option String} {pos : Text.Position} {ts rest : List Token}
    {d : FunctionDecl}, FunctionRest w name pos ts rest d → placed.function d = true
  | _, _, _, _, _, .block _ _ hbody => by simp [Rules.function, hbody.placed]
  | _, _, _, _, _, .value _ _ _ h => by
    simp [Rules.function, Rules.stmts, Rules.inside, Stmt.mayStand, Place.function, h.placed]

theorem Members.placed : ∀ {ts rest : List Token} {properties : List Param}
    {methods : List FunctionDecl}, Members w ts rest properties methods →
    placed.methods methods = true
  | _, _, _, _, .nil => rfl
  | _, _, _, _, .semicolon h => h.placed
  | _, _, _, _, .method hd h => by
    simp [Rules.methods, hd.placed, h.placed]
  | _, _, _, _, .property _ h => h.placed

theorem Block.placed : ∀ {place : Place} {ts rest : List Token} {ss : List Stmt},
    Block w place ts rest ss → placed.stmts place ss = true
  | _, _, _, _, .mk h => h.placed

theorem Statements.placed : ∀ {place : Place} {ts rest : List Token} {ss : List Stmt},
    Statements w place ts rest ss → placed.stmts place ss = true
  | _, _, _, _, .nil => rfl
  | _, _, _, _, .semicolon h => h.placed
  | _, _, _, _, .cons h _ hs => by simp [stmts_cons, h.placed, hs.placed]

theorem Statement.placed : ∀ {place : Place} {ts rest : List Token} {s : Stmt},
    Statement w place ts rest s → placed.stmt place s = true
  | _, _, _, _, .declaration h => h.placed (.inl rfl)
  | _, _, _, _, .exported hp h => h.placed (.inr hp)
  | _, _, _, _, .ifElse h => stmt_of_branch h.placed
  | _, _, _, _, .whileLoop h hbody => by
    simp [placed_stmt, Stmt.mayStand, Stmt.isExported, Rules.inside, h.placed,
      hbody.placed]
  | _, _, _, _, .forLoop h hbody => by
    simp [placed_stmt, Stmt.mayStand, Stmt.isExported, Rules.inside, h.placed,
      hbody.placed]
  | _, _, _, _, .returnNothing hp => by
    simp [placed_stmt, Stmt.mayStand, hp, Rules.inside]
  | _, _, _, _, .returnValue hp h => by
    simp [placed_stmt, Stmt.mayStand, hp, Rules.inside, h.placed]
  | _, _, _, _, .breakLoop hp => by
    simp [placed_stmt, Stmt.mayStand, hp, Rules.inside]
  | _, _, _, _, .continueLoop hp => by
    simp [placed_stmt, Stmt.mayStand, hp, Rules.inside]
  | _, _, _, _, .expr _ h => by
    simp [placed_stmt, Stmt.mayStand, Stmt.isExported, Rules.inside, h.placed]

theorem Declaration.placed : ∀ {exported : Bool} {pos : Text.Position} {place : Place}
    {ts rest : List Token} {s : Stmt}, Declaration w exported pos ts rest s →
    (exported = false ∨ place.exports = true) → placed.stmt place s = true
  | _, _, _, _, _, _, .empty _ _, hp => by
    simp [placed_stmt, Rules.inside, Stmt.mayStand, Stmt.isExported,
      hp]
  | _, _, _, _, _, _, .value _ h, hp => by
    simp [placed_stmt, Rules.inside, Stmt.mayStand, Stmt.isExported,
      expr_withName, h.placed, hp]
  | _, _, _, _, _, _, .destructure _ _ h, hp => by
    simp [placed_stmt, Rules.inside, Stmt.mayStand, Stmt.isExported, h.placed, hp]
  | _, _, _, _, _, _, .function h, hp => by
    simp [placed_stmt, Rules.inside, Stmt.mayStand, Stmt.isExported, h.placed, hp]
  | _, _, _, _, _, _, .classDef h, hp => by
    simp [placed_stmt, Rules.inside, Stmt.mayStand, Stmt.isExported,
      Rules.classDef, h.placed, hp]
  | _, _, _, _, _, _, .namespaceDef h, hp => by
    simp [placed_stmt, Rules.inside, Stmt.mayStand, Stmt.isExported,
      Rules.space, h.placed, hp]

theorem IfRest.placed : ∀ {place : Place} {pos : Text.Position} {ts rest : List Token} {s : Stmt},
    IfRest w place pos ts rest s → placed.stmt place.branch s = true
  | _, _, _, _, _, .plain h hbody => by
    simp [placed_stmt, Stmt.mayStand, Stmt.isExported, Rules.inside, h.placed, hbody.placed]
  | _, _, _, _, _, .block h hbody hother => by
    simp [placed_stmt, Stmt.mayStand, Stmt.isExported, Rules.inside, h.placed, hbody.placed,
      hother.placed]
  | _, _, _, _, _, .ifElse h hbody hother => by
    rw [placed_stmt, inside_else, Place.branch_branch, h.placed, hbody.placed, hother.placed]
    rfl

end

end Derivation

/-- Whatever is read is placed. -/
theorem program_placed {ts : List Token} {p : Program} (h : Grammar.program ts = .ok p) :
    Rules.placed.program p = true := by
  obtain ⟨_, _, _, hp⟩ := Grammar.programStatements_sound
    (Grammar.withLevels_sound Grammar.maxNesting) (Nat.le_refl _) h
  exact hp.placed

end TinyScript

/-
  TinyScript.Proofs.Grammar.Spans — where the pieces of a program stand.

  A piece of a program is a statement, an expression, a parameter, a type, a function, a class or a
  namespace. Each is read from tokens that stand together, its span: those of a list before the ones
  that are left at its end. A piece is laid out over its span if it has the place of the first token
  in it and the pieces that it is made of are laid out within it, one after the other (`Laid`). A
  program that is read is laid out over its tokens (`program_is_laid_out`).
-/

import TinyScript.Proofs.Grammar.Soundness

namespace TinyScript

open TinyScript.Text

/-! ## Pieces -/

inductive Piece where
  | stmt (s : Stmt)
  | expr (e : Expr)
  | param (x : Param)
  | typing (t : Typing)
  | function (d : FunctionDecl)
  | classDef (d : ClassDecl)
  | namespaceDef (d : NamespaceDecl)

namespace Piece

def pos : Piece → Position
  | stmt s => s.pos
  | expr e => e.pos
  | param x => x.pos
  | typing t => t.pos
  | function d => d.pos
  | classDef d => d.pos
  | namespaceDef d => d.pos

def named (n : String) : Piece → Piece
  | expr e => expr (e.withName n)
  | function d => function { d with name := some (d.name.getD n) }
  | classDef d => classDef { d with name := some (d.name.getD n) }
  | namespaceDef d => namespaceDef { d with name := some (d.name.getD n) }
  | x => x

end Piece

def Expr.pieces : Expr → List Piece
  | name .. | literal .. => []
  | group _ e | unary _ _ e | importFrom _ e | member _ e _ => [.expr e]
  | array _ es => es.map .expr
  | object _ fs => fs.map fun f => .expr f.2
  | binary _ _ l r | assign _ _ l r | index _ l r => [.expr l, .expr r]
  | call _ f args => .expr f :: args.map .expr
  | function _ d => [.function d]
  | classDef _ d => [.classDef d]
  | namespaceDef _ d => [.namespaceDef d]

def Stmt.pieces : Stmt → List Piece
  | expr _ e => [.expr e]
  | declare _ _ _ t e _ => t.toList.map .typing ++ e.toList.map .expr
  | destructure _ _ targets e _ => targets.map .param ++ [.expr e]
  | function _ d _ => [.function d]
  | classDef _ d _ => [.classDef d]
  | namespaceDef _ d _ => [.namespaceDef d]
  | ifElse _ c body other => .expr c :: (body.map .stmt ++ other.toList.map .stmt)
  | whileLoop _ e body | forLoop _ _ e body => .expr e :: body.map .stmt
  | block _ body => body.map .stmt
  | returnValue _ e => e.toList.map .expr
  | breakLoop _ | continueLoop _ => []

inductive Mixed : List Param → List FunctionDecl → List Piece → Prop
  | nil : Mixed [] [] []
  | property {x : Param} {properties : List Param} {methods : List FunctionDecl}
    {ys : List Piece} : Mixed properties methods ys →
    Mixed (x :: properties) methods (.param x :: ys)
  | method {d : FunctionDecl} {properties : List Param} {methods : List FunctionDecl}
    {ys : List Piece} : Mixed properties methods ys →
    Mixed properties (d :: methods) (.function d :: ys)

/-- What a piece is made of, in the order in which it is written. A class does not tell in which
    order its properties and its methods follow each other. -/
inductive Piece.Has : Piece → List Piece → Prop
  | stmt {s : Stmt} : Has (.stmt s) s.pieces
  | expr {e : Expr} : Has (.expr e) e.pieces
  | param {x : Param} : Has (.param x) (x.typing.toList.map .typing)
  | typing {t : Typing} : Has (.typing t) []
  | function {d : FunctionDecl} : Has (.function d)
    (d.params.map .param ++ d.returns.toList.map .typing ++ d.body.map .stmt)
  | classDef {d : ClassDecl} {ys : List Piece} : Mixed d.properties d.methods ys →
    Has (.classDef d) ys
  | namespaceDef {d : NamespaceDecl} : Has (.namespaceDef d) (d.body.map .stmt)

namespace Derivation

/-! ## Spans -/

inductive Written : List Token → List Token → Piece → Prop
  | stmt (place : Place) {ts rest : List Token} {s : Stmt} :
    Statement true place ts rest s → Written ts rest (.stmt s)
  /-- After `else`. -/
  | block {place : Place} {ts rest : List Token} {pos : Position} {ss : List Stmt} :
    Block true place ts rest ss → Written ts rest (.stmt (.block pos ss))
  /-- As the body of a function. -/
  | returned {ts rest : List Token} {pos : Position} {e : Expr} :
    Expression true ts rest e → Written ts rest (.stmt (.returnValue pos (some e)))
  | expr {ts rest : List Token} {e : Expr} : Expression true ts rest e → Written ts rest (.expr e)
  | param {ts rest : List Token} {x : Param} : Parameter ts rest x → Written ts rest (.param x)
  | typing {ts rest : List Token} {names : List String} {pos : Position} :
    TypeNames ts rest names → Written ts rest (.typing ⟨names, pos⟩)
  | function {p pos : Position} {ts after rest : List Token} {name : Option String}
    {d : FunctionDecl} : OptionalName ts after name → FunctionRest true name pos after rest d →
    Written (⟨.keyword .funcWord, p⟩ :: ts) rest (.function d)
  | method {p pos : Position} {ts rest : List Token} {s : String} {d : FunctionDecl} :
    FunctionRest true (some s) pos ts rest d → Written (⟨.name s, p⟩ :: ts) rest (.function d)
  | classDef {p q pos : Position} {ts after rest : List Token} {name : Option String}
    {properties : List Param} {methods : List FunctionDecl} :
    OptionalName ts (⟨.mark .leftBrace, q⟩ :: after) name →
    Members true after rest properties methods →
    Written (⟨.keyword .classWord, p⟩ :: ts) rest (.classDef ⟨name, properties, methods, pos⟩)
  | namespaceDef {p pos : Position} {ts after rest : List Token} {name : Option String}
    {body : List Stmt} : OptionalName ts after name → Block true .space after rest body →
    Written (⟨.name "namespace", p⟩ :: ts) rest (.namespaceDef ⟨name, body, pos⟩)
  | named {n : String} {ts rest : List Token} {x : Piece} : Written ts rest x →
    Written ts rest (x.named n)

/-- Pieces one after the other in the tokens of `ts` before `rest`. Other tokens may stand between
    them. -/
inductive Spread (item : List Token → List Token → Piece → Prop) :
    List Token → List Token → List Piece → Prop
  | nil {rest : List Token} : Spread item rest rest []
  | skip {t : Token} {ts rest : List Token} {xs : List Piece} : Spread item ts rest xs →
    Spread item (t :: ts) rest xs
  | cons {ts mid rest : List Token} {x : Piece} {xs : List Piece} : item ts mid x →
    Spread item mid rest xs → Spread item ts rest (x :: xs)

/-- The piece was written by the tokens of `ts` before `rest` and has the place of the first of
    them. What it is made of is laid out over spans within these tokens, one after the other. -/
inductive Laid : List Token → List Token → Piece → Prop
  | mk {t : Token} {more rest : List Token} {x : Piece} {xs : List Piece} : x.pos = t.pos →
    rest <:+ more → Written (t :: more) rest x → x.Has xs → Spread Laid (t :: more) rest xs →
    Laid (t :: more) rest x

variable {ts mid after rest : List Token} {t : Token} {x y : Piece} {xs ys : List Piece}
  {item : List Token → List Token → Piece → Prop}

theorem Spread.append (h : Spread item ts mid xs) (k : Spread item mid rest ys) :
    Spread item ts rest (xs ++ ys) := by
  induction h with
  | nil => exact k
  | skip _ ih => exact .skip (ih k)
  | cons hx _ ih => exact .cons hx (ih k)

theorem Spread.one (h : item ts rest x) : Spread item ts rest [x] := .cons h .nil

theorem Spread.suffix (hitem : ∀ ts rest x, item ts rest x → rest <:+ ts)
    (h : Spread item ts rest xs) : rest <:+ ts := by
  induction h with
  | nil => exact List.suffix_refl _
  | skip _ ih => exact ih.trans (List.suffix_cons _ _)
  | cons hx _ ih => exact ih.trans (hitem _ _ _ hx)

theorem Laid.suffix (h : Laid ts rest x) : rest <:+ ts := by
  cases h with
  | mk _ hmore => exact hmore.trans (List.suffix_cons _ _)

theorem Laid.pos_eq (h : Laid (t :: ts) rest x) : x.pos = t.pos := by
  cases h with
  | mk hpos => exact hpos

def Opened (ts rest : List Token) (xs : List Piece) : Prop :=
  ∃ t more, ts = t :: more ∧ rest <:+ more ∧ Spread Laid ts rest xs

theorem Opened.spread (h : Opened ts rest xs) : Spread Laid ts rest xs := by
  obtain ⟨_, _, _, _, hspread⟩ := h
  exact hspread

theorem Opened.ofToken (h : Spread Laid ts rest xs) : Opened (t :: ts) rest xs :=
  ⟨t, ts, rfl, h.suffix fun _ _ _ => Laid.suffix, .skip h⟩

theorem Opened.ofPiece (hx : Laid ts mid x) (h : Spread Laid mid rest xs) :
    Opened ts rest (x :: xs) := by
  have hmid := h.suffix fun _ _ _ => Laid.suffix
  cases hx with
  | @mk t more _ _ _ hpos hmore hwritten hhas hspread =>
    exact ⟨t, more, rfl, hmid.trans hmore, .cons (.mk hpos hmore hwritten hhas hspread) h⟩

theorem Opened.laid (h : Opened (t :: ts) rest xs) (hx : Written (t :: ts) rest x) (hhas : x.Has xs)
    (hpos : x.pos = t.pos) : Laid (t :: ts) rest x := by
  obtain ⟨_, _, heq, hmore, hspread⟩ := h
  cases heq
  exact .mk hpos hmore hx hhas hspread

/-- A piece that starts with a token of its own. -/
theorem Laid.ofToken (hx : Written (t :: ts) rest x) (hhas : x.Has xs) (h : Spread Laid ts rest xs)
    (hpos : x.pos = t.pos) : Laid (t :: ts) rest x :=
  (Opened.ofToken h).laid hx hhas hpos

/-- A piece that starts with a piece. -/
theorem Laid.ofPiece (hx : Written ts rest x) (hhas : x.Has (y :: ys)) (hy : Laid ts mid y)
    (h : Spread Laid mid rest ys) (hpos : x.pos = y.pos) : Laid ts rest x := by
  have hopened := Opened.ofPiece hy h
  cases hy with
  | mk hfirst => exact hopened.laid hx hhas (hpos.trans hfirst)

/-! ## Names, types and parameters -/

theorem Spread.ofSuffix (h : rest <:+ ts) : Spread item ts rest [] := by
  obtain ⟨used, rfl⟩ := h
  induction used with
  | nil => exact .nil
  | cons t used ih => exact .skip ih

theorem TypeNames.suffix {names : List String} (h : TypeNames (t :: ts) rest names) :
    rest <:+ ts := by
  generalize hts : t :: ts = all at h
  induction h generalizing t ts with
  | one =>
    cases hts
    exact List.suffix_refl _
  | @more _ _ _ _ left rest _ _ hmore ih =>
    cases hts
    cases left with
    | nil => cases hmore
    | cons u left => exact (ih rfl).trans ((List.suffix_cons _ _).trans (List.suffix_cons _ _))

theorem OptionalTyping.spread {o : Option Typing} (h : OptionalTyping ts rest o) :
    Spread Laid ts rest (o.toList.map .typing) := by
  cases h with
  | none => exact .nil
  | some hnames =>
    exact .skip (.one (.ofToken (.typing hnames) .typing (.ofSuffix hnames.suffix) rfl))

theorem Parameter.laid {x : Param} (h : Parameter ts rest x) : Laid ts rest (.param x) := by
  cases h with
  | mk htyping => exact .ofToken (.param (.mk htyping)) .param htyping.spread rfl

theorem Items.spread {α : Type} {rule : List Token → List Token → α → Prop} {close : Mark}
    {as : List α} (f : α → Piece) (hrule : ∀ ts rest a, rule ts rest a → Laid ts rest (f a))
    (h : Items rule ts rest as close) : Spread Laid ts rest (as.map f) := by
  induction h with
  | nil => exact .skip .nil
  | last ha => exact .cons (hrule _ _ _ ha) (.skip .nil)
  | more ha _ ih => exact .cons (hrule _ _ _ ha) (.skip ih)

theorem Items.params {close : Mark} {params : List Param}
    (h : Items Parameter ts rest params close) : Spread Laid ts rest (params.map .param) :=
  h.spread _ fun _ _ _ => Parameter.laid

theorem OptionalName.skip {name : Option String} (h : OptionalName ts after name)
    (k : Spread item after rest xs) : Spread item ts rest xs := by
  cases h with
  | none => exact k
  | some => exact .skip k

/-! ## Expressions -/

theorem Operand.expression {w : Bool} {k : Nat} {e : Expr} (h : Operand w k ts rest e) :
    Expression w ts rest e := by
  induction k with
  | zero => exact .plain h
  | succ k ih => exact ih (.tighter h)

theorem Unary.expression {w : Bool} {e : Expr} (h : Unary w ts rest e) : Expression w ts rest e :=
  (Operand.unary h).expression

theorem Call.expression {w : Bool} {e : Expr} (h : Call w ts rest e) : Expression w ts rest e :=
  (Unary.call h).expression

theorem Primary.expression {w : Bool} {e : Expr} (h : Primary w ts rest e) :
    Expression w ts rest e :=
  (Call.primary h).expression

theorem FunctionRest.pos_eq {w : Bool} {name : Option String} {pos : Position} {d : FunctionDecl}
    (h : FunctionRest w name pos ts rest d) : d.pos = pos := by
  cases h <;> rfl

theorem IfRest.pos_eq {w : Bool} {place : Place} {pos : Position} {s : Stmt}
    (h : IfRest w place pos ts rest s) : s.pos = pos := by
  cases h <;> rfl

theorem Declaration.pos_eq {w exported : Bool} {pos : Position} {s : Stmt}
    (h : Declaration w exported pos ts rest s) : s.pos = pos := by
  cases h <;> rfl

theorem Spread.map {f : Piece → Piece} (h : Spread item ts rest xs)
    (hf : ∀ ts rest, ∀ x ∈ xs, item ts rest x → item ts rest (f x)) :
    Spread item ts rest (xs.map f) := by
  induction h with
  | nil => exact .nil
  | skip _ ih => exact .skip (ih hf)
  | cons hx _ ih =>
    refine .cons (hf _ _ _ List.mem_cons_self hx) (ih fun ts rest x hx => ?_)
    exact hf ts rest x (List.mem_cons_of_mem _ hx)

/-- What is made of the same stays where it is under another name. -/
theorem Laid.named_of_has {n : String} (h : Laid ts rest x)
    (hhas : ∀ xs, x.Has xs → (x.named n).Has xs) (hpos : (x.named n).pos = x.pos) :
    Laid ts rest (x.named n) := by
  cases h with
  | mk hfirst hmore hwritten hparts hspread =>
    exact .mk (hpos.trans hfirst) hmore hwritten.named (hhas _ hparts) hspread

theorem Laid.named_function {n : String} {d : FunctionDecl} (h : Laid ts rest (.function d)) :
    Laid ts rest (Piece.named n (.function d)) := by
  refine h.named_of_has (fun xs hxs => ?_) rfl
  cases hxs
  exact .function

theorem Laid.named_classDef {n : String} {d : ClassDecl} (h : Laid ts rest (.classDef d)) :
    Laid ts rest (Piece.named n (.classDef d)) := by
  refine h.named_of_has (fun xs hxs => ?_) rfl
  cases hxs with
  | classDef hmixed => exact .classDef hmixed

theorem Laid.named_namespaceDef {n : String} {d : NamespaceDecl}
    (h : Laid ts rest (.namespaceDef d)) : Laid ts rest (Piece.named n (.namespaceDef d)) := by
  refine h.named_of_has (fun xs hxs => ?_) rfl
  cases hxs
  exact .namespaceDef

/-- A value that takes the name of its declaration stays where it is. -/
theorem Laid.named_expr {n : String} {e : Expr} (h : Laid ts rest (.expr e)) :
    Laid ts rest (.expr (e.withName n)) := by
  have hvalue {f : Piece} (hpieces : e.pieces = [f]) (hnamed : (e.withName n).pieces = [f.named n])
      (hpos : (e.withName n).pos = e.pos)
      (hf : ∀ ts rest, Laid ts rest f → Laid ts rest (f.named n)) :
      Laid ts rest (.expr (e.withName n)) := by
    cases h with
    | mk hfirst hmore hwritten hhas hspread =>
      cases hhas
      rw [hpieces] at hspread
      refine .mk (hpos.trans hfirst) hmore hwritten.named .expr ?_
      rw [hnamed]
      exact hspread.map fun ts rest x hx => by
        cases List.mem_singleton.1 hx
        exact hf ts rest
  cases e with
  | function p d => exact hvalue rfl rfl rfl fun _ _ => Laid.named_function
  | classDef p d => exact hvalue rfl rfl rfl fun _ _ => Laid.named_classDef
  | namespaceDef p d => exact hvalue rfl rfl rfl fun _ _ => Laid.named_namespaceDef
  | _ => exact h

/-! ## Derivations -/

mutual

theorem Expression.laid {ts rest : List Token} {e : Expr} :
    Expression true ts rest e → Laid ts rest (.expr e)
  | .plain h => Operand.laid h
  | .assign ht hs hv =>
    .ofPiece (.expr (.assign ht hs hv)) .expr (Operand.laid ht) (.skip (.one (Expression.laid hv)))
      rfl

theorem Operand.laid {k : Nat} {ts rest : List Token} {e : Expr} :
    Operand true k ts rest e → Laid ts rest (.expr e)
  | .unary h => Unary.laid h
  | .tighter h => Operand.laid h
  | .binary hk hl hr =>
    .ofPiece (.expr (Operand.binary hk hl hr).expression) .expr (Operand.laid hl)
      (.skip (.one (Operand.laid hr))) rfl

theorem Unary.laid {ts rest : List Token} {e : Expr} :
    Unary true ts rest e → Laid ts rest (.expr e)
  | .sign h => .ofToken (.expr (Unary.sign h).expression) .expr (.one (Unary.laid h)) rfl
  | .power hb he =>
    .ofPiece (.expr (Unary.power hb he).expression) .expr (Call.laid hb)
      (.skip (.one (Unary.laid he))) rfl
  | .call h => Call.laid h

theorem Call.laid {ts rest : List Token} {e : Expr} : Call true ts rest e → Laid ts rest (.expr e)
  | .primary h => Primary.laid h
  | .call hf hargs =>
    .ofPiece (.expr (Call.call hf hargs).expression) .expr (Call.laid hf)
      (.skip (exprs_spread hargs)) rfl
  | .member h =>
    .ofPiece (.expr (Call.member h).expression) .expr (Call.laid h) (.skip (.skip .nil)) rfl
  | .index h hk =>
    .ofPiece (.expr (Call.index h hk).expression) .expr (Call.laid h)
      (.skip (.cons (Expression.laid hk) (.skip .nil))) rfl

-- `Items.spread` would take the lemma that is being proved, so each kind of list has a case here.
theorem exprs_spread {close : Mark} {ts rest : List Token} {es : List Expr} :
    Items (Expression true) ts rest es close → Spread Laid ts rest (es.map .expr)
  | .nil => .skip .nil
  | .last h => .cons (Expression.laid h) (.skip .nil)
  | .more h hmore => .cons (Expression.laid h) (.skip (exprs_spread hmore))

theorem fields_spread {close : Mark} {ts rest : List Token} {fs : List (String × Expr)} :
    Items (Field true) ts rest fs close →
      Spread Laid ts rest (fs.map fun f => .expr f.2)
  | .nil => .skip .nil
  | .last h => (Field.spread h).append (.skip .nil)
  | .more h hmore => (Field.spread h).append (.skip (fields_spread hmore))

theorem Field.spread {ts rest : List Token} {f : String × Expr} :
    Field true ts rest f → Spread Laid ts rest [.expr f.2]
  | .name h => .skip (.skip (.one (Expression.laid h)))
  | .string h => .skip (.skip (.one (Expression.laid h)))

theorem Primary.laid {ts rest : List Token} {e : Expr} :
    Primary true ts rest e → Laid ts rest (.expr e)
  | .number => .ofToken (.expr Primary.number.expression) .expr .nil rfl
  | .string => .ofToken (.expr Primary.string.expression) .expr .nil rfl
  | .true => .ofToken (.expr Primary.true.expression) .expr .nil rfl
  | .false => .ofToken (.expr Primary.false.expression) .expr .nil rfl
  | .nil => .ofToken (.expr Primary.nil.expression) .expr .nil rfl
  | .name h => .ofToken (.expr (Primary.name h).expression) .expr .nil rfl
  | .group h =>
    .ofToken (.expr (Primary.group h).expression) .expr
      (.cons (Expression.laid h) (.skip .nil)) rfl
  | .array h => .ofToken (.expr (Primary.array h).expression) .expr (exprs_spread h) rfl
  | .object h => .ofToken (.expr (Primary.object h).expression) .expr (fields_spread h) rfl
  | .function hn h =>
    .ofPiece (.expr (Primary.function hn h).expression) .expr
      (.ofToken (.function hn h) .function (hn.skip (FunctionRest.spread h)) h.pos_eq)
      .nil h.pos_eq.symm
  | .classDef hn h =>
    have ⟨_, hmixed, hspread⟩ := Members.spread h
    .ofPiece (.expr (Primary.classDef hn h).expression) .expr
      (.ofToken (.classDef hn h) (.classDef hmixed) (hn.skip (.skip hspread)) rfl) .nil rfl
  | .importFrom h =>
    .ofToken (.expr (Primary.importFrom h).expression) .expr
      (.skip (.cons (Expression.laid h) (.skip .nil))) rfl
  | .namespaceDef hn h =>
    .ofPiece (.expr (Primary.namespaceDef hn h).expression) .expr
      (.ofToken (.namespaceDef hn h) .namespaceDef (hn.skip (Block.opened h).spread) rfl) .nil rfl

theorem FunctionRest.spread {name : Option String} {pos : Position} {ts rest : List Token}
    {d : FunctionDecl} : FunctionRest true name pos ts rest d → Spread Laid ts rest
      (d.params.map .param ++ d.returns.toList.map .typing ++ d.body.map .stmt)
  | .block hparams hreturns hbody =>
    .skip ((hparams.params.append hreturns.spread).append (Block.opened hbody).spread)
  | .value hparams hreturns _ he =>
    .skip ((hparams.params.append hreturns.spread).append
      (.one (.ofPiece (.returned he) .stmt (Expression.laid he) .nil rfl)))

theorem Members.spread {ts rest : List Token} {properties : List Param}
    {methods : List FunctionDecl} : Members true ts rest properties methods →
      ∃ xs, Mixed properties methods xs ∧ Spread Laid ts rest xs
  | .nil => ⟨[], .nil, .skip .nil⟩
  | .semicolon h =>
    have ⟨xs, hmixed, hspread⟩ := Members.spread h
    ⟨xs, hmixed, .skip hspread⟩
  | .method hd h =>
    have ⟨_, hmixed, hspread⟩ := Members.spread h
    have hlaid := .ofToken (.method hd) .function (FunctionRest.spread hd) hd.pos_eq
    ⟨_, .method hmixed, .cons hlaid hspread⟩
  | .property hx h =>
    have ⟨_, hmixed, hspread⟩ := Members.spread h
    ⟨_, .property hmixed, .cons hx.laid hspread⟩

theorem Block.opened {place : Place} {ts rest : List Token} {ss : List Stmt} :
    Block true place ts rest ss → Opened ts rest (ss.map .stmt)
  | .mk h => by
    have hclosed := (Statements.spread h).append (.skip .nil)
    rw [List.append_nil] at hclosed
    exact .ofToken hclosed

theorem Statements.spread {place : Place} {ts rest : List Token} {ss : List Stmt} :
    Statements true place ts rest ss → Spread Laid ts rest (ss.map .stmt)
  | .nil => .nil
  | .semicolon h => .skip (Statements.spread h)
  | .cons h _ hmore => .cons (Statement.laid h) (Statements.spread hmore)

theorem Statement.laid {place : Place} {ts rest : List Token} {s : Stmt} :
    Statement true place ts rest s → Laid ts rest (.stmt s)
  | .declaration h => (Declaration.opened h).laid (.stmt place (.declaration h)) .stmt h.pos_eq
  | .exported hplace h =>
    .ofToken (.stmt place (.exported hplace h)) .stmt (Declaration.opened h).spread h.pos_eq
  | .ifElse h => .ofToken (.stmt place (.ifElse h)) .stmt (IfRest.spread h) h.pos_eq
  | .whileLoop he hbody =>
    .ofToken (.stmt place (.whileLoop he hbody)) .stmt
      (.cons (Expression.laid he) (Block.opened hbody).spread) rfl
  | .forLoop he hbody =>
    .ofToken (.stmt place (.forLoop he hbody)) .stmt
      (.skip (.skip (.cons (Expression.laid he) (Block.opened hbody).spread))) rfl
  | .returnNothing h => .ofToken (.stmt place (.returnNothing h)) .stmt .nil rfl
  | .returnValue h he =>
    .ofToken (.stmt place (.returnValue h he)) .stmt (.one (Expression.laid he)) rfl
  | .breakLoop h => .ofToken (.stmt place (.breakLoop h)) .stmt .nil rfl
  | .continueLoop h => .ofToken (.stmt place (.continueLoop h)) .stmt .nil rfl
  | .expr h he =>
    have hlaid := Expression.laid he
    .ofPiece (.stmt place (.expr h he)) .stmt hlaid .nil hlaid.pos_eq.symm

theorem Declaration.opened {exported : Bool} {pos : Position} {ts rest : List Token} {s : Stmt} :
    Declaration true exported pos ts rest s → Opened ts rest s.pieces
  | .empty _ ht => .ofToken (.skip (ht.spread.append .nil))
  | .value ht he =>
    .ofToken (.skip (ht.spread.append (.skip (.one (Expression.laid he).named_expr))))
  | .destructure hp _ he =>
    .ofToken (.skip (hp.params.append (.skip (.one (Expression.laid he)))))
  | .function h =>
    .ofPiece (.ofToken (.function .some h) .function (.skip (FunctionRest.spread h)) h.pos_eq) .nil
  | .classDef h =>
    have ⟨_, hmixed, hspread⟩ := Members.spread h
    .ofPiece (.ofToken (.classDef .some h) (.classDef hmixed) (.skip (.skip hspread)) rfl) .nil
  | .namespaceDef h =>
    have hbody := (Block.opened h).spread
    .ofPiece (.ofToken (.namespaceDef .some h) .namespaceDef (.skip hbody) rfl) .nil

theorem IfRest.spread {place : Place} {pos : Position} {ts rest : List Token} {s : Stmt} :
    IfRest true place pos ts rest s → Spread Laid ts rest s.pieces
  | .plain he hbody => .cons (Expression.laid he) ((Block.opened hbody).spread.append .nil)
  | .block he hbody hother =>
    .cons (Expression.laid he) ((Block.opened hbody).spread.append
      (.skip (.one ((Block.opened hother).laid (.block hother) .stmt rfl))))
  | .ifElse he hbody h =>
    .cons (Expression.laid he) ((Block.opened hbody).spread.append
      (.skip (.one (.ofToken (.stmt place (.ifElse h)) .stmt (IfRest.spread h) h.pos_eq))))

end

end Derivation

/-! ## Programs -/

namespace Grammar

open TinyScript.Derivation

variable {ts : List Token}

/-- Positions are starts. Of a program that is read, every statement, expression, parameter, type,
    function, class and namespace has the place of the first of the tokens that it was written by.
    These stand together, within those of what it is part of and apart from those of what stands
    beside it, in the order of the source. -/
theorem program_is_laid_out {p : Program} (h : program ts = .ok p) : ∃ rest,
    Spread Laid ts rest (p.map .stmt) ∧ (rest = [] ∨ ∃ q after, rest = ⟨.eof, q⟩ :: after) := by
  obtain ⟨used, rest, -, -, hend, hstatements⟩ := program_derives h
  exact ⟨rest, hstatements.spread, hend⟩

/-- `export func f(a: nil) a.b`: the statement is at `export` and the function at `func`, and the
    statement that its body stands for is at the expression. -/
theorem an_exported_function_is_laid_out : ∃ ts p d,
    ts.map Token.kind = [.keyword .exportWord, .keyword .funcWord, .name "f", .mark .leftParen,
      .name "a", .mark .colon, .keyword .nilWord, .mark .rightParen, .name "a", .mark .dot,
      .name "b", .eof] ∧
    p = [.function ⟨0, 1, 1, "a"⟩ d true] ∧ d.pos = ⟨1, 1, 2, "a"⟩ ∧
    d.body.map Stmt.pos = [⟨8, 1, 9, "a"⟩] ∧ program ts = .ok p ∧
    ∃ rest, Spread Laid ts rest (p.map .stmt) ∧
      (rest = [] ∨ ∃ q after, rest = ⟨.eof, q⟩ :: after) :=
  ⟨([.keyword .exportWord, .keyword .funcWord, .name "f", .mark .leftParen, .name "a",
      .mark .colon, .keyword .nilWord, .mark .rightParen, .name "a", .mark .dot, .name "b",
      .eof] : List Token.Kind).zipIdx.map fun x => ⟨x.1, ⟨x.2, 1, x.2 + 1, "a"⟩⟩,
    _, ⟨some "f", [⟨"a", some ⟨["nil"], ⟨6, 1, 7, "a"⟩⟩, ⟨4, 1, 5, "a"⟩⟩], none,
      [.returnValue ⟨8, 1, 9, "a"⟩ (some (.member ⟨8, 1, 9, "a"⟩ (.name ⟨8, 1, 9, "a"⟩ "a") "b"))],
      ⟨1, 1, 2, "a"⟩⟩, rfl, rfl, rfl, rfl, rfl, program_is_laid_out rfl⟩

end Grammar

end TinyScript

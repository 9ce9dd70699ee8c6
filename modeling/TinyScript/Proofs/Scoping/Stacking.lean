/-
  TinyScript.Proofs.Scoping.Stacking — frames that wait far below.

  Whatever the machine starts puts frames on its stack and never looks at those that are there. So
  with more frames below it does the same, and these are still below afterwards (`Machine.atop`).
  There is one equation for each thing that the machine does. Exits alone look at the whole stack,
  for what it holds. So a step over two stacks that hold the same is the same
  (`Machine.atop_step`), until a result is given to the frames below.
-/

import TinyScript.Proofs.Control.Running

namespace TinyScript

open TinyScript.Text

namespace Machine

def atop (m : Machine) (below : List Frame) : Machine := { m with stack := m.stack ++ below }

section

variable (m : Machine) (below : List Frame)

@[simp]
theorem atop_store : (m.atop below).store = m.store := rfl

@[simp]
theorem atop_modules : (m.atop below).modules = m.modules := rfl

@[simp]
theorem atop_maxDepth : (m.atop below).maxDepth = m.maxDepth := rfl

@[simp]
theorem atop_control : (m.atop below).control = m.control := rfl

@[simp]
theorem atop_scope : (m.atop below).scope = m.scope := rfl

@[simp]
theorem atop_depth : (m.atop below).depth = m.depth := rfl

@[simp]
theorem atop_loading : (m.atop below).loading = m.loading := rfl

@[simp]
theorem atop_reclaims : (m.atop below).reclaims = m.reclaims := rfl

/-! ## Results and changes of the store -/

theorem atop_proceed {α : Type} (r : Except Fault α) {next next' : α → Machine}
    (h : ∀ a, next' a = (next a).atop below) :
    (m.atop below).proceed r next' = (m.proceed r next).atop below := by
  cases r with
  | ok a => exact h a
  | error f => rfl

theorem atop_proceedAt {α : Type} (pos : Position) (r : Except Failure α)
    {next next' : α → Machine} (h : ∀ a, next' a = (next a).atop below) :
    (m.atop below).proceedAt pos r next' = (m.proceedAt pos r next).atop below := by
  cases r with
  | ok a => exact h a
  | error f => rfl

theorem atop_changeAt (pos : Position) (r : Except Failure Change) {next : Machine → Machine}
    (h : ∀ n : Machine, next (n.atop below) = (next n).atop below) :
    (m.atop below).changeAt pos r next = (m.changeAt pos r next).atop below := by
  cases r with
  | ok c => exact h (m.changed c)
  | error f => rfl

theorem atop_change (r : Except Fault Change) {next : Machine → Machine}
    (h : ∀ n : Machine, next (n.atop below) = (next n).atop below) :
    (m.atop below).change r next = (m.change r next).atop below := by
  cases r with
  | ok c => exact h (m.changed c)
  | error f => rfl

/-! ## Statements one after the other -/

theorem atop_sequence (last : Value) (body : List Stmt) :
    (m.atop below).sequence last body = (m.sequence last body).atop below := by
  cases body <;> rfl

theorem atop_program (last : Value) (body : List Stmt) :
    (m.atop below).program last body = (m.program last body).atop below := by
  cases body <;> rfl

theorem atop_enterBlock (body : List Stmt) :
    (m.atop below).enterBlock body = (m.enterBlock body).atop below :=
  atop_sequence (m.enterScope m.scope .block) below _ body

theorem atop_bindStatement (pos : Position) (name : String) (v : Value) :
    (m.atop below).bindStatement pos name v = (m.bindStatement pos name v).atop below :=
  m.atop_changeAt below pos _ fun _ => rfl

theorem atop_bindDeclared (pos : Position) (q : Qualifier) (name : String) (v : Value) :
    (m.atop below).bindDeclared pos q name v = (m.bindDeclared pos q name v).atop below :=
  m.atop_changeAt below pos _ fun _ => rfl

theorem atop_branch (condition : Value) (body : List Stmt) (otherwise : Option Stmt) :
    (m.atop below).branch condition body otherwise =
      (m.branch condition body otherwise).atop below := by
  unfold branch
  split
  · exact m.atop_enterBlock below body
  · cases otherwise <;> rfl

theorem atop_loopTest (test : Value) (condition : Expr) (body : List Stmt) :
    (m.atop below).loopTest test condition body =
      (m.loopTest test condition body).atop below := by
  unfold loopTest
  split
  · exact atop_enterBlock (m.push _) below body
  · rfl

theorem atop_loopOver (pos : Position) (item : String) (body : List Stmt) (iterable : Value)
    (todo : List Value) : (m.atop below).loopOver pos item body iterable todo =
      (m.loopOver pos item body iterable todo).atop below := by
  unfold loopOver
  cases todo with
  | nil => rfl
  | cons v todo =>
    exact atop_changeAt ((m.push _).enterScope m.scope .block) below pos _ fun n =>
      n.atop_sequence below .nil body

end

theorem atop_bindTargets (m : Machine) (below : List Frame) (q : Qualifier) (whole : Value)
    (targets : List (Param × Value)) : (m.atop below).bindTargets q whole targets =
      (m.bindTargets q whole targets).atop below := by
  induction targets generalizing m with
  | nil => rfl
  | cons target rest ih =>
    exact m.atop_proceed below _ fun _ => m.atop_changeAt below _ _ fun n => ih n

/-! ## Calls -/

theorem atop_bindArguments (m : Machine) (below : List Frame) (body : List Stmt)
    (params : List (Param × Value)) :
    (m.atop below).bindArguments body params = (m.bindArguments body params).atop below := by
  induction params generalizing m with
  | nil => exact m.atop_sequence below _ body
  | cons param rest ih => exact m.atop_changeAt below _ _ fun n => ih n

section

variable (m : Machine) (below : List Frame)

theorem atop_startBody (f : Function) (args : List Value) (pos : Position) :
    (m.atop below).startBody f args pos = (m.startBody f args pos).atop below := by
  unfold startBody
  dsimp only
  split
  · exact m.atop_changeAt below pos _ fun n => n.atop_bindArguments below _ _
  · exact m.atop_bindArguments below _ _

theorem atop_callFunction (f : Function) (held args : List Value) (pos : Position) :
    (m.atop below).callFunction f held args pos =
      (m.callFunction f held args pos).atop below := by
  unfold callFunction
  dsimp only
  split
  · rfl
  · change (if m.maxDepth ≤ m.depth then _ else _) = _
    split
    · rfl
    · refine m.atop_proceed below _ fun _ => ?_
      rw [← atop_startBody]
      rfl

theorem atop_construct (classRef : Ref) (args : List Value) (pos : Position) :
    (m.atop below).construct classRef args pos = (m.construct classRef args pos).atop below := by
  unfold construct
  dsimp only [atop_store]
  split
  · rfl
  · split
    · rw [← atop_callFunction]
      rfl
    · split <;> rfl

/-! ## Texts -/

theorem atop_renderParts (opening closing : String) (held : List Value) (done : List String)
    (path : List Ref) (pos : Position) (todo : List (String × Value)) :
    (m.atop below).renderParts opening closing held done path pos todo =
      (m.renderParts opening closing held done path pos todo).atop below := by
  cases todo <;> rfl

theorem atop_renderObject (r : Ref) (path : List Ref) (pos : Position) :
    (m.atop below).renderObject r path pos = (m.renderObject r path pos).atop below := by
  unfold renderObject
  dsimp only [atop_store]
  split
  · split
    · rfl
    · split
      · rfl
      · exact m.atop_renderParts below _ _ _ _ _ pos _
  · rfl

theorem atop_render (v : Value) (nested : Bool) (path : List Ref) (pos : Position) :
    (m.atop below).render v nested path pos = (m.render v nested path pos).atop below := by
  unfold render
  dsimp only [atop_store]
  split
  · split
    · rfl
    · exact m.atop_renderParts below _ _ _ _ _ pos _
  · split
    · exact atop_callFunction (m.push _) below _ _ _ pos
    · exact m.atop_renderObject below _ path pos
  · rfl

theorem atop_renderTexts (use : TextUse) (held : List Value) (done : List String)
    (pos : Position) (todo : List Value) :
    (m.atop below).renderTexts use held done pos todo =
      (m.renderTexts use held done pos todo).atop below := by
  cases todo with
  | nil => cases use <;> rfl
  | cons v todo => rfl

theorem atop_stringify (held : List Value) (pos : Position) (v : Value) :
    (m.atop below).stringify held pos v = (m.stringify held pos v).atop below :=
  m.atop_renderTexts below _ held _ pos _

/-! ## Operators and built-in functions -/

theorem atop_applyBinary (pos : Position) (op : BinaryOp) (l r : Value) :
    (m.atop below).applyBinary pos op l r = (m.applyBinary pos op l r).atop below := by
  unfold applyBinary
  dsimp only [atop_store]
  split
  · rfl
  · split
    · exact m.atop_renderTexts below _ _ _ pos _
    · exact m.atop_renderTexts below _ _ _ pos _
    · rfl
    · rfl

theorem atop_binary (pos : Position) (op : BinaryOp) (l r : Value) :
    (m.atop below).binary pos op l r = (m.binary pos op l r).atop below := by
  unfold binary
  dsimp only [atop_store]
  split
  · exact atop_callFunction (m.push _) below _ _ _ pos
  · exact m.atop_applyBinary below pos op l r

theorem atop_unary (pos : Position) (op : UnaryOp) (v : Value) :
    (m.atop below).unary pos op v = (m.unary pos op v).atop below := by
  cases op with
  | not => rfl
  | plus => cases v <;> rfl
  | negate =>
    cases v with
    | object r =>
      dsimp only [unary, atop_store]
      split
      · exact atop_callFunction (m.push _) below _ _ _ pos
      · rfl
    | _ => rfl

theorem atop_lengthOf (pos : Position) (v : Value) :
    (m.atop below).lengthOf pos v = (m.lengthOf pos v).atop below := by
  unfold lengthOf
  dsimp only [atop_store]
  split <;> rfl

theorem atop_cast (t : BuiltinType) (args : List Value) (pos : Position) :
    (m.atop below).cast t args pos = (m.cast t args pos).atop below := by
  unfold cast
  split
  · split
    · split <;> rfl
    · exact m.atop_stringify below _ pos _
    · rfl
    · rfl
    · rfl
  · rfl

theorem atop_callMethod (method : Method) (receiver : Value) (held : List Value) (arg : Value)
    (pos : Position) : (m.atop below).callMethod method receiver held arg pos =
      (m.callMethod method receiver held arg pos).atop below := by
  cases method with
  | str => exact m.atop_stringify below held pos receiver
  | len => exact m.atop_lengthOf below pos receiver
  | join =>
    unfold callMethod join
    dsimp only [atop_store]
    split
    · exact m.atop_renderTexts below _ _ _ pos _
    · rfl
  | clone => rfl
  | add => cases receiver <;> rfl
  | pop => cases receiver <;> rfl
  | contains =>
    unfold callMethod contains
    dsimp only [atop_store]
    split <;> rfl
  | upper => cases receiver <;> rfl
  | lower => cases receiver <;> rfl
  | split =>
    unfold callMethod Machine.split
    dsimp only
    split <;> rfl

theorem atop_runNative (n : Native) (callee : Value) (args : List Value) (pos : Position) :
    (m.atop below).runNative n callee args pos = (m.runNative n callee args pos).atop below := by
  cases n with
  | print => exact m.atop_renderTexts below _ _ _ pos _
  | input =>
    unfold runNative
    dsimp only
    split
    · exact m.atop_renderTexts below _ _ _ pos _
    · rfl
  | typeof => rfl
  | str => exact m.atop_stringify below _ pos _
  | len => exact m.atop_lengthOf below pos _
  | range => exact m.atop_proceedAt below pos _ fun _ => rfl
  | method method receiver => exact m.atop_callMethod below method receiver _ _ pos
  | host name arity keeps run =>
    simp only [runNative, atop]
    generalize (run args.length).perform m.objectClass m.store (keeps :: args) = r
    obtain ⟨_ | _, _⟩ := r <;> rfl

theorem atop_callNative (n : Native) (callee : Value) (args : List Value) (pos : Position) :
    (m.atop below).callNative n callee args pos = (m.callNative n callee args pos).atop below := by
  unfold callNative
  split
  · split
    · exact m.atop_runNative below n callee args pos
    · rfl
  · exact m.atop_runNative below n callee args pos

theorem atop_call (callee : Value) (args : List Value) (pos : Position) :
    (m.atop below).call callee args pos = (m.call callee args pos).atop below := by
  unfold call
  dsimp only [atop_store]
  split
  · split
    · exact m.atop_callFunction below _ _ args pos
    · exact m.atop_callNative below _ _ args pos
    · rfl
  · exact m.atop_construct below _ args pos
  · exact m.atop_cast below _ args pos
  · rfl

/-! ## Files and namespaces -/

theorem atop_enterNamespace (d : NamespaceDecl) :
    (m.atop below).enterNamespace d = (m.enterNamespace d).atop below :=
  atop_sequence ((m.enterScope m.scope .module).push _) below _ d.body

theorem atop_importLocated (pos : Position) (path : String) :
    (m.atop below).importLocated pos path = (m.importLocated pos path).atop below := by
  unfold importLocated
  dsimp only [atop_modules, atop_loading]
  split
  · rfl
  · split <;> rfl

theorem atop_enterModule (path source : String) :
    (m.atop below).enterModule path source = (m.enterModule path source).atop below := by
  refine m.atop_proceed below _ fun program => ?_
  exact atop_program ((({ m with loading := m.loading ++ [path] }.push _).enterScope _ _).push _)
    below _ program

theorem atop_enterProgram (path : Option String) (program : Program) :
    (m.atop below).enterProgram path program = (m.enterProgram path program).atop below := by
  exact atop_program (({ m with loading := m.loading ++ path.toList }.push _).enterScope _ _)
    below _ program

/-! ## Expressions and statements -/

theorem atop_evalItems (done : List Value) (todo : List Expr) :
    (m.atop below).evalItems done todo = (m.evalItems done todo).atop below := by
  cases todo <;> rfl

theorem atop_evalFields (done : Table Value) (todo : List (String × Expr)) :
    (m.atop below).evalFields done todo = (m.evalFields done todo).atop below := by
  cases todo <;> rfl

theorem atop_evalArguments (pos : Position) (callee : Value) (done : List Value)
    (todo : List Expr) : (m.atop below).evalArguments pos callee done todo =
      (m.evalArguments pos callee done todo).atop below := by
  cases todo with
  | nil => exact m.atop_call below callee _ pos
  | cons e todo => rfl

theorem atop_evalAssigned (frame : ValueFrame) (pos : Position) (sign : AssignSign)
    (current : Unit → Except Failure (Value × Store)) (value : Expr) :
    (m.atop below).evalAssigned frame pos sign current value =
      (m.evalAssigned frame pos sign current value).atop below := by
  unfold evalAssigned
  split
  · rfl
  · exact m.atop_proceedAt below pos _ fun _ => rfl

theorem atop_assign (pos : Position) (sign : AssignSign) (target value : Expr) :
    (m.atop below).assign pos sign target value = (m.assign pos sign target value).atop below := by
  unfold assign
  split
  · exact m.atop_evalAssigned below _ pos sign _ value
  · rfl
  · rfl
  · rfl

theorem atop_evaluate (e : Expr) : (m.atop below).evaluate e = (m.evaluate e).atop below := by
  cases e with
  | name pos n => exact m.atop_proceedAt below pos _ fun _ => rfl
  | array _ items => exact m.atop_evalItems below _ items
  | object _ fields => exact m.atop_evalFields below _ fields
  | assign pos sign target value => exact m.atop_assign below pos sign target value
  | namespaceDef _ d => exact m.atop_enterNamespace below d
  | _ => rfl

theorem atop_afterLeft (pos : Position) (op : BinaryOp) (right : Expr) (l : Value) :
    (m.atop below).afterLeft pos op right l = (m.afterLeft pos op right l).atop below := by
  unfold afterLeft
  split
  · split <;> rfl
  · split <;> rfl
  · split <;> rfl
  · rfl

theorem atop_execute (s : Stmt) : (m.atop below).execute s = (m.execute s).atop below := by
  cases s with
  | declare pos q name typing value _ =>
    cases value with
    | some e => rfl
    | none => exact m.atop_bindDeclared below pos q name .nil
  | function pos d _ => exact atop_bindStatement (m.functionValue d).2 below pos _ _
  | classDef pos d _ => exact atop_bindStatement (m.classValue d).2 below pos _ _
  | namespaceDef pos d _ => exact atop_enterNamespace (m.push _) below d
  | block _ body => exact m.atop_enterBlock below body
  | returnValue _ value => cases value <;> rfl
  | _ => rfl

/-! ## Steps -/

theorem atop_resumeValue (v : Value) (f : ValueFrame) :
    (m.atop below).resumeValue v f = (m.resumeValue v f).atop below := by
  unfold resumeValue
  cases f with
  | item done todo => exact m.atop_evalItems below _ todo
  | field done name todo => exact m.atop_evalFields below _ todo
  | left pos op right => exact m.atop_afterLeft below pos op right v
  | right pos op left => exact m.atop_binary below pos op left v
  | operand pos op => exact m.atop_unary below pos op v
  | storeName pos name => exact m.atop_changeAt below pos _ fun _ => rfl
  | memberOwner pos sign name value => exact m.atop_evalAssigned below _ pos sign _ value
  | storeMember pos owner name => exact m.atop_change below _ fun _ => rfl
  | elementKey pos sign owner value => exact m.atop_evalAssigned below _ pos sign _ value
  | storeElement pos owner key => exact m.atop_change below _ fun _ => rfl
  | callee pos args => exact m.atop_evalArguments below pos v _ args
  | argument pos callee done todo => exact m.atop_evalArguments below pos callee _ todo
  | member pos name => exact m.atop_proceedAt below pos _ fun _ => rfl
  | key pos owner => exact m.atop_proceedAt below pos _ fun _ => rfl
  | importPath pos => cases v <;> rfl
  | declare pos q name typing =>
    exact m.atop_proceed below _ fun _ => m.atop_bindDeclared below pos q name v
  | destructure pos q targets =>
    exact m.atop_proceed below _ fun _ => m.atop_bindTargets below q v _
  | branch body otherwise => exact m.atop_branch below v body otherwise
  | loopTest condition body => exact m.atop_loopTest below v condition body
  | loopItems pos itemsPos item body =>
    exact m.atop_proceedAt below itemsPos _ fun items => m.atop_loopOver below pos item body v items
  | bindName pos name => exact m.atop_bindStatement below pos name v
  | strResult className pos => cases v <;> rfl
  | _ => rfl

theorem atop_resumeFlow (g : Flow) (f : FlowFrame) :
    (m.atop below).resumeFlow g f = (m.resumeFlow g f).atop below := by
  cases f with
  | sequence last todo =>
    cases g with
    | normal v => exact m.atop_sequence below v todo
    | _ => rfl
  | program last todo => cases g <;> exact m.atop_program below _ todo
  | loopBody condition body => cases g <;> rfl
  | itemBody pos item body iterable todo =>
    cases g with
    | broke => rfl
    | returned v => rfl
    | _ => exact m.atop_loopOver below pos item body iterable todo
  | functionBody => cases g <;> rfl
  | namespaceBody name body => rfl

theorem atop_resumeText (t : String) (f : TextFrame) :
    (m.atop below).resumeText t f = (m.resumeText t f).atop below := by
  cases f with
  | parts => exact m.atop_renderParts below _ _ _ _ _ _ _
  | texts => exact m.atop_renderTexts below _ _ _ _ _

theorem atop_resume (r : Result) {f : Frame} (hf : ∀ e, f ≠ .exit e) :
    (m.atop below).resume r f = (m.resume r f).atop below := by
  cases f with
  | exit e => exact absurd rfl (hf e)
  | value f =>
    cases r with
    | value v => exact m.atop_resumeValue below v f
    | _ => rfl
  | flow f =>
    cases r with
    | flow g => exact m.atop_resumeFlow below g f
    | _ => rfl
  | text f =>
    cases r with
    | text t => exact m.atop_resumeText below t f
    | _ => rfl

end

/-- Exits look at the whole stack, but only for what it holds. -/
theorem atop_leave (m : Machine) {below below' : List Frame}
    (h : below'.flatMap Frame.refs = below.flatMap Frame.refs) (r : Result) (e : ExitFrame) :
    (m.atop below').leave r e = { (m.atop below).leave r e with stack := m.stack ++ below' } := by
  have hheld : (m.atop below').held = (m.atop below).held := by
    simp only [held, atop, List.flatMap_append, h]
  cases e with
  | scope previous => cases hr : m.reclaims <;> simp only [leave, hheld, atop_reclaims, hr] <;> rfl
  | call f held pos =>
    cases r with
    | value v =>
      simp only [leave, proceed, atop_store]
      cases m.store.checkIf (m.store.leasedScope f.closure) v f.decl.returns pos <;> rfl
    | _ => rfl
  | module path =>
    cases r with
    | value v => cases v <;> rfl
    | _ => rfl
  | run located =>
    have hheld' : ∀ loading, held { m.atop below' with loading := loading } =
        held { m.atop below with loading := loading } := fun _ => hheld
    cases located <;> cases hr : m.reclaims <;>
      simp only [leave, Bool.false_eq_true, ↓reduceIte, hheld, hheld', atop_reclaims, hr] <;> rfl
  | session previous => rfl

end Machine

/-! ## Steps -/

inductive Step.Alike (R : Machine → Machine → Prop) : Step → Step → Prop
  | next {m m' : Machine} : R m m' → Alike R (.next m) (.next m')
  | ask {request : Request} {resume resume' : request.Reply → Machine} :
    (∀ reply, R (resume reply) (resume' reply)) →
    Alike R (.ask request resume) (.ask request resume')

namespace Step.Alike

variable {R : Machine → Machine → Prop} {s s' : Step}

theorem imp {R' : Machine → Machine → Prop} (h : s.Alike R s') (hR : ∀ {m m'}, R m m' → R' m m') :
    s.Alike R' s' := by
  cases h with
  | next h => exact .next (hR h)
  | ask h => exact .ask fun reply => hR (h reply)

theorem of_next {m : Machine} (h : s.Alike R s') (hs : s = .next m) :
    ∃ m', s' = .next m' ∧ R m m' := by
  subst hs
  cases h with
  | next h => exact ⟨_, rfl, h⟩

theorem of_ask {request : Request} {resume : request.Reply → Machine} (h : s.Alike R s')
    (hs : s = .ask request resume) :
    ∃ resume', s' = .ask request resume' ∧ ∀ reply, R (resume reply) (resume' reply) := by
  subst hs
  cases h with
  | ask h => exact ⟨_, rfl, h⟩

end Step.Alike

def SameAtop (below below' : List Frame) (m m' : Machine) : Prop :=
  ∃ top : Machine, m = top.atop below ∧ m' = top.atop below'

/-- What is done over a stack depends only on what the stack holds. -/
theorem Machine.atop_step {m : Machine} {below below' : List Frame} (hgo : ¬ m.Gives [])
    (h : below'.flatMap Frame.refs = below.flatMap Frame.refs) :
    Step.Alike (SameAtop below below') (m.atop below).step (m.atop below').step := by
  unfold step
  rw [atop_control, atop_control]
  split
  next e _ => exact .next ⟨_, m.atop_evaluate below e, m.atop_evaluate below' e⟩
  next s _ => exact .next ⟨_, m.atop_execute below s, m.atop_execute below' s⟩
  next v nested path pos _ =>
    exact .next ⟨_, m.atop_render below v nested path pos, m.atop_render below' v nested path pos⟩
  next => exact .ask fun _ => ⟨m.give .nil, rfl, rfl⟩
  next => exact .ask fun answer => ⟨m.give _, rfl, rfl⟩
  next file program _ =>
    exact .ask fun found =>
      ⟨_, m.atop_enterProgram below _ program, m.atop_enterProgram below' _ program⟩
  next path pos _ =>
    refine .ask fun found => ?_
    cases (found : Except String String) with
    | ok path =>
      exact ⟨_, m.atop_importLocated below pos path, m.atop_importLocated below' pos path⟩
    | error reason => exact ⟨m.fail pos _, rfl, rfl⟩
  next path pos _ =>
    refine .ask fun source => ?_
    cases (source : Except String String) with
    | ok source =>
      exact ⟨_, m.atop_enterModule below path source, m.atop_enterModule below' path source⟩
    | error reason => exact ⟨m.fail pos _, rfl, rfl⟩
  next r hc =>
    cases hs : m.stack with
    | nil => exact absurd ⟨hs, r, hc⟩ hgo
    | cons f stack =>
      have hstack : ∀ s, (m.atop s).stack = f :: (stack ++ s) := fun s => by
        rw [atop, hs, List.cons_append]
      rw [hstack, hstack]
      refine .next ?_
      change SameAtop below below' (({ m with stack := stack }.atop below).resume r f)
        (({ m with stack := stack }.atop below').resume r f)
      generalize { m with stack := stack } = m
      cases f with
      | exit e =>
        exact ⟨{ (m.atop below).leave r e with stack := m.stack }, m.atop_leave rfl r e,
          m.atop_leave h r e⟩
      | value f => exact ⟨_, m.atop_resume below r nofun, m.atop_resume below' r nofun⟩
      | flow f => exact ⟨_, m.atop_resume below r nofun, m.atop_resume below' r nofun⟩
      | text f => exact ⟨_, m.atop_resume below r nofun, m.atop_resume below' r nofun⟩

end TinyScript

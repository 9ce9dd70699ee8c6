/-
  TinyScript.Proofs.Code.Beginning — whatever is begun fits, and is light.

  For each thing that the machine starts: where it is started for a stack that waits for what it
  gives, the frames that it puts there fit each other, and so does what is done next. With code that
  keeps to the rules all of this is code that keeps to the rules, and it is lighter than what was
  there before. The functions and classes of the store keep to the rules too (`Store.Keeps`), which
  is all that a call needs to know.
-/

import TinyScript.Proofs.Code.Frames

namespace TinyScript

open TinyScript.Derivation TinyScript.Text

variable {body : List Stmt} {f : Function}

/-! ## The store -/

structure Store.Keeps (k : Rules) (s : Store) : Prop where
  functions : ∀ {r f}, s.cell? r = some (.function f) → k.function f.decl = true
  methods : ∀ {r c name f}, s.cell? r = some (.classDef c) → c.methods.get? name = some f →
    k.names name = true ∧ k.function f.decl = true

namespace Store.Keeps

variable {k : Rules} {s : Store}

theorem class? (h : Keeps k s) {r : Ref} {c : Class} {name : String} (hc : s.class? r = some c)
    (hf : c.methods.get? name = some f) :
    k.names name = true ∧ k.function f.decl = true :=
  h.methods (class?_eq_some.1 hc) hf

theorem boundMethod? (h : Keeps k s) {v : Value} {name : String}
    (hf : s.boundMethod? v name = some f) :
    k.names name = true ∧ k.function f.decl = true := by
  unfold Store.boundMethod? at hf
  split at hf
  · simp only [Option.bind_eq_bind, Option.bind_eq_some_iff, Option.pure_def,
      Option.some.injEq] at hf
    obtain ⟨⟨_, _⟩, hc, method, hm, rfl⟩ := hf
    obtain ⟨_, _, hclass⟩ := classOf?_eq_some.1 hc
    exact h.class? (f := method) hclass hm
  · cases hf

end Store.Keeps

theorem Expr.sizeOf_pos (e : Expr) : 0 < sizeOf e := by
  cases e <;> exact Nat.pos_of_ne_zero (by simp)

namespace Job

variable {j : Job} {d : Bool} {want : Awaited} {m : Machine} {n : Nat}

/-! ## Results -/

section

variable (h : j.At d want m.stack)
include h

theorem At.fault (f : Fault) : j.Begun (m.fault f) := ⟨d, h.frames, trivial, nofun⟩

theorem At.fail (pos : Position) (f : Failure) : j.Begun (m.fail pos f) := h.fault _

theorem At.proceed {α : Type} {r : Except Fault α} {next : α → Machine}
    (hnext : ∀ a, r = .ok a → j.Begun (next a)) : j.Begun (m.proceed r next) := by
  unfold Machine.proceed
  split
  next a => exact hnext a rfl
  next f => exact h.fault f

theorem At.proceedAt {α : Type} {pos : Position} {r : Except Failure α} {next : α → Machine}
    (hnext : ∀ a, r = .ok a → j.Begun (next a)) : j.Begun (m.proceedAt pos r next) := by
  unfold Machine.proceedAt
  split
  next a => exact hnext a rfl
  next f => exact h.fail pos f

theorem At.change {r : Except Fault Change} {next : Machine → Machine}
    (hnext : ∀ n : Machine, n.stack = m.stack → j.Begun (next n)) : j.Begun (m.change r next) := by
  unfold Machine.change
  split
  next c => exact hnext _ rfl
  next f => exact h.fault f

theorem At.changeAt {pos : Position} {r : Except Failure Change} {next : Machine → Machine}
    (hnext : ∀ n : Machine, n.stack = m.stack → j.Begun (next n)) :
    j.Begun (m.changeAt pos r next) := by
  unfold Machine.changeAt
  split
  next c => exact hnext _ rfl
  next f => exact h.fail pos f

/-! ## Frames come -/

theorem At.pushValue {f : ValueFrame} (hgives : f.gives = want)
    (hkeeps : f.keeps j.rules (placeOf m.stack) = true) (hr : j.Room d n) (hn : f.weight < n) :
    j.At d .value (m.push (.value f)).stack :=
  ⟨h.frames.push ⟨hgives.trans h.awaits.symm, hkeeps⟩ (hr.light hn) rfl, rfl⟩

theorem At.pushFlow {f : FlowFrame} (hgives : f.gives = want)
    (hkeeps : f.keeps j.rules (placeOf m.stack) = true) (hl : j.Light d f.weight) :
    j.At d .flow (m.push (.flow f)).stack :=
  ⟨h.frames.push ⟨hgives.trans h.awaits.symm, hkeeps⟩ hl rfl, rfl⟩

theorem At.pushText {f : TextFrame} (hgives : f.gives = want)
    (hl : j.Light d (Frame.weight j.cells (.text f))) :
    j.At d .text (m.push (.text f)).stack :=
  ⟨h.frames.push (hgives.trans h.awaits.symm) hl rfl, rfl⟩

theorem At.enterScope (hne : want ≠ .text) (hr : j.Room d n) (hn : 0 < n) (parent : ScopeId)
    (kind : ScopeKind) : j.At d want (m.enterScope parent kind).stack :=
  ⟨h.frames.push (fun he => hne (h.awaits.symm.trans he)) (hr.light hn) rfl, h.awaits⟩

end

section

variable (h : j.At d .value m.stack)
include h

theorem At.give (v : Value) : j.Begun (m.give v) := ⟨d, h.frames, h.awaits, nofun⟩

theorem At.giveNew (f : Store → Value × Store) : j.Begun (m.giveNew f) :=
  At.give (m := { m with store := (f m.store).2 }) h _

theorem At.giveIn (r : Value × Store) : j.Begun (m.giveIn r) :=
  At.give (m := { m with store := r.2 }) h _

theorem At.eval {e : Expr} (he : j.rules.expr e = true) (hr : j.Room d n)
    (hn : 8 * sizeOf e < n) : j.Begun (m.eval e) := by
  refine ⟨d, h.frames, ⟨h.awaits, he⟩, ?_⟩
  rintro _ ⟨rfl⟩
  exact hr.light hn

end

/-- A function is entered. -/
theorem At.enterCall (h : j.At d .value m.stack) (hr : j.Room d n) (hn : 0 < n) (f : Function)
    (held : List Value) (pos : Position) :
    j.At true .value (m.push (.exit (.call f held pos))).stack :=
  ⟨h.frames.enter h.awaits (hr.light hn) rfl, rfl⟩

theorem At.enterFile (h : j.At d .value m.stack) (hr : j.Room d n) (hn : 0 < n) (path : String) :
    j.At true .value (m.push (.exit (.module path))).stack :=
  ⟨h.frames.enter h.awaits (hr.light hn) rfl, rfl⟩

theorem At.text (h : j.At d .text m.stack) (t : String) : j.Begun (m.text t) :=
  ⟨d, h.frames, h.awaits, nofun⟩

/-- An expression is evaluated for a frame. -/
theorem At.evalFor (h : j.At d want m.stack) {f : ValueFrame} {e : Expr} (hgives : f.gives = want)
    (hkeeps : f.keeps j.rules (placeOf m.stack) = true) (he : j.rules.expr e = true)
    (hr : j.Room d n) (hf : f.weight < n) (hn : 8 * sizeOf e < n) : j.Begun (m.evalFor f e) :=
  At.eval (h.pushValue hgives hkeeps hr hf) he hr hn

/-! ## Statements one after the other -/

section

variable (h : j.At d .flow m.stack)
include h

theorem At.flow {f : Flow}
    (hf : j.rules.places = true → f.mayLeave (placeOf m.stack) = true) : j.Begun (m.flow f) :=
  ⟨d, h.frames, ⟨h.awaits, hf⟩, nofun⟩

theorem At.normal (v : Value) : j.Begun (m.flow (.normal v)) := h.flow fun _ => rfl

theorem At.exec {s : Stmt} (hs : j.rules.stmt (placeOf m.stack) s = true) (hr : j.Room d n)
    (hn : 8 * sizeOf s < n) : j.Begun (m.exec s) := by
  refine ⟨d, h.frames, ⟨h.awaits, hs⟩, ?_⟩
  rintro _ ⟨rfl⟩
  exact hr.light hn

theorem At.sequence (last : Value) (hbody : j.rules.stmts (placeOf m.stack) body = true)
    (hr : j.Room d n) (hn : 8 * sizeOf body + 4 ≤ n) : j.Begun (m.sequence last body) := by
  cases body with
  | nil => exact h.normal last
  | cons s todo =>
    rw [Rules.stmts_cons, Bool.and_eq_true] at hbody
    rw [List.cons.sizeOf_spec] at hn
    have hpush := h.pushFlow (f := .sequence last todo) rfl hbody.2
      (hr.light (by simp only [FlowFrame.weight]; omega))
    exact At.exec hpush hbody.1 hr (by omega)

theorem At.enterBlock (hbody : j.rules.stmts (placeOf m.stack).branch body = true) (hr : j.Room d n)
    (hn : 8 * sizeOf body + 4 ≤ n) : j.Begun (m.enterBlock body) :=
  At.sequence (h.enterScope nofun hr (by omega) _ _) _ hbody hr hn

theorem At.bindStatement (pos : Position) (name : String) (v : Value) :
    j.Begun (m.bindStatement pos name v) :=
  h.changeAt fun _ hn => At.normal (hn ▸ h) v

theorem At.bindDeclared (pos : Position) (q : Qualifier) (name : String) (v : Value) :
    j.Begun (m.bindDeclared pos q name v) :=
  h.changeAt fun _ hn => At.normal (hn ▸ h) v

/-- A loop over values is lighter with each of them. -/
theorem At.loopOver (pos : Position) (item : String) (iterable : Value) {todo : List Value}
    (hbody : j.rules.stmts (placeOf m.stack).loop body = true) (hr : j.Room d (8 * sizeOf body + 5))
    (hl : ∀ n < todo.length, j.Light d ⟨8 * sizeOf body + 5, 0, n⟩) :
    j.Begun (m.loopOver pos item body iterable todo) := by
  cases todo with
  | nil => exact h.normal _
  | cons v todo =>
    have hpush := h.pushFlow (f := .itemBody pos item body iterable todo) rfl hbody
      (hl todo.length (Nat.lt_succ_self _))
    have hscope := At.enterScope hpush nofun hr (by omega) m.scope .block
    exact At.changeAt hscope fun _ hn =>
      At.sequence (hn ▸ hscope) _ (hn ▸ hbody) hr (by omega)

end

theorem At.program (h : j.At d .value m.stack) (last : Value) (hbody : j.rules.program body = true)
    (hr : j.Room d n) (hn : 8 * sizeOf body + 4 ≤ n) :
    j.Begun (m.program last body) := by
  cases body with
  | nil => exact h.give last
  | cons s todo =>
    rw [Rules.program, Rules.stmts_cons, Bool.and_eq_true] at hbody
    rw [List.cons.sizeOf_spec] at hn
    have hpush := h.pushFlow (f := .program last todo) rfl hbody.2
      (hr.light (by simp only [FlowFrame.weight]; omega))
    exact At.exec hpush hbody.1 hr (by omega)

theorem At.bindTargets (h : j.At d .flow m.stack) (q : Qualifier) (whole : Value)
    (targets : List (Param × Value)) : j.Begun (m.bindTargets q whole targets) := by
  induction targets generalizing m with
  | nil => exact h.normal whole
  | cons target rest ih => exact h.proceed fun _ _ => h.changeAt fun _ hn => ih (hn ▸ h)

/-! ## Calls -/

theorem At.bindArguments (h : j.At true .flow m.stack)
    (hbody : j.rules.stmts (placeOf m.stack) body = true) (params : List (Param × Value)) :
    j.Begun (m.bindArguments body params) := by
  induction params generalizing m with
  | nil => exact h.sequence _ hbody (room_entered _) (Nat.le_refl _)
  | cons param rest ih => exact h.changeAt fun _ hn => ih (hn ▸ h) (hn ▸ hbody)

theorem At.startBody (h : j.At true .flow m.stack)
    (hbody : j.rules.stmts (placeOf m.stack) f.decl.body = true) (args : List Value)
    (pos : Position) : j.Begun (m.startBody f args pos) := by
  unfold Machine.startBody
  split
  · exact h.changeAt fun _ hn => At.bindArguments (hn ▸ h) (hn ▸ hbody) _
  · exact h.bindArguments hbody _

section

variable (h : j.At d .value m.stack)
include h

theorem At.callFunction (hf : j.rules.function f.decl = true) (held args : List Value)
    (pos : Position) (hr : j.Room d n) (hn : 0 < n) :
    j.Begun (m.callFunction f held args pos) := by
  unfold Machine.callFunction
  dsimp only
  split
  · exact h.fail pos _
  · split
    · exact h.fail pos _
    · refine h.proceed fun _ _ => ?_
      have hcall := At.enterCall (m := { m with depth := m.depth + 1 }) h hr hn f held pos
      have hscope := At.enterScope hcall nofun (room_entered 1) Nat.one_pos
        (m.store.leasedScope f.closure) .function
      have hbody := At.pushFlow hscope (f := .functionBody) rfl rfl (light_entered _)
      rw [Rules.function_eq] at hf
      exact At.startBody hbody hf args pos

theorem At.construct (hs : m.store.Keeps j.rules) (classRef : Ref) (args : List Value)
    (pos : Position) (hr : j.Room d n) (hn : 5 ≤ n) : j.Begun (m.construct classRef args pos) := by
  unfold Machine.construct
  split
  · exact h.fail pos _
  next c hc =>
    dsimp only
    split
    next init hinit =>
      refine At.callFunction (At.pushValue ?_ rfl rfl hr ?_) ?_ _ _ _ hr (by omega)
      · exact h
      · exact hn
      · exact (hs.class? hc hinit).2
    · split
      · exact At.give (m := { m with store := _ }) h _
      · exact At.fail (m := { m with store := _ }) h pos _

end

/-! ## Texts -/

/-- Each part is nested deeper than the container, and with each part fewer are left. -/
theorem At.renderParts (h : j.At d .text m.stack) (opening closing : String) (held : List Value)
    (done : List String) (path : List Ref) (pos : Position) {todo : List (String × Value)}
    (hl : ∀ n < todo.length, j.Light d ⟨2, 2 * unvisited j.cells path + 2, n⟩) :
    j.Begun (m.renderParts opening closing held done path pos todo) := by
  cases todo with
  | nil => exact h.text _
  | cons part todo =>
    have hlight := hl todo.length (Nat.lt_succ_self _)
    have hpush := h.pushText (f := .parts opening closing held done part.1 todo path pos) rfl hlight
    refine ⟨d, hpush.frames, rfl, ?_⟩
    rintro _ ⟨rfl⟩
    intro hb hd
    rcases hlight hb hd with hcode | ⟨hcode, hnested | ⟨hnested, _⟩⟩
    · exact .inl hcode
    · exact .inr ⟨hcode, .inl (Nat.lt_of_succ_lt hnested)⟩
    · exact .inr ⟨hcode, .inl (Nat.lt_of_lt_of_eq (Nat.lt_succ_self _) hnested)⟩

theorem At.renderTexts (h : j.At d .value m.stack) (use : TextUse) (held : List Value)
    (done : List String) (pos : Position) {todo : List Value} (hr : j.Room d 2)
    (hl : ∀ n < todo.length, j.Light d ⟨3, 0, n⟩) :
    j.Begun (m.renderTexts use held done pos todo) := by
  cases todo with
  | nil =>
    have hlight : j.Light d ⟨1, 0, 0⟩ := hr.light (Nat.lt_succ_self 1)
    cases use with
    | print => exact ⟨d, h.frames, h.awaits, by rintro _ ⟨rfl⟩; exact hlight⟩
    | prompt => exact ⟨d, h.frames, h.awaits, by rintro _ ⟨rfl⟩; exact hlight⟩
    | join separator => exact h.give _
  | cons v todo =>
    have hlight := hl todo.length (Nat.lt_succ_self _)
    have hpush := h.pushText (f := .texts use held done todo pos) rfl hlight
    refine ⟨d, hpush.frames, rfl, ?_⟩
    rintro _ ⟨rfl⟩
    intro hb hd
    refine .inl ?_
    rcases hlight hb hd with hcode | ⟨hcode, _⟩
    · exact Nat.lt_of_succ_lt hcode
    · exact Nat.lt_of_lt_of_eq (Nat.lt_succ_self 2) hcode

section

variable (h : j.At d .value m.stack)
include h

/-- Texts are written by whatever weighs more than they do. -/
theorem At.startTexts (use : TextUse) (held : List Value) (pos : Position) (todo : List Value)
    (hr : j.Room d n) (hn : 4 ≤ n) : j.Begun (m.renderTexts use held [] pos todo) :=
  h.renderTexts use held [] pos (hr.mono (by omega)) fun _ _ => hr.light hn

/-! ## Operators and built-in functions -/

theorem At.applyBinary (pos : Position) (op : BinaryOp) (l r : Value) (hr : j.Room d n)
    (hn : 4 ≤ n) : j.Begun (m.applyBinary pos op l r) := by
  unfold Machine.applyBinary
  split
  · exact h.give _
  · dsimp only
    split
    · exact h.startTexts _ _ _ _ hr hn
    · exact h.startTexts _ _ _ _ hr hn
    · exact h.giveNew _
    · exact h.fail pos _

theorem At.binary (hs : m.store.Keeps j.rules) (pos : Position) (op : BinaryOp) (l r : Value)
    (hr : j.Room d n) (hn : 5 ≤ n) : j.Begun (m.binary pos op l r) := by
  unfold Machine.binary
  split
  next f hf =>
    obtain ⟨name, _, hf⟩ := Option.bind_eq_some_iff.1 hf
    exact At.callFunction (h.pushValue (f := .operator op l r) rfl rfl hr hn)
      (hs.boundMethod? hf).2 _ _ _ hr (by omega)
  · exact h.applyBinary pos op l r hr (by omega)

theorem At.unary (hs : m.store.Keeps j.rules) (pos : Position) (op : UnaryOp) (v : Value)
    (hr : j.Room d n) (hn : 5 ≤ n) : j.Begun (m.unary pos op v) := by
  unfold Machine.unary
  dsimp only
  split
  · exact h.give _
  · exact h.give _
  · exact h.give _
  · split
    next f hf =>
      exact At.callFunction (h.pushValue (f := .hold _) rfl rfl hr hn)
        (hs.boundMethod? hf).2 _ _ _ hr (by omega)
    · exact h.fail pos _
  · exact h.fail pos _

theorem At.lengthOf (pos : Position) (v : Value) : j.Begun (m.lengthOf pos v) := by
  unfold Machine.lengthOf
  split
  · exact h.give _
  · exact h.fail pos _

theorem At.cast (t : BuiltinType) (args : List Value) (pos : Position) (hr : j.Room d n)
    (hn : 4 ≤ n) : j.Begun (m.cast t args pos) := by
  unfold Machine.cast
  split
  · split
    · split
      · exact h.give _
      · exact h.fail pos _
    · exact h.startTexts _ _ _ _ hr hn
    · exact h.give _
    · exact h.give _
    · exact h.fail pos _
  · exact h.fail pos _

theorem At.append (receiver arg : Value) : j.Begun (m.append receiver arg) := by
  unfold Machine.append
  split
  · exact At.give (m := m.changed _) h _
  · exact h.give _

theorem At.pop (receiver : Value) : j.Begun (m.pop receiver) := by
  unfold Machine.pop
  split
  · exact At.give (m := m.changed _) h _
  · exact h.give _

theorem At.contains (pos : Position) (receiver arg : Value) :
    j.Begun (m.contains pos receiver arg) := by
  unfold Machine.contains
  split
  · exact h.give _
  · exact h.give _
  · exact h.fail pos _

theorem At.join (pos : Position) (held : List Value) (receiver separator : Value)
    (hr : j.Room d n) (hn : 4 ≤ n) : j.Begun (m.join pos held receiver separator) := by
  unfold Machine.join
  split
  · exact h.startTexts _ _ _ _ hr hn
  · exact h.fail pos _

theorem At.split (pos : Position) (receiver separator : Value) :
    j.Begun (m.split pos receiver separator) := by
  unfold Machine.split
  split
  · exact h.giveNew _
  · exact h.fail pos _

theorem At.mapText (receiver : Value) (f : List Char → List Char) :
    j.Begun (m.mapText receiver f) := by
  unfold Machine.mapText
  split <;> exact h.give _

theorem At.callMethod (method : Method) (receiver : Value) (held : List Value) (arg : Value)
    (pos : Position) (hr : j.Room d n) (hn : 4 ≤ n) :
    j.Begun (m.callMethod method receiver held arg pos) := by
  cases method with
  | str => exact h.startTexts _ _ _ _ hr hn
  | clone => exact h.giveNew _
  | len => exact h.lengthOf pos receiver
  | add => exact h.append receiver arg
  | pop => exact h.pop receiver
  | join => exact h.join pos held receiver arg hr hn
  | contains => exact h.contains pos receiver arg
  | upper => exact h.mapText receiver _
  | lower => exact h.mapText receiver _
  | split => exact h.split pos receiver arg

theorem At.runNative (f : Native) (callee : Value) (args : List Value) (pos : Position)
    (hr : j.Room d n) (hn : 4 ≤ n) : j.Begun (m.runNative f callee args pos) := by
  unfold Machine.runNative
  dsimp only
  split
  · exact h.startTexts _ _ _ _ hr hn
  · split
    · exact h.startTexts _ _ _ _ hr hn
    · exact h.fail pos _
  · exact h.give _
  · exact h.startTexts _ _ _ _ hr hn
  · exact h.lengthOf pos _
  · exact h.proceedAt fun items _ => h.giveNew _
  · exact h.callMethod _ _ _ _ pos hr hn
  · unfold Machine.giveAnswer
    split
    · exact At.give (m := { m with store := _ }) h _
    · exact At.fail (m := { m with store := _ }) h pos _

theorem At.callNative (f : Native) (callee : Value) (args : List Value) (pos : Position)
    (hr : j.Room d n) (hn : 4 ≤ n) : j.Begun (m.callNative f callee args pos) := by
  unfold Machine.callNative
  split
  · split
    · exact h.runNative f callee args pos hr hn
    · exact h.fail pos _
  · exact h.runNative f callee args pos hr hn

theorem At.call (hs : m.store.Keeps j.rules) (callee : Value) (args : List Value) (pos : Position)
    (hr : j.Room d n) (hn : 5 ≤ n) : j.Begun (m.call callee args pos) := by
  unfold Machine.call
  split
  · split
    next f hf => exact h.callFunction (hs.functions hf) _ _ _ hr (by omega)
    · exact h.callNative _ _ _ _ hr (by omega)
    · exact h.fail pos _
  · exact h.construct hs _ _ _ hr hn
  · exact h.cast _ _ _ hr (by omega)
  · exact h.fail pos _

/-! ## Files and namespaces -/

theorem At.enterNamespace {decl : NamespaceDecl} (hdecl : j.rules.space decl = true)
    (hr : j.Room d n) (hn : 8 * sizeOf decl ≤ n) : j.Begun (m.enterNamespace decl) := by
  obtain ⟨name, body, pos⟩ := decl
  rw [NamespaceDecl.mk.sizeOf_spec] at hn
  have hbody : 8 * sizeOf body + 4 ≤ n := by omega
  have hscope := h.enterScope nofun hr (by omega) m.scope .module
  have hpush := At.pushFlow hscope (f := .namespaceBody (shownName name) body) rfl rfl
    (hr.light (by simp only [FlowFrame.weight]; omega))
  exact At.sequence hpush _ hdecl hr hbody

theorem At.importFrom (pos : Position) (path : String) (hr : j.Room d n) (hn : 3 ≤ n) :
    j.Begun (m.importFrom pos path) :=
  ⟨d, h.frames, h.awaits, by rintro _ ⟨rfl⟩; exact hr.light hn⟩

theorem At.importLocated (pos : Position) (path : String) (hr : j.Room d n) (hn : 2 ≤ n) :
    j.Begun (m.importLocated pos path) := by
  unfold Machine.importLocated
  split
  · exact h.give _
  · split
    · exact h.fail pos _
    · exact ⟨d, h.frames, h.awaits, by rintro _ ⟨rfl⟩; exact hr.light hn⟩

theorem At.enterModule (path source : String)
    (hp : ∀ p, parseSource source path = .ok p → j.rules.program p = true) (hr : j.Room d n)
    (hn : 0 < n) : j.Begun (m.enterModule path source) := by
  refine h.proceed fun program hprogram => ?_
  have hfile := At.enterFile (m := { m with loading := m.loading ++ [path] }) h hr hn path
  have hscope := At.enterScope hfile nofun (room_entered 1) Nat.one_pos Store.global .module
  have hpush := At.pushValue hscope (f := .exports (Path.stem path) program) rfl rfl
    (room_entered 5) (Nat.lt_succ_self 4)
  exact At.program hpush _ (hp program hprogram) (room_entered _) (Nat.le_refl _)

theorem At.enterProgram (path : Option String) {program : Program}
    (hp : j.rules.program program = true) (hr : j.Room d n) (hn : 8 * sizeOf program + 4 ≤ n) :
    j.Begun (m.enterProgram path program) := by
  have hrun : j.At d .value ({ m with loading := m.loading ++ path.toList }.push
      (.exit (.run path.isSome))).stack :=
    ⟨h.frames.push h.awaits (hr.light (Nat.lt_of_lt_of_le (Nat.succ_pos _) hn)) rfl, rfl⟩
  exact At.program (At.enterScope hrun nofun hr (by omega) Store.global .module) _ hp hr hn

/-! ## Expressions -/

theorem At.evalItems (done : List Value) {todo : List Expr} (htodo : j.rules.exprs todo = true)
    (hr : j.Room d n) (hn : 8 * sizeOf todo ≤ n) : j.Begun (m.evalItems done todo) := by
  cases todo with
  | nil => exact h.giveNew _
  | cons e todo =>
    simp only [Rules.exprs, Bool.and_eq_true] at htodo
    rw [List.cons.sizeOf_spec] at hn
    exact h.evalFor (f := .item done todo) rfl htodo.2 htodo.1 hr
      (by simp only [ValueFrame.weight]; omega) (by omega)

theorem At.evalFields (done : Table Value) {todo : List (String × Expr)}
    (htodo : j.rules.fields todo = true) (hr : j.Room d n) (hn : 8 * sizeOf todo ≤ n) :
    j.Begun (m.evalFields done todo) := by
  cases todo with
  | nil => exact h.giveNew _
  | cons field todo =>
    obtain ⟨name, e⟩ := field
    simp only [Rules.fields, Bool.and_eq_true] at htodo
    rw [List.cons.sizeOf_spec, Prod.mk.sizeOf_spec] at hn
    exact h.evalFor (f := .field done name todo) rfl htodo.2 htodo.1 hr
      (by simp only [ValueFrame.weight]; omega) (by omega)

theorem At.evalArguments (hs : m.store.Keeps j.rules) (pos : Position) (callee : Value)
    (done : List Value) {todo : List Expr} (htodo : j.rules.exprs todo = true) (hr : j.Room d n)
    (hn : 8 * sizeOf todo ≤ n) : j.Begun (m.evalArguments pos callee done todo) := by
  cases todo with
  | nil =>
    rw [List.nil.sizeOf_spec] at hn
    exact h.call hs callee _ pos hr (by omega)
  | cons e todo =>
    simp only [Rules.exprs, Bool.and_eq_true] at htodo
    rw [List.cons.sizeOf_spec] at hn
    exact h.evalFor (f := .argument pos callee done todo) rfl htodo.2 htodo.1 hr
      (by simp only [ValueFrame.weight]; omega) (by omega)

/-- The frame that stores comes first, and what is there already is held for the operator. -/
theorem At.evalAssigned {frame : ValueFrame} (hgives : frame.gives = .value)
    (hkeeps : ∀ p, frame.keeps j.rules p = true) (hweight : frame.weight = 4) (pos : Position)
    (sign : AssignSign) (current : Unit → Except Failure (Value × Store)) {value : Expr}
    (hvalue : j.rules.expr value = true) (hr : j.Room d n) (hn : 8 * sizeOf value < n) :
    j.Begun (m.evalAssigned frame pos sign current value) := by
  have hpos := value.sizeOf_pos
  unfold Machine.evalAssigned
  split
  · exact h.evalFor hgives (hkeeps _) hvalue hr (by omega) hn
  next op _ =>
    refine h.proceedAt fun r _ => ?_
    have hpush := At.pushValue (m := { m with store := r.2 }) h hgives (hkeeps _) hr (by omega)
    exact At.evalFor hpush (f := .right pos op r.1) rfl rfl hvalue hr
      (by simp only [ValueFrame.weight]; omega) hn

theorem At.assign (pos : Position) (sign : AssignSign) {target value : Expr}
    (htarget : j.rules.expr target = true) (hvalue : j.rules.expr value = true) (hr : j.Room d n)
    (hn : 8 * (1 + sizeOf target + sizeOf value) ≤ n) :
    j.Begun (m.assign pos sign target value) := by
  unfold Machine.assign
  split
  · exact h.evalAssigned rfl (fun _ => rfl) rfl pos sign _ hvalue hr (by omega)
  next owner name =>
    rw [Expr.member.sizeOf_spec] at hn
    exact h.evalFor (f := .memberOwner pos sign name value) rfl hvalue htarget hr
      (by simp only [ValueFrame.weight]; omega) (by omega)
  next owner index =>
    rw [Rules.expr, Bool.and_eq_true] at htarget
    rw [Expr.index.sizeOf_spec] at hn
    exact h.evalFor (f := .elementOwner pos sign index value) rfl
      (by simp [ValueFrame.keeps, htarget.2, hvalue]) htarget.1 hr
      (by simp only [ValueFrame.weight]; omega) (by omega)
  · exact h.fail pos _

theorem At.evaluate {e : Expr} (he : j.rules.expr e = true) (hr : j.Room d (8 * sizeOf e)) :
    j.Begun (m.evaluate e) := by
  cases e with
  | name pos name => exact h.proceedAt fun r _ => h.give r.1
  | literal _ l => exact h.give _
  | group _ e =>
    rw [Expr.group.sizeOf_spec] at hr
    exact h.eval he hr (by omega)
  | array _ items =>
    rw [Expr.array.sizeOf_spec] at hr
    exact h.evalItems [] he hr (by omega)
  | object _ fields =>
    rw [Expr.object.sizeOf_spec] at hr
    exact h.evalFields ∅ he hr (by omega)
  | binary pos op l r =>
    rw [Rules.expr, Bool.and_eq_true] at he
    rw [Expr.binary.sizeOf_spec] at hr
    exact h.evalFor (f := .left pos op r) rfl he.2 he.1 hr
      (by simp only [ValueFrame.weight]; omega) (by omega)
  | unary pos op e =>
    rw [Expr.unary.sizeOf_spec] at hr
    exact h.evalFor (f := .operand pos op) rfl rfl he hr
      (by simp only [ValueFrame.weight]; omega) (by omega)
  | assign pos sign target value =>
    rw [Rules.expr, Bool.and_eq_true] at he
    rw [Expr.assign.sizeOf_spec] at hr
    exact h.assign pos sign he.1 he.2 hr (by omega)
  | call pos callee args =>
    rw [Rules.expr, Bool.and_eq_true] at he
    rw [Expr.call.sizeOf_spec] at hr
    exact h.evalFor (f := .callee pos args) rfl he.2 he.1 hr
      (by simp only [ValueFrame.weight]; omega) (by omega)
  | member pos owner name =>
    rw [Expr.member.sizeOf_spec] at hr
    exact h.evalFor (f := .member pos name) rfl rfl he hr
      (by simp only [ValueFrame.weight]; omega) (by omega)
  | index pos owner key =>
    rw [Rules.expr, Bool.and_eq_true] at he
    rw [Expr.index.sizeOf_spec] at hr
    exact h.evalFor (f := .indexed pos key) rfl he.2 he.1 hr
      (by simp only [ValueFrame.weight]; omega) (by omega)
  | function _ decl => exact At.give (m := (m.functionValue decl).2) h _
  | classDef _ decl => exact At.give (m := (m.classValue decl).2) h _
  | namespaceDef _ decl =>
    rw [Expr.namespaceDef.sizeOf_spec] at hr
    exact h.enterNamespace he hr (by omega)
  | importFrom pos path =>
    rw [Expr.importFrom.sizeOf_spec] at hr
    exact h.evalFor (f := .importPath pos) rfl rfl he hr
      (by simp only [ValueFrame.weight]; omega) (by omega)

theorem At.afterLeft (pos : Position) (op : BinaryOp) {right : Expr} (l : Value)
    (hright : j.rules.expr right = true) (hr : j.Room d n) (hn : 8 * sizeOf right < n) :
    j.Begun (m.afterLeft pos op right l) := by
  have hpos := right.sizeOf_pos
  have htruth : j.Begun (m.evalFor (.truth l) right) :=
    h.evalFor rfl rfl hright hr (by simp only [ValueFrame.weight]; omega) hn
  unfold Machine.afterLeft
  split
  · split
    · exact htruth
    · exact h.give _
  · split
    · exact h.give _
    · exact htruth
  · split
    · exact h.eval hright hr hn
    · exact h.give _
  · exact h.evalFor (f := .right pos op l) rfl rfl hright hr
      (by simp only [ValueFrame.weight]; omega) hn

end

end Job

end TinyScript

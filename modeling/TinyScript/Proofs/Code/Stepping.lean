/-
  TinyScript.Proofs.Code.Stepping — each step leaves a machine that fits.

  A statement, a frame that gets what it waits for, and a value to write each begin something that
  fits and is light. So a step of a machine that fits leads to one that fits (`Machine.Fits.next`,
  `Machine.Fits.ask`), and what a step begins is lighter than what it does (`Machine.Does`).
-/

import TinyScript.Proofs.Code.Beginning
import TinyScript.Proofs.Control.Moves

namespace TinyScript

open TinyScript.Derivation TinyScript.Text

def Request.Keeps (k : Rules) : (request : Request) → request.Reply → Prop
  | .read path, reply => ∀ source p, reply = .ok source → parseSource source path = .ok p →
    k.program p = true
  | _, _ => True

/-- All references to cells are below a bound. -/
theorem Store.exists_cells_lt (s : Store) : ∃ n, ∀ r c, s.cell? r = some c → r < n := by
  obtain ⟨n, hn⟩ := s.cells.keys.toFinset.exists_nat_subset_range
  refine ⟨n, fun r c hc => Finset.mem_range.1 (hn (List.mem_toFinset.2 ?_))⟩
  exact Std.TreeMap.mem_keys.2 (Std.TreeMap.isSome_getElem?_iff_mem.1 (Option.isSome_of_eq_some hc))

namespace Job

variable {j : Job} {d : Bool} {want : Awaited} {m : Machine} {n : Nat}

/-! ## Statements -/

/-- Without the second rule weights do not count. -/
theorem room_unbounded (hb : j.rules.bounded = false) (n : Nat) : j.Room d n :=
  fun hb' => absurd (hb.symm.trans hb') Bool.false_ne_true

theorem light_unbounded (hb : j.rules.bounded = false) (x : Weight) : j.Light d x :=
  fun hb' => absurd (hb.symm.trans hb') Bool.false_ne_true

section

variable (h : j.At d .flow m.stack)
include h

theorem At.branch (condition : Value) {body : List Stmt} {otherwise : Option Stmt}
    (hbody : j.rules.stmts (placeOf m.stack).branch body = true)
    (hother : otherwise.all (j.rules.stmt (placeOf m.stack).branch) = true) (hr : j.Room d n)
    (hn : 8 * (sizeOf body + sizeOf otherwise) + 4 ≤ n) :
    j.Begun (m.branch condition body otherwise) := by
  unfold Machine.branch
  split
  · exact h.enterBlock hbody hr (by omega)
  · cases otherwise with
    | some s =>
      rw [Option.some.sizeOf_spec] at hn
      exact h.exec (Rules.stmt_of_branch hother) hr (by omega)
    | none => exact h.normal _

theorem At.loopTest (test : Value) {condition : Expr} {body : List Stmt}
    (hkeeps : (ValueFrame.loopTest condition body).keeps j.rules (placeOf m.stack) = true) :
    j.Begun (m.loopTest test condition body) := by
  have hparts := hkeeps
  simp only [ValueFrame.keeps, Bool.and_eq_true, Bool.not_eq_true'] at hparts
  obtain ⟨⟨hb, _⟩, hbody⟩ := hparts
  unfold Machine.loopTest
  split
  · have hpush := h.pushFlow (f := .loopBody condition body) rfl hkeeps (light_unbounded hb _)
    exact At.enterBlock hpush hbody (room_unbounded hb _) (Nat.le_refl _)
  · exact h.normal _

theorem At.execute {s : Stmt} (hs : j.rules.stmt (placeOf m.stack) s = true)
    (hr : j.Room d (8 * sizeOf s)) : j.Begun (m.execute s) := by
  rw [Rules.stmt, Bool.and_eq_true] at hs
  obtain ⟨hstands, hs⟩ := hs
  simp only [Rules.stands, Bool.and_eq_true, Bool.or_eq_true, Bool.not_eq_true'] at hstands
  cases s with
  | expr _ e =>
    rw [Stmt.expr.sizeOf_spec] at hr
    exact h.evalFor (f := .statement) rfl rfl hs hr (by simp only [ValueFrame.weight]; omega)
      (by omega)
  | declare pos q name typing init _ =>
    cases init with
    | none => exact h.bindDeclared pos q name .nil
    | some e =>
      rw [Stmt.declare.sizeOf_spec, Option.some.sizeOf_spec] at hr
      exact h.evalFor (f := .declare pos q name typing) rfl rfl hs hr
        (by simp only [ValueFrame.weight]; omega) (by omega)
  | destructure _ q targets value _ =>
    rw [Stmt.destructure.sizeOf_spec] at hr
    exact h.evalFor (f := .destructure value.pos q targets) rfl rfl hs hr
      (by simp only [ValueFrame.weight]; omega) (by omega)
  | function pos decl _ => exact At.bindStatement (m := (m.functionValue decl).2) h pos _ _
  | classDef pos decl _ => exact At.bindStatement (m := (m.classValue decl).2) h pos _ _
  | namespaceDef pos decl _ =>
    rw [Stmt.namespaceDef.sizeOf_spec] at hr
    have hpush := h.pushValue (f := .bindName pos decl.shownName) rfl rfl hr
      (by simp only [ValueFrame.weight]; omega)
    exact At.enterNamespace hpush hs hr (by omega)
  | ifElse _ condition body otherwise =>
    rw [Stmt.ifElse.sizeOf_spec] at hr
    have hparts : j.rules.expr condition = true ∧
        (ValueFrame.branch body otherwise).keeps j.rules (placeOf m.stack) = true := by
      cases otherwise with
      | none => simpa [Rules.inside, ValueFrame.keeps] using hs
      | some s => simpa [Rules.inside_else, ValueFrame.keeps, and_assoc] using hs
    exact h.evalFor rfl hparts.2 hparts.1 hr (by simp only [ValueFrame.weight]; omega) (by omega)
  | whileLoop _ condition body =>
    rw [Stmt.whileLoop.sizeOf_spec] at hr
    rw [Rules.inside, Bool.and_eq_true] at hs
    have hb : j.rules.bounded = false := hstands.2.resolve_right (by simp [Stmt.isWhile])
    exact h.evalFor (f := .loopTest condition body) rfl
      (by simp [ValueFrame.keeps, hb, hs.1, hs.2]) hs.1 hr
      (by simp only [ValueFrame.weight]; omega) (by omega)
  | forLoop pos item iterable body =>
    rw [Stmt.forLoop.sizeOf_spec] at hr
    rw [Rules.inside, Bool.and_eq_true] at hs
    exact h.evalFor (f := .loopItems pos iterable.pos item body) rfl hs.2 hs.1 hr
      (by simp only [ValueFrame.weight]; omega) (by omega)
  | block _ body =>
    rw [Stmt.block.sizeOf_spec] at hr
    exact h.enterBlock hs hr (by omega)
  | returnValue _ value =>
    cases value with
    | none =>
      exact h.flow fun hplaces => hstands.1.resolve_left (by simp [hplaces])
    | some e =>
      rw [Stmt.returnValue.sizeOf_spec, Option.some.sizeOf_spec] at hr
      have hkeeps : ValueFrame.returned.keeps j.rules (placeOf m.stack) = true := by
        simpa [ValueFrame.keeps, Stmt.mayStand] using hstands.1
      exact h.evalFor rfl hkeeps hs hr (by simp only [ValueFrame.weight]; omega) (by omega)
  | breakLoop _ => exact h.flow fun hplaces => hstands.1.resolve_left (by simp [hplaces])
  | continueLoop _ => exact h.flow fun hplaces => hstands.1.resolve_left (by simp [hplaces])

end

/-! ## Frames that get what they wait for -/

theorem At.resumeValue {f : ValueFrame} (h : j.At d f.gives m.stack)
    (hf : f.keeps j.rules (placeOf m.stack) = true) (hs : m.store.Keeps j.rules)
    (hr : j.Room d f.weight) (v : Value) : j.Begun (m.resumeValue v f) := by
  cases f with
  | item done todo => exact At.evalItems h _ hf hr (Nat.le_add_right _ _)
  | field done name todo => exact At.evalFields h _ hf hr (Nat.le_add_right _ _)
  | left pos op right =>
    exact At.afterLeft h pos op v hf hr (by simp only [ValueFrame.weight]; omega)
  | right pos op left => exact At.binary h hs pos op left v hr (Nat.le_refl 5)
  | truth _ => exact At.give h _
  | operator op _ _ => exact At.give h _
  | operand pos op => exact At.unary h hs pos op v hr (Nat.le_refl 5)
  | hold _ => exact At.give h v
  | storeName pos name => exact h.changeAt fun _ hn => At.give (hn ▸ h) v
  | memberOwner pos sign name value =>
    exact At.evalAssigned h rfl (fun _ => rfl) rfl pos sign _ hf hr
      (by simp only [ValueFrame.weight]; omega)
  | storeMember pos owner name => exact h.change fun _ hn => At.give (hn ▸ h) v
  | elementOwner pos sign index value =>
    rw [ValueFrame.keeps, Bool.and_eq_true] at hf
    have hpos := index.sizeOf_pos
    exact At.evalFor h (f := .elementKey pos sign v value) rfl hf.2 hf.1 hr
      (by simp only [ValueFrame.weight]; omega) (by simp only [ValueFrame.weight]; omega)
  | elementKey pos sign owner value =>
    exact At.evalAssigned h rfl (fun _ => rfl) rfl pos sign _ hf hr
      (by simp only [ValueFrame.weight]; omega)
  | storeElement pos owner key => exact h.change fun _ hn => At.give (hn ▸ h) v
  | callee pos args => exact At.evalArguments h hs pos v [] hf hr (Nat.le_add_right _ _)
  | argument pos callee done todo =>
    exact At.evalArguments h hs pos callee _ hf hr (Nat.le_add_right _ _)
  | member pos name => exact h.proceedAt fun r _ => At.giveIn h r
  | indexed pos key =>
    have hpos := key.sizeOf_pos
    exact At.evalFor h (f := .key pos v) rfl rfl hf hr (by simp only [ValueFrame.weight]; omega)
      (by simp only [ValueFrame.weight]; omega)
  | key pos owner => exact h.proceedAt fun r _ => At.giveIn h r
  | importPath pos =>
    cases v with
    | string path => exact At.importFrom h pos path hr (by simp [ValueFrame.weight])
    | _ => exact h.fail pos _
  | statement => exact At.normal h v
  | declare pos q name typing => exact h.proceed fun _ _ => At.bindDeclared h pos q name v
  | destructure pos q targets => exact h.proceed fun items _ => At.bindTargets h q v _
  | branch body otherwise =>
    rw [ValueFrame.keeps, Bool.and_eq_true] at hf
    exact At.branch h v hf.1 hf.2 hr (Nat.le_refl _)
  | loopTest condition body => exact At.loopTest h v hf
  | loopItems pos itemsPos item body =>
    exact h.proceedAt fun items _ => At.loopOver h pos item v hf (hr.mono (Nat.le_succ _))
      fun _ _ => hr.light (Nat.lt_succ_self _)
  | returned =>
    exact At.flow h fun hplaces => by simpa [ValueFrame.keeps, Flow.mayLeave, hplaces] using hf
  | bindName pos name => exact At.bindStatement h pos name v
  | construct object _ => exact At.give h object
  | strResult className pos =>
    cases v with
    | string s => exact At.text h s
    | _ => exact h.fail pos _
  | exports name body => exact At.giveNew h _

/-- The end of a statement may be met where the frame stands, and it may be passed on. -/
theorem At.resumeFlow {f : FlowFrame} (h : j.At d f.gives m.stack)
    (hf : f.keeps j.rules (placeOf m.stack) = true) (hw : j.weight = f.weight) {g : Flow}
    (hg : j.rules.places = true → g.mayLeave (placeOf (.flow f :: m.stack)) = true) :
    j.Begun (m.resumeFlow g f) := by
  have hr : j.Room d f.weight.code := fun _ _ => by rw [hw]
  cases f with
  | sequence last todo =>
    cases g with
    | normal v => exact At.sequence h v hf hr (Nat.le_refl _)
    | _ => exact At.flow h hg
  | program last todo => cases g <;> exact At.program h _ hf hr (Nat.le_refl _)
  | loopBody condition body =>
    have hparts := hf
    simp only [FlowFrame.keeps, Bool.and_eq_true, Bool.not_eq_true'] at hparts
    obtain ⟨⟨hb, hcondition⟩, _⟩ := hparts
    have hagain : j.Begun (m.evalFor (.loopTest condition body) condition) :=
      At.evalFor h rfl hf hcondition (room_unbounded hb (8 * sizeOf condition + 5))
        (by simp only [ValueFrame.weight]; omega) (by omega)
    cases g with
    | broke => exact At.normal h _
    | returned v => exact At.flow h hg
    | _ => exact hagain
  | itemBody pos item body iterable todo =>
    have hnext : j.Begun (m.loopOver pos item body iterable todo) := by
      refine At.loopOver h pos item iterable hf hr fun n hn _ _ => ?_
      rw [hw]
      exact .inr ⟨rfl, .inr ⟨rfl, hn⟩⟩
    cases g with
    | broke => exact At.normal h _
    | returned v => exact At.flow h hg
    | _ => exact hnext
  | functionBody => cases g <;> exact At.give h _
  | namespaceBody name body => exact At.giveNew h _

theorem At.resumeText {f : TextFrame} (h : j.At d f.gives m.stack)
    (hw : j.weight = Frame.weight j.cells (.text f)) (t : String) :
    j.Begun (m.resumeText t f) := by
  cases f with
  | parts opening closing held done label todo path pos =>
    refine At.renderParts h _ _ _ _ _ _ fun n hn _ _ => ?_
    rw [hw]
    exact .inr ⟨rfl, .inr ⟨rfl, hn⟩⟩
  | texts use held done todo pos =>
    refine At.renderTexts h _ _ _ _ (fun _ _ => ?_) fun n hn _ _ => ?_
    · rw [hw]
      exact Nat.le_succ 2
    · rw [hw]
      exact .inr ⟨rfl, .inr ⟨rfl, hn⟩⟩

/-! ## Values as text -/

/-- A container that is not on the path is written in fewer cells than there were before, if it has
    parts. -/
theorem light_parts {path : List Ref} {r : Ref} (hpath : path.contains r = false)
    (hw : j.weight = ⟨2, 2 * unvisited j.cells path + 1, 0⟩)
    (hr : j.rules.bounded = true → r < j.cells) (n : Nat) :
    j.Light d ⟨2, 2 * unvisited j.cells (r :: path) + 2, n⟩ := by
  intro hb _
  have hlt := unvisited_cons (hr hb) (by simpa using hpath)
  rw [hw]
  exact .inr ⟨rfl, .inl (by simp only; omega)⟩

variable (hcells : j.rules.bounded = true → ∀ r c, m.store.cell? r = some c → r < j.cells)
include hcells

theorem At.renderObject (h : j.At d .text m.stack) (r : Ref) (path : List Ref) (pos : Position)
    (hw : j.weight = ⟨2, 2 * unvisited j.cells path + 1, 0⟩) :
    j.Begun (m.renderObject r path pos) := by
  unfold Machine.renderObject
  split
  next c hc =>
    split
    · exact h.text _
    · split
      · exact h.text _
      next hpath =>
        refine h.renderParts _ _ _ _ _ _ fun n _ => ?_
        refine light_parts (by simpa using hpath) hw (fun hb => ?_) n
        obtain ⟨_, hobject, _⟩ := Option.bind_eq_some_iff.1 hc
        exact hcells hb r _ (Store.object?_eq_some.1 hobject)
  · exact h.text _

theorem At.render (h : j.At d .text m.stack) (hs : m.store.Keeps j.rules) (v : Value)
    (nested : Bool) (path : List Ref) (pos : Position)
    (hw : j.weight = ⟨2, 2 * unvisited j.cells path + 1, 0⟩) :
    j.Begun (m.render v nested path pos) := by
  unfold Machine.render
  split
  next r =>
    split
    · exact h.text _
    next hpath =>
      refine h.renderParts _ _ _ _ _ _ fun n hn => ?_
      refine light_parts (by simpa using hpath) hw (fun hb => ?_) n
      unfold Store.items at hn
      split at hn
      next hcell => exact hcells hb r _ hcell
      next => simp at hn
  next r =>
    split
    next f _ c hf _ =>
      obtain ⟨hname, hdecl⟩ := hs.boundMethod? hf
      have hb : j.rules.bounded = false := by simpa [Rules.names] using hname
      have hpush := h.pushValue (f := .strResult c.name pos) rfl (by simp [ValueFrame.keeps, hb])
        (room_unbounded hb 5) (Nat.lt_succ_self 4)
      exact At.callFunction hpush hdecl _ _ _ (room_unbounded hb 1) Nat.one_pos
    · exact At.renderObject hcells h r path pos hw
  · exact h.text _

end Job

/-! ## Steps -/

namespace Machine

variable {m n : Machine} {r : Result} {k : Rules} {goal : Awaited} {cells : Nat}

/-- What is done in a step: something is started, or a result meets a frame. It has a weight, and
    frames that it is done for. -/
inductive Does (m : Machine) (cells : Nat) : Weight → List Frame → Prop
  | start {w : Weight} : m.control.weight? cells = some w → Does m cells w m.stack
  | resume {r : Result} {f : Frame} {below : List Frame} : m.control = .give r →
    m.stack = f :: below → Does m cells (f.weight cells) below

theorem Does.stackFits {w : Weight} {below : List Frame} (h : m.Does cells w below)
    (hm : m.Fits k goal) : StackFits k goal below := by
  cases h with
  | start => exact hm.stack
  | resume _ hstack =>
    have hfits := hm.stack
    rw [hstack] at hfits
    exact hfits.2

/-- A result that fits a frame and is met by it, or by nothing. -/
theorem begun_of_resume {f : Frame} {below : List Frame}
    (hf : f.Fits k (awaited goal below) (placeOf below))
    (hr : r.Fits k (awaited goal (f :: below)) (placeOf (f :: below))) (hc : m.control = .give r)
    (hs : m.store.Keeps k) :
    (Job.mk k goal cells (f.weight cells) below).Begun ({ m with stack := below }.resume r f) := by
  have hbase : ∀ want, awaited goal below = want →
      (Job.mk k goal cells (f.weight cells) below).At false want below := fun _ h => ⟨.base, h⟩
  -- a fault takes the frame away and is passed on
  have hpass : ∀ n : Machine, n.stack = below →
      (n.control = .give r ∧ r.Fits k (awaited goal below) (placeOf below) ∨
        ∃ g, n.control = .give (.fault g)) →
      (Job.mk k goal cells (f.weight cells) below).Begun n := by
    rintro n rfl (⟨hn, hfits⟩ | ⟨g, hn⟩)
    · exact ⟨false, .base, by rw [hn]; exact hfits, by rw [hn]; exact nofun⟩
    · exact ⟨false, .base, by rw [hn]; exact trivial, by rw [hn]; exact nofun⟩
  cases f with
  | value f =>
    cases r with
    | value v =>
      exact Job.At.resumeValue (m := { m with stack := below }) (hbase _ hf.1.symm) hf.2 hs
        (fun _ _ => Nat.le_refl _) v
    | fault g => exact hpass _ rfl (.inr ⟨g, hc⟩)
    | flow g => cases hr.1
    | text t => cases hr
  | flow f =>
    cases r with
    | flow g =>
      exact Job.At.resumeFlow (m := { m with stack := below }) (hbase _ hf.1.symm) hf.2 rfl hr.2
    | fault g => exact hpass _ rfl (.inr ⟨g, hc⟩)
    | value v => cases hr
    | text t => cases hr
  | text f =>
    cases r with
    | text t => exact Job.At.resumeText (m := { m with stack := below }) (hbase _ hf.symm) rfl t
    | fault g => exact hpass _ rfl (.inr ⟨g, hc⟩)
    | flow g => cases hr.1
    | value v => cases hr
  | exit e =>
    have hleave := leave_control (m := { m with stack := below }) hc e
    refine hpass _ (leave_stack _ r e) (hleave.imp_left fun hn => ⟨hn, ?_⟩)
    cases e with
    | scope previous =>
      cases r with
      | flow g => exact ⟨hr.1, fun hplaces => by cases g <;> exact hr.2 hplaces⟩
      | value v => exact hr
      | text t => exact hr
      | fault g => trivial
    | _ =>
      cases r with
      | value v => exact hf
      | fault g => trivial
      | flow g => cases hr.1
      | text t => cases hr

variable (h : m.Fits k goal) (hs : m.store.Keeps k)
include h hs

/-- What a step begins fits, and is lighter than what is done. Cells count only where a value is
    written. -/
theorem Fits.begins (hcells : k.bounded = true → m.control.isRender = true →
    ∀ r c, m.store.cell? r = some c → r < cells) (hstep : m.step = .next n) :
    ∃ w below, m.Does cells w below ∧ (Job.mk k goal cells w below).Begun n := by
  have hcontrol := h.control
  unfold step at hstep
  split at hstep
  next e hc =>
    cases hstep
    rw [hc] at hcontrol
    exact ⟨_, _, .start (by rw [hc]; rfl), Job.At.evaluate ⟨.base, hcontrol.1⟩ hcontrol.2
      fun _ _ => Nat.le_refl _⟩
  next s hc =>
    cases hstep
    rw [hc] at hcontrol
    exact ⟨_, _, .start (by rw [hc]; rfl), Job.At.execute ⟨.base, hcontrol.1⟩ hcontrol.2
      fun _ _ => Nat.le_refl _⟩
  next v nested path pos hc =>
    cases hstep
    rw [hc] at hcontrol
    have htext : awaited goal m.stack = .text := hcontrol
    exact ⟨_, _, .start (by rw [hc]; rfl),
      Job.At.render (fun hb => hcells hb (by rw [hc]; rfl)) ⟨.base, htext⟩ hs v nested path pos rfl⟩
  next => cases hstep
  next => cases hstep
  next => cases hstep
  next => cases hstep
  next => cases hstep
  next r hc =>
    split at hstep
    next => cases hstep
    next f below hstack =>
      cases hstep
      have hfits := h.stack
      rw [hstack] at hfits
      rw [hc, hstack] at hcontrol
      exact ⟨_, _, .resume hc hstack, begun_of_resume hfits.1 hcontrol hc hs⟩

/-- Each step leads to a machine that fits. -/
theorem Fits.next (hstep : m.step = .next n) : n.Fits k goal := by
  obtain ⟨cells, hcells⟩ := m.store.exists_cells_lt
  obtain ⟨w, below, hdoes, hbegun⟩ := h.begins hs (fun _ _ => hcells) hstep
  exact hbegun.fits (hdoes.stackFits h)

omit hs

/-- As `Fits.begins`, with an answer. A file that is read keeps to the rules. -/
theorem Fits.begins_reply {request : Request} {resume : request.Reply → Machine}
    {reply : request.Reply} (hreply : request.Keeps k reply)
    (hstep : m.step = .ask request resume) :
    ∃ w below, m.Does cells w below ∧ (Job.mk k goal cells w below).Begun (resume reply) := by
  have hcontrol := h.control
  unfold step at hstep
  split at hstep
  next => cases hstep
  next => cases hstep
  next => cases hstep
  next hc =>
    cases hstep
    rw [hc] at hcontrol
    have hvalue : awaited goal m.stack = .value := hcontrol
    exact ⟨_, _, .start (by rw [hc]; rfl), Job.At.give ⟨.base, hvalue⟩ _⟩
  next hc =>
    cases hstep
    rw [hc] at hcontrol
    have hvalue : awaited goal m.stack = .value := hcontrol
    exact ⟨_, _, .start (by rw [hc]; rfl), Job.At.give ⟨.base, hvalue⟩ _⟩
  next hc =>
    cases hstep
    rw [hc] at hcontrol
    have hsize : ∀ size, 8 * size + 4 ≤ 8 * size + 8 := fun size => by omega
    exact ⟨_, _, .start (by rw [hc]; rfl), Job.At.enterProgram ⟨.base, hcontrol.1⟩ _ hcontrol.2
      (fun _ _ => Nat.le_refl _) (hsize _)⟩
  next pos hc =>
    cases hstep
    rw [hc] at hcontrol
    have hvalue : awaited goal m.stack = .value := hcontrol
    refine ⟨_, _, .start (by rw [hc]; rfl), ?_⟩
    cases reply with
    | ok path =>
      exact Job.At.importLocated ⟨.base, hvalue⟩ pos path (fun _ _ => Nat.le_refl _) (Nat.le_refl _)
    | error reason => exact Job.At.fail ⟨.base, hvalue⟩ pos _
  next pos hc =>
    cases hstep
    rw [hc] at hcontrol
    have hvalue : awaited goal m.stack = .value := hcontrol
    refine ⟨_, _, .start (by rw [hc]; rfl), ?_⟩
    cases reply with
    | ok source =>
      exact Job.At.enterModule ⟨.base, hvalue⟩ _ source (fun p => hreply source p rfl)
        (fun _ _ => Nat.le_refl _) Nat.one_pos
    | error reason => exact Job.At.fail ⟨.base, hvalue⟩ pos _
  next => split at hstep <;> cases hstep

/-- An answer leads to a machine that fits. -/
theorem Fits.ask {request : Request} {resume : request.Reply → Machine} {reply : request.Reply}
    (hreply : request.Keeps k reply) (hstep : m.step = .ask request resume) :
    (resume reply).Fits k goal := by
  obtain ⟨w, below, hdoes, hbegun⟩ : ∃ w below, m.Does 0 w below ∧
    (Job.mk k goal 0 w below).Begun (resume reply) := h.begins_reply hreply hstep
  exact hbegun.fits (hdoes.stackFits h)

end Machine

end TinyScript

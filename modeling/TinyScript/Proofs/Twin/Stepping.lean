/-
  TinyScript.Proofs.Twin.Stepping — machines in step stay in step.

  Expressions, statements and imports start the same work in both machines, and a result meets the
  same frame. So one step of both leads to machines in step, to the same question or to the same
  end (`InStep.step`).
-/

import TinyScript.Proofs.Twin.Running

namespace TinyScript

open Store TinyScript.Text

variable {kept : List Ref} {G H : Ref → Prop} {m m' : Machine} {v w : Value} {pos : Position}

namespace Twins

/-! ## Imports -/

theorem enterNamespace (h : Twins kept G m m') (d : NamespaceDecl) :
    InStep kept (m.enterNamespace d) (m'.enterNamespace d) :=
  ((h.enterInner .module).push (f := .flow (.namespaceBody d.shownName d.body)) trivial
    good_nil).sequence good_nil d.body

theorem importFrom (h : Twins kept G m m') (path : String) :
    InStep kept (m.importFrom pos path) (m'.importFrom pos path) :=
  (h.controlled (c := .locate _ _) good_nil).inStep

theorem importLocated (h : Twins kept G m m') (path : String) :
    InStep kept (m.importLocated pos path) (m'.importLocated pos path) := by
  have hcycle : Machine.cycle? m'.loading path = Machine.cycle? m.loading path := by rw [h.loading]
  simp only [Machine.importLocated, h.modules, hcycle]
  split
  next r hr =>
    have hgood : G r := h.goodModules r (Table.mem_values.2 ⟨path, hr⟩)
    exact (h.give (v := .namespaceRef r) (good_cons.2 ⟨hgood, good_nil⟩)).inStep
  next =>
    split
    · exact (h.fail _ _).inStep
    · exact (h.controlled (c := .load _ _) good_nil).inStep

theorem enterModule (h : Twins kept G m m') (path source : String) :
    InStep kept (m.enterModule path source) (m'.enterModule path source) := by
  unfold Machine.enterModule
  refine h.proceed fun program _ => ?_
  have hrun := ((h.loaded (· ++ [path])).push (f := .exit (.module path)) trivial
    good_nil).enterGlobal .module
  exact (hrun.push (f := .value (.exports _ _)) trivial good_nil).program good_nil program

theorem enterProgram (h : Twins kept G m m') (path : Option String) (program : Program) :
    InStep kept (m.enterProgram path program) (m'.enterProgram path program) :=
  (((h.loaded (· ++ path.toList)).push (f := .exit (.run _)) trivial good_nil).enterGlobal
    .module).program good_nil program

/-! ## Expressions -/

theorem functionValue (h : Twins kept G m m') (d : FunctionDecl) :
    BothMade kept Value.refs G (m.functionValue d) (m'.functionValue d) := by
  obtain ⟨he, H, hm, hg, hmono⟩ := h.capture
  simp only [Machine.functionValue]
  rw [he]
  obtain ⟨he', K, hm', hg', hmono'⟩ : BothMade kept Value.refs H
      (m.capture.2.making (·.newFunction ⟨d, m.capture.1, none⟩))
      (m'.capture.2.making (·.newFunction ⟨d, m.capture.1, none⟩)) :=
    hm.making (hm.tracks.newFunction hg (h.tracks.isLease_capture h.twin))
  exact ⟨he', K, hm', hg', fun r hr => hmono' r (hmono r hr)⟩

theorem classValue (h : Twins kept G m m') (d : ClassDecl) :
    BothMade kept Value.refs G (m.classValue d) (m'.classValue d) := by
  obtain ⟨he, H, hm, hg, hmono⟩ := h.capture
  simp only [Machine.classValue]
  rw [he]
  let method := fun (f : FunctionDecl) => (f.shownName, (⟨f, m.capture.1, none⟩ : Function))
  let definition : Class :=
    ⟨d.shownName, Table.ofList (d.methods.map method), d.properties, some m.capture.1, true⟩
  have hc : Good H (Cell.classDef definition).refs := by
    refine good_append.2 ⟨good_ofList fun e he => ?_, hg⟩
    obtain ⟨f, _, rfl⟩ := List.mem_map.1 he
    exact hg
  have hh : ∀ q ∈ (Cell.classDef definition).handles, IsLease m.capture.2.store q := by
    have hlease : IsLease m.capture.2.store m.capture.1 := h.tracks.isLease_capture h.twin
    intro q hq
    rcases List.mem_append.1 hq with hq | hq
    · refine good_ofList (G := IsLease m.capture.2.store) (fun e he => ?_) q hq
      obtain ⟨f, _, rfl⟩ := List.mem_map.1 he
      exact good_cons.2 ⟨hlease, good_nil⟩
    · cases List.mem_singleton.1 hq
      exact hlease
  obtain ⟨he', K, hm', hg', hmono'⟩ : BothMade kept (fun r => [r]) H
      (m.capture.2.making (·.alloc (.classDef definition)))
      (m'.capture.2.making (·.alloc (.classDef definition))) :=
    hm.making (hm.tracks.alloc_same (fun _ _ he => nomatch he) hc hh)
  exact ⟨congrArg (fun r => Value.type (.classRef r)) he', K, hm', hg',
    fun r hr => hmono' r (hmono r hr)⟩

theorem evalItems (h : Twins kept G m m') {done : List Value} (hdone : Good G (valueRefs done))
    (todo : List Expr) : InStep kept (m.evalItems done todo) (m'.evalItems done todo) := by
  cases todo with
  | nil =>
    simp only [Machine.evalItems]
    exact h.giveNew
      (h.tracks.newArray (hdone.values_mono (List.reverse_subset.2 (List.Subset.refl _))))
  | cons e todo => exact h.evalFor (f := .item done todo) hdone e

theorem evalFields (h : Twins kept G m m') {done : Table Value}
    (hdone : Good G (valueRefs done.values)) (todo : List (String × Expr)) :
    InStep kept (m.evalFields done todo) (m'.evalFields done todo) := by
  cases todo with
  | nil =>
    simp only [Machine.evalFields, h.objectClass]
    exact h.giveNew (h.tracks.newObject h.goodClass fun r hr => hdone r (mem_valueRefs_values.2 hr))
  | cons e todo => exact h.evalFor (f := .field done e.1 todo) hdone e.2

theorem evalArguments (h : Twins kept G m m') {callee : Value} {done : List Value}
    (hcallee : Good G callee.refs) (hdone : Good G (valueRefs done)) (todo : List Expr) :
    InStep kept (m.evalArguments pos callee done todo) (m'.evalArguments pos callee done todo) := by
  cases todo with
  | nil => exact h.call hcallee (hdone.values_mono (List.reverse_subset.2 (List.Subset.refl _)))
  | cons e todo =>
    exact h.evalFor (f := .argument pos callee done todo) (good_append.2 ⟨hcallee, hdone⟩) e

/-- The current value of the target is the same, in stores that may have grown. -/
theorem evalAssigned (h : Twins kept G m m') {f : ValueFrame} (hf : Good G f.refs)
    (sign : AssignSign) {current current' : Unit → Except Failure (Value × Store)}
    (hcurrent : SameResult (SameMade Value.refs G m.store m'.store) (current ()) (current' ()))
    (value : Expr) :
    InStep kept (m.evalAssigned f pos sign current value)
      (m'.evalAssigned f pos sign current' value) := by
  unfold Machine.evalAssigned
  split
  · exact h.evalFor hf value
  · refine h.proceedAt hcurrent ?_
    rintro ⟨_, s⟩ ⟨v, t⟩ ⟨rfl, H, ha, hg⟩
    exact ((h.advance ha).push (f := .value f) trivial (ha.good hf)).evalFor
      (f := .right _ _ v) hg value

theorem lookup (h : Twins kept G m m') (name : String) :
    SameResult (SameMade Value.refs G m.store m'.store) (m.lookup name) (m'.lookup name) := by
  unfold Machine.lookup
  rw [h.tracks.lookup? h.twin]
  cases hv : m.store.lookup? m.scope name with
  | some v => exact .ok (.of_good h.tracks (h.tracks.good_of_lookup? h.twin hv))
  | none => exact .error _

theorem assign (h : Twins kept G m m') (sign : AssignSign) (target value : Expr) :
    InStep kept (m.assign pos sign target value) (m'.assign pos sign target value) := by
  unfold Machine.assign
  split
  · exact h.evalAssigned good_nil sign (h.lookup _) value
  · exact h.evalFor good_nil _
  · exact h.evalFor good_nil _
  · exact (h.fail _ _).inStep

theorem evaluate (h : Twins kept G m m') (e : Expr) :
    InStep kept (m.evaluate e) (m'.evaluate e) := by
  cases e with
  | name pos n =>
    simp only [Machine.evaluate, Machine.lookup, h.tracks.lookup? h.twin]
    cases hv : m.store.lookup? m.scope n with
    | some v => exact (h.give (h.tracks.good_of_lookup? h.twin hv)).inStep
    | none => exact (h.fail _ _).inStep
  | literal _ l =>
    refine (h.give (v := .ofLiteral l) ?_).inStep
    cases l <;> exact good_nil
  | group _ e => exact (h.controlled (c := .eval e) good_nil).inStep
  | array _ items => exact h.evalItems good_nil items
  | object _ fields => exact h.evalFields good_nil fields
  | binary pos op l r => exact h.evalFor good_nil l
  | unary pos op e => exact h.evalFor good_nil e
  | assign pos sign target value => exact h.assign sign target value
  | call pos callee args => exact h.evalFor good_nil callee
  | member pos owner name => exact h.evalFor good_nil owner
  | index pos owner key => exact h.evalFor good_nil owner
  | function _ d =>
    obtain ⟨he, H, hm, hg, _⟩ := h.functionValue d
    simp only [Machine.evaluate]
    rw [he]
    exact (hm.give hg).inStep
  | classDef _ d =>
    obtain ⟨he, H, hm, hg, _⟩ := h.classValue d
    simp only [Machine.evaluate]
    rw [he]
    exact (hm.give hg).inStep
  | namespaceDef _ d => exact h.enterNamespace d
  | importFrom pos path => exact h.evalFor good_nil path

theorem afterLeft (h : Twins kept G m m') (op : BinaryOp) (right : Expr) (hv : Good G v.refs) :
    InStep kept (m.afterLeft pos op right v) (m'.afterLeft pos op right v) := by
  unfold Machine.afterLeft
  split
  · split
    · exact h.evalFor (f := .truth v) hv right
    · exact (h.give good_nil).inStep
  · split
    · exact (h.give good_nil).inStep
    · exact h.evalFor (f := .truth v) hv right
  · split
    · exact (h.controlled (c := .eval right) good_nil).inStep
    · exact (h.give hv).inStep
  · exact h.evalFor (f := .right pos op v) hv right

/-! ## Statements -/

theorem bindAs {s t : Store} {i j : ScopeId} (h : Tracks G s t) (hij : Twin G s t i j)
    (hv : Good G v.refs) (q : Qualifier) (name : String) :
    SameResult (SameChange G s t) (s.bindAs i q name v) (t.bindAs j q name v) := by
  cases q with
  | varDecl => exact h.declareVar hij hv name
  | letDecl => exact h.declare hij hv name false
  | constDecl => exact h.declare hij hv name true

theorem bindStatement (h : Twins kept G m m') (hv : Good G v.refs) (name : String) :
    InStep kept (m.bindStatement pos name v) (m'.bindStatement pos name v) :=
  h.changeAt (h.tracks.declare h.twin hv name false) fun _ _ hn => hn.flow (f := .normal v) hv

theorem bindDeclared (h : Twins kept G m m') (hv : Good G v.refs) (q : Qualifier) (name : String) :
    InStep kept (m.bindDeclared pos q name v) (m'.bindDeclared pos q name v) :=
  h.changeAt (bindAs h.tracks h.twin hv q name) fun _ _ hn => hn.flow (f := .normal v) hv

theorem bindTargets (h : Twins kept G m m') (hv : Good G v.refs) (q : Qualifier)
    {targets : List (Param × Value)} (ht : Good G (valueRefs (targets.map (·.2)))) :
    InStep kept (m.bindTargets q v targets) (m'.bindTargets q v targets) := by
  induction targets generalizing m m' with
  | nil => exact h.flow (f := .normal v) hv
  | cons e targets ih =>
    obtain ⟨target, w⟩ := e
    rw [List.map_cons, good_values_cons] at ht
    simp only [Machine.bindTargets, h.tracks.checkIf h.twin ht.1]
    exact h.proceed fun _ _ =>
      h.changeAt (bindAs h.tracks h.twin ht.1 q target.name) fun _ _ hn => ih hn ht.2

theorem loopOver (h : Twins kept G m m') (item : String) (body : List Stmt) (hv : Good G v.refs)
    {items : List Value} (hi : Good G (valueRefs items)) :
    InStep kept (m.loopOver pos item body v items) (m'.loopOver pos item body v items) := by
  cases items with
  | nil => exact h.flow (f := .normal .nil) good_nil
  | cons w todo =>
    obtain ⟨hw, htodo⟩ := good_values_cons.1 hi
    have hbody := (h.push (f := .flow (.itemBody pos item body v todo)) trivial
      (good_append.2 ⟨hv, htodo⟩)).enterInner .block
    exact hbody.changeAt (hbody.tracks.declare hbody.twin hw item false) fun _ _ hn =>
      hn.sequence good_nil body

theorem execute (h : Twins kept G m m') (s : Stmt) : InStep kept (m.execute s) (m'.execute s) := by
  cases s with
  | expr _ e => exact h.evalFor good_nil e
  | declare pos q name typing value _ =>
    cases value with
    | none => exact h.bindDeclared good_nil q name
    | some e => exact h.evalFor good_nil e
  | destructure _ q targets value _ => exact h.evalFor good_nil value
  | function pos d _ =>
    obtain ⟨he, H, hm, hg, _⟩ := h.functionValue d
    simp only [Machine.execute]
    rw [he]
    exact hm.bindStatement hg _
  | classDef pos d _ =>
    obtain ⟨he, H, hm, hg, _⟩ := h.classValue d
    simp only [Machine.execute]
    rw [he]
    exact hm.bindStatement hg _
  | namespaceDef pos d _ =>
    exact (h.push (f := .value (.bindName pos _)) trivial good_nil).enterNamespace d
  | ifElse _ condition body otherwise => exact h.evalFor good_nil condition
  | whileLoop _ condition body => exact h.evalFor good_nil condition
  | forLoop pos item iterable body => exact h.evalFor good_nil iterable
  | block _ body => exact h.enterBlock body
  | returnValue _ value =>
    cases value with
    | none => exact h.flow (f := .returned .nil) good_nil
    | some e => exact h.evalFor good_nil e
  | breakLoop _ => exact h.flow (f := .broke) good_nil
  | continueLoop _ => exact h.flow (f := .continued) good_nil

theorem branch (h : Twins kept G m m') (body : List Stmt) (otherwise : Option Stmt) :
    InStep kept (m.branch v body otherwise) (m'.branch v body otherwise) := by
  unfold Machine.branch
  split
  · exact h.enterBlock body
  · split
    · exact (h.exec _).inStep
    · exact h.flow (f := .normal .nil) good_nil

theorem loopTest (h : Twins kept G m m') (condition : Expr) (body : List Stmt) :
    InStep kept (m.loopTest v condition body) (m'.loopTest v condition body) := by
  unfold Machine.loopTest
  split
  · exact (h.push (f := .flow (.loopBody condition body)) trivial good_nil).enterBlock body
  · exact h.flow (f := .normal .nil) good_nil

/-! ## Results -/

theorem resumeValue (h : Twins kept G m m') (hv : Good G v.refs) {f : ValueFrame}
    (hf : Good G f.refs) : InStep kept (m.resumeValue v f) (m'.resumeValue v f) := by
  cases f with
  | item done todo => exact h.evalItems (good_values_cons.2 ⟨hv, hf⟩) todo
  | field done name todo =>
    refine h.evalFields (fun r hr => ?_) todo
    rcases mem_mapRefs_put (mem_valueRefs_values.1 hr) with hr | hr
    · exact hf r (mem_valueRefs_values.2 hr)
    · exact hv r hr
  | left pos op right => exact h.afterLeft op right hv
  | right pos op left => exact h.binary op hf hv
  | truth left => exact (h.give good_nil).inStep
  | operator op left right =>
    refine (h.give ?_).inStep
    split
    · exact good_nil
    · exact hv
  | operand pos op => exact h.unary op hv
  | hold values => exact (h.give hv).inStep
  | storeName pos name =>
    exact h.changeAt (h.tracks.assign h.twin hv name) fun _ _ hn => (hn.give hv).inStep
  | memberOwner pos sign name value =>
    simp only [Machine.resumeValue]
    exact h.evalAssigned (f := .storeMember pos v name) hv sign (h.tracks.member hv name) value
  | storeMember pos owner name =>
    exact h.change (h.tracks.setMember hf hv name pos) fun _ _ hn => (hn.give hv).inStep
  | elementOwner pos sign key value =>
    exact h.evalFor (f := .elementKey pos sign v value) hv key
  | elementKey pos sign owner value =>
    simp only [Machine.resumeValue]
    exact h.evalAssigned (f := .storeElement pos owner v) (good_append.2 ⟨hf, hv⟩) sign
      (h.tracks.element hf hv) value
  | storeElement pos owner key =>
    obtain ⟨howner, hkey⟩ := good_append.1 hf
    exact h.change (h.tracks.setElement howner hkey hv pos) fun _ _ hn => (hn.give hv).inStep
  | callee pos args => exact h.evalArguments hv good_nil args
  | argument pos callee done todo =>
    obtain ⟨hcallee, hdone⟩ := good_append.1 hf
    exact h.evalArguments hcallee (good_values_cons.2 ⟨hv, hdone⟩) todo
  | member pos name => exact h.proceedAt (h.tracks.member hv name) fun _ _ hxy => h.giveIn hxy
  | indexed pos key => exact h.evalFor (f := .key pos v) hv key
  | key pos owner => exact h.proceedAt (h.tracks.element hf hv) fun _ _ hxy => h.giveIn hxy
  | importPath pos =>
    simp only [Machine.resumeValue, h.tracks.shownType hv]
    split
    · exact h.importFrom _
    · exact (h.fail _ _).inStep
  | statement => exact h.flow (f := .normal v) hv
  | declare pos q name typing =>
    simp only [Machine.resumeValue, h.tracks.checkIf h.twin hv]
    exact h.proceed fun _ _ => h.bindDeclared hv q name
  | destructure pos q targets =>
    simp only [Machine.resumeValue, h.tracks.parts hv]
    exact h.proceed fun _ hi => h.bindTargets hv q (good_zip (h.tracks.good_parts hv hi))
  | branch body otherwise => exact h.branch body otherwise
  | loopTest condition body => exact h.loopTest condition body
  | loopItems pos itemsPos item body =>
    simp only [Machine.resumeValue, h.tracks.elements hv]
    refine h.proceedAt (.of_eq fun _ hi => h.tracks.good_elements hv hi) ?_
    rintro items _ ⟨rfl, hitems⟩
    exact h.loopOver item body hv hitems
  | returned => exact h.flow (f := .returned v) hv
  | bindName pos name => exact h.bindStatement hv name
  | construct object held => exact (h.give (good_append.1 hf).1).inStep
  | strResult className pos =>
    simp only [Machine.resumeValue]
    split
    · exact h.text _
    · exact (h.fail _ _).inStep
  | exports name body =>
    simp only [Machine.resumeValue]
    exact h.giveNew (h.tracks.makeSpace h.twin name body)

theorem resumeFlow (h : Twins kept G m m') {g : Flow} (hg : Good G g.refs) {f : FlowFrame}
    (hf : Good G f.refs) : InStep kept (m.resumeFlow g f) (m'.resumeFlow g f) := by
  cases f with
  | sequence last todo =>
    cases g with
    | normal v => exact h.sequence hg todo
    | _ => exact h.flow hg
  | program last todo =>
    cases g with
    | normal v => exact h.program hg todo
    | _ => exact h.program hf todo
  | loopBody condition body =>
    cases g with
    | broke => exact h.flow (f := .normal .nil) good_nil
    | returned v => exact h.flow hg
    | _ => exact h.evalFor good_nil condition
  | itemBody pos item body iterable todo =>
    obtain ⟨hiterable, htodo⟩ := good_append.1 hf
    cases g with
    | broke => exact h.flow (f := .normal .nil) good_nil
    | returned v => exact h.flow hg
    | _ => exact h.loopOver item body hiterable htodo
  | functionBody =>
    cases g with
    | returned v => exact (h.give hg).inStep
    | _ => exact (h.give good_nil).inStep
  | namespaceBody name body =>
    simp only [Machine.resumeFlow]
    exact h.giveNew (h.tracks.makeSpace h.twin name body)

theorem resumeText (h : Twins kept G m m') (t : String) {f : TextFrame}
    (hplain : (Frame.text f).Plain m.store) (hf : Good G f.refs) :
    InStep kept (m.resumeText t f) (m'.resumeText t f) := by
  cases f with
  | parts opening closing held done label todo path pos =>
    exact h.renderParts _ _ _ _ hf hplain
  | texts use held done todo pos =>
    exact h.renderTexts _ _ hf (hf.values_mono hplain)
      fun v hv => hplain (List.mem_of_mem_tail hv)

/-- Ends that leave no scope. -/
theorem leave (h : Twins kept G m m') {r : Result} (hr : Good G r.refs) {f : ExitFrame}
    (hplain : (Frame.exit f).Plain m.store) (hf : Good G f.refs) :
    InStep kept (m.leave r f) (m'.leave r f) := by
  cases f with
  | scope => exact absurd hplain id
  | session => exact absurd hplain id
  | call f held pos =>
    have hback := h.deeper (· - 1)
    have hhome := h.tracks.leasedScope (hf _ List.mem_cons_self)
    cases r with
    | value v =>
      simp only [Machine.leave, h.tracks.checkIf hhome (v := v) hr]
      exact hback.proceed fun _ _ => (hback.give hr).inStep
    | _ => exact hback.inStep
  | module path =>
    have hback := h.loaded List.dropLast
    simp only [Machine.leave]
    split
    next r =>
      refine Twins.inStep (G := G) { hback with
        modules := congrArg (·.put path r) h.modules
        goodModules := fun q hq => ?_ }
      obtain ⟨name, hq⟩ := Table.mem_values.1 hq
      by_cases hn : name = path
      · rw [hn, Table.get?_put_self] at hq
        cases hq
        exact hr.of_ref rfl
      · rw [Table.get?_put_of_ne _ _ hn] at hq
        exact h.goodModules q (Table.mem_values.2 ⟨name, hq⟩)
    next => exact hback.inStep
  | run located =>
    cases located with
    | false => exact h.collected
    | true => exact (h.loaded List.dropLast).collected

/-- A result meets a frame that leaves no scope. -/
theorem resumePlain (h : Twins kept G m m') {r : Result} (hr : Good G r.refs) {f : Frame}
    (hplain : f.Plain m.store) (hf : Good G f.refs) :
    InStep kept (m.resume r f) (m'.resume r f) := by
  unfold Machine.resume
  split
  · exact h.leave hr hplain hf
  · exact h.resumeValue hr hf
  · exact h.resumeFlow hr hf
  · exact h.resumeText _ hplain hf
  · exact h.inStep

/-- A result meets the frames on top of the stacks, which are of one kind. -/
theorem resume (h : Twins kept G m m') {r : Result} (hr : Good G r.refs) {f : Frame}
    {stack : List Frame} (hm : m.stack = f :: stack) :
    ∃ f' stack', m'.stack = f' :: stack' ∧
      InStep kept ({ m with stack := stack }.resume r f)
        ({ m' with stack := stack' }.resume r f') := by
  obtain ⟨base, opened, hb, ho, hs⟩ := h.frames
  rw [hm] at hs
  obtain ⟨f', stack', hm', hcase⟩ := hs.of_cons
  refine ⟨f', stack', hm', ?_⟩
  rcases hcase with ⟨prev, prev', rfl, rfl⟩ | ⟨prev, prev', rfl, rfl, hs⟩ | ⟨hplain, rfl, hf, hs⟩
  · exact h.leaveScope hm hm' r
  · exact Twins.inStep (G := G) { h with frames := ⟨base, opened, hb, ho, hs⟩ }
  · have hpop : Twins kept G { m with stack := stack } { m' with stack := stack' } :=
      { h with frames := ⟨base, opened, hb, ho, hs⟩ }
    exact hpop.resumePlain hr hplain hf

end Twins

/-! ## Steps -/

inductive SameStep (kept : List Ref) : Step → Step → Prop
  | next {m m' : Machine} : InStep kept m m' → SameStep kept (.next m) (.next m')
  | ask {request : Request} {resume resume' : request.Reply → Machine} :
    (∀ reply, InStep kept (resume reply) (resume' reply)) →
    SameStep kept (.ask request resume) (.ask request resume')
  | done {m m' : Machine} {result : Result} : InStep kept m m' → m.stack = [] →
    m.control = .give result → SameStep kept (.done m result) (.done m' result)

/-- One step of machines in step. -/
theorem InStep.step (h : InStep kept m m') : SameStep kept m.step m'.step := by
  obtain ⟨G, h⟩ := h
  have hgood := h.goodControl
  unfold Machine.step
  rw [h.control]
  split
  next e _ => exact .next (h.evaluate e)
  next s _ => exact .next (h.execute s)
  next v nested path pos hc =>
    rw [hc] at hgood
    exact .next (h.render hgood nested path)
  next => exact .ask fun _ => (h.give good_nil).inStep
  next =>
    refine .ask fun answer => (h.give ?_).inStep
    cases (answer : Option String) <;> exact good_nil
  next file program _ => exact .ask fun found => h.enterProgram found.toOption program
  next path pos _ =>
    refine .ask fun found => ?_
    cases (found : Except String String) with
    | ok path => exact h.importLocated path
    | error reason => exact (h.fail _ _).inStep
  next path pos _ =>
    refine .ask fun source => ?_
    cases (source : Except String String) with
    | ok source => exact h.enterModule path source
    | error reason => exact (h.fail _ _).inStep
  next r hc =>
    rw [hc] at hgood
    split
    next hm =>
      obtain ⟨_, _, _, _, hs⟩ := h.frames
      rw [hm] at hs
      rw [hs.of_nil.2.2.2]
      exact .done h.inStep hm hc
    next f stack hm =>
      obtain ⟨f', stack', hm', hnext⟩ := h.resume hgood hm
      rw [h.control] at hnext
      rw [hm']
      exact .next hnext

end TinyScript

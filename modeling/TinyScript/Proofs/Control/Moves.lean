/-
  TinyScript.Proofs.Control.Moves — what a step can do.

  Whatever the machine starts, from an operator to a whole file, is made of a few moves (`Moves`):
  it goes on with another control, puts a frame on its stack, enters a scope, changes a binding or
  a container, or makes a cell. Each says when it is made. A result that meets a frame takes it
  away first, and only exit frames do something that is not a move. So every step is one of three
  things (`goes_of_next`), and whatever moves and exits keep is kept by every step.
-/

import Mathlib.Data.List.TakeWhile
import TinyScript.Machine.Step

namespace TinyScript

open Store TinyScript.Text

variable {r : Value × Store} {pos : Position}

/-! ## Changes and new cells -/

def Control.function? : Control → Option FunctionDecl
  | .eval (.function _ d) | .exec (.function _ d _) => some d
  | _ => none

def Control.class? : Control → Option ClassDecl
  | .eval (.classDef _ d) | .exec (.classDef _ d _) => some d
  | _ => none

def ClassDecl.definition (d : ClassDecl) (closure : Ref) : Class :=
  ⟨d.shownName, Table.ofList (d.methods.map fun f => (f.shownName, ⟨f, closure, none⟩)),
    d.properties, some closure, true⟩

namespace Store

/-- The changes that a script comes to in a scope. -/
inductive Permits (s : Store) (scope : ScopeId) : Change → Prop
  | declare {name : String} {v : Value} {constant : Bool} {c : Change} :
    s.declare scope name v constant = .ok c → Permits s scope c
  | declareVar {name : String} {v : Value} {c : Change} :
    s.declareVar scope name v = .ok c → Permits s scope c
  | assign {name : String} {v : Value} {c : Change} :
    s.assign scope name v = .ok c → Permits s scope c
  | member {owner v : Value} {name : String} {pos : Position} {c : Change} :
    s.setMember owner name v pos = .ok c → Permits s scope c
  | element {owner key v : Value} {pos : Position} {c : Change} :
    s.setElement owner key v pos = .ok c → Permits s scope c
  | append (r : Ref) (v : Value) : Permits s scope (.append r v)
  | dropLast (r : Ref) : Permits s scope (.dropLast r)

/-- The cells that are made while the control is `control`. -/
inductive Makes (control : Control) (objectClass : Ref) (s : Store) : Cell → Prop
  | array (items : Array Value) : Makes control objectClass s (.array items)
  | literal (fields : Table Value) : Makes control objectClass s (.object objectClass fields)
  | fresh {r : Ref} {c : Class} : s.class? r = some c → Makes control objectClass s
    (.object r (Table.ofList (c.properties.map fun p => (p.name, Value.nil))))
  | copy {r c : Ref} {fields : Table Value} : s.object? r = some (c, fields) →
    Makes control objectClass s (.object c fields)
  | function {d : FunctionDecl} (closure : Ref) : control.function? = some d →
    Makes control objectClass s (.function ⟨d, closure, none⟩)
  | bound {v : Value} {name : String} {f : Function} : s.boundMethod? v name = some f →
    Makes control objectClass s (.function f)
  | native (n : Native) : Makes control objectClass s (.native n)
  | classDef {d : ClassDecl} (closure : Ref) : control.class? = some d →
    Makes control objectClass s (.classDef (d.definition closure))
  | hosted (name : String) (properties : List String) :
    Makes control objectClass s (.classDef (.hosted name properties))
  | symbol (name : String) (v : Value) (constant : Bool) :
    Makes control objectClass s (.symbol name v constant)
  | space (name : String) (symbols : List Ref) :
    Makes control objectClass s (.namespaceDef name symbols)

inductive Grows (control : Control) (objectClass : Ref) (s : Store) : Store → Prop
  | refl : Grows control objectClass s s
  | make {t : Store} {c : Cell} : Grows control objectClass s t → Makes control objectClass t c →
    Grows control objectClass s (t.alloc c).2

namespace Grows

variable {control : Control} {objectClass : Ref} {s t : Store}

theorem ownMember (h : Grows control objectClass s t) (v : Value) (name : String)
    {r : Option Value × Store} (hr : t.ownMember v name = .ok r) :
    Grows control objectClass s r.2 := by
  unfold Store.ownMember at hr
  split at hr
  · split at hr
    · cases hr
      exact h
    next hf =>
      cases hr
      exact h.make (.bound hf)
    · cases hr
      exact h
  · split at hr
    · cases hr
      exact h
    · cases hr
  · cases hr
    exact h
  · split at hr <;> cases hr <;> exact h
  · cases hr
    exact h

/-- Reading a member makes a bound method at most. -/
theorem member (h : Grows control objectClass s t) (v : Value) (name : String)
    (hr : t.member v name = .ok r) : Grows control objectClass s r.2 := by
  unfold Store.member at hr
  cases ho : t.ownMember v name with
  | error e =>
    rw [ho] at hr
    cases hr
  | ok own =>
    have hown := h.ownMember v name ho
    rw [ho] at hr
    obtain ⟨_ | value, u⟩ := own
    · cases hm : Method.of? v name with
      | none =>
        simp only [hm] at hr
        cases hr
      | some method =>
        simp only [hm] at hr
        cases hr
        exact hown.make (.native _)
    · cases hr
      exact hown

theorem element (h : Grows control objectClass s t) (target key : Value)
    (hr : t.element target key = .ok r) : Grows control objectClass s r.2 := by
  unfold Store.element at hr
  split at hr
  · simp only at hr
    split at hr
    · cases hr
      exact h
    · cases hr
  · split at hr
    · cases hr
      exact h
    · cases hr
  · cases hr
    exact h
  · exact h.member _ _ hr
  · cases hr

theorem makeSymbols (h : Grows control objectClass s t) (i : ScopeId) (names : List String) :
    Grows control objectClass s (t.makeSymbols i names).2 := by
  induction names generalizing t with
  | nil => exact h
  | cons name names ih =>
    unfold Store.makeSymbols
    split
    · exact ih (h.make (.symbol _ _ _))
    · exact ih h

theorem makeSpace (h : Grows control objectClass s t) (i : ScopeId) (name : String)
    (body : List Stmt) : Grows control objectClass s (t.makeSpace i name body).2 :=
  (h.makeSymbols i _).make (.space _ _)

theorem clone (h : Grows control objectClass s t) (v : Value) :
    Grows control objectClass s (t.clone v).2 := by
  unfold Store.clone
  split
  · exact h.make (.array _)
  · split
    next hobject => exact h.make (.copy hobject)
    · exact h
  · exact h

mutual

theorem place (known : List Value) : ∀ (made : Made) {t : Store}, Grows control objectClass s t →
    Grows control objectClass s (t.place objectClass known made).2
  | .value _, _, h => h
  | .type _, _, h => h
  | .known _, _, h => h
  | .array items, _, h => (placeAll known items h).make (.array _)
  | .object _ values, _, h => (placeAll known values h).make (.literal _)
  | .classDef name properties, _, h => h.make (.hosted name properties)
  | .function _ _ keeps _, _, h => (place known keeps h).make (.native _)

theorem placeAll (known : List Value) : ∀ (items : List Made) {t : Store},
    Grows control objectClass s t →
    Grows control objectClass s (t.placeAll objectClass known items).2
  | [], _, h => h
  | made :: rest, _, h => placeAll known rest (place known made h)

end

end Grows

end Store

/-! ## Moves -/

def Control.opensFile : Control → Bool
  | .load .. | .enter .. => true
  | _ => false

/-- The states that a machine comes to by moves. -/
inductive Moves (base : Machine) : Machine → Prop
  | refl : Moves base base
  | go {m : Machine} {c : Control} : Moves base m → c.opensFile = false →
    Moves base { m with control := c }
  /-- Only a file that was found, and is neither loaded nor running, is read. -/
  | load {m : Machine} {wanted path : String} {pos : Position} : Moves base m →
    base.control = .locate wanted pos → m.modules.get? path = none → path ∉ m.loading →
    Moves base { m with control := .load path pos }
  | push {m : Machine} {f : Frame} : Moves base m → (∀ e, f ≠ .exit e) → Moves base (m.push f)
  /-- A block lies in the scope that it is entered from. -/
  | enterScope {m : Machine} (parent : ScopeId) (kind : ScopeKind) : Moves base m →
    (kind = .block → parent = m.scope) → Moves base (m.enterScope parent kind)
  | changed {m : Machine} {c : Change} : Moves base m → m.store.Permits m.scope c →
    Moves base (m.changed c)
  | make {m : Machine} {c : Cell} : Moves base m →
    Store.Makes base.control m.objectClass m.store c →
    Moves base { m with store := (m.store.alloc c).2 }
  | capture {m : Machine} : Moves base m → Moves base m.capture.2
  | enterCall {m : Machine} (f : Function) (held : List Value) (pos : Position) : Moves base m →
    m.depth < m.maxDepth →
    Moves base ({ m with depth := m.depth + 1 }.push (.exit (.call f held pos)))
  | loadModule {m : Machine} {path : String} {pos : Position} : Moves base m →
    base.control = .load path pos →
    Moves base ({ m with loading := m.loading ++ [path] }.push (.exit (.module path)))
  | loadProgram {m : Machine} {file : String} {program : Program} (path : Option String) :
    Moves base m → base.control = .enter file program →
    Moves base ({ m with loading := m.loading ++ path.toList }.push (.exit (.run path.isSome)))

variable {base m n : Machine}

/-- The host changes what a script may change. -/
theorem Store.Permits.edit? {s : Store} {scope : ScopeId} {known : List Value} {edit : HostEdit}
    {c : Change} (h : s.edit? known edit = some c) : s.Permits scope c := by
  cases edit with
  | set owner key value =>
    simp only [Store.edit?] at h
    cases hset : s.setElement (known.getD owner .nil) (known.getD key .nil)
      (known.getD value .nil) default with
    | error f =>
      rw [hset] at h
      cases h
    | ok d =>
      rw [hset] at h
      cases h
      exact .element hset
  | append array value =>
    simp only [Store.edit?] at h
    split at h
    · cases h
      exact .append _ _
    · cases h
  | dropLast array =>
    simp only [Store.edit?] at h
    split at h
    · cases h
      exact .dropLast _
    · cases h

theorem Store.Permits.bindAs {s : Store} {scope : ScopeId} {q : Qualifier} {name : String}
    {v : Value} {c : Change} (h : s.bindAs scope q name v = .ok c) : s.Permits scope c := by
  cases q with
  | varDecl => exact .declareVar h
  | letDecl => exact .declare h
  | constDecl => exact .declare h

namespace Machine

/-- A file that closes no cycle is not running. -/
theorem not_mem_of_cycle? {loading : List String} {path : String}
    (h : cycle? loading path = none) : path ∉ loading := by
  unfold cycle? at h
  split at h
  next hnil =>
    intro hpath
    simpa using List.dropWhile_eq_nil_iff.1 hnil path hpath
  next => cases h

theorem grows_lookup {control : Control} {name : String} (hr : m.lookup name = .ok r) :
    Grows control m.objectClass m.store r.2 := by
  unfold lookup at hr
  split at hr
  · cases hr
    exact .refl
  · cases hr

end Machine

namespace Moves

/-! ## Results and changes of the store -/

section

variable (h : Moves base m)
include h

theorem give (v : Value) : Moves base (m.give v) := h.go rfl

theorem flow (f : Flow) : Moves base (m.flow f) := h.go rfl

theorem text (t : String) : Moves base (m.text t) := h.go rfl

theorem fault (f : Fault) : Moves base (m.fault f) := h.go rfl

theorem fail (pos : Position) (f : Failure) : Moves base (m.fail pos f) := h.go rfl

theorem eval (e : Expr) : Moves base (m.eval e) := h.go rfl

theorem exec (s : Stmt) : Moves base (m.exec s) := h.go rfl

theorem pushValue (f : ValueFrame) : Moves base (m.push (.value f)) := h.push nofun

theorem pushFlow (f : FlowFrame) : Moves base (m.push (.flow f)) := h.push nofun

theorem pushText (f : TextFrame) : Moves base (m.push (.text f)) := h.push nofun

theorem evalFor (f : ValueFrame) (e : Expr) : Moves base (m.evalFor f e) :=
  (h.pushValue f).go rfl

theorem proceed {α : Type} {r : Except Fault α} {next : α → Machine}
    (hnext : ∀ a, r = .ok a → Moves base (next a)) : Moves base (m.proceed r next) := by
  unfold Machine.proceed
  split
  next a => exact hnext a rfl
  next f => exact h.fault f

theorem proceedAt {α : Type} {r : Except Failure α} {next : α → Machine}
    (hnext : ∀ a, r = .ok a → Moves base (next a)) : Moves base (m.proceedAt pos r next) := by
  unfold Machine.proceedAt
  split
  next a => exact hnext a rfl
  next f => exact h.fail pos f

theorem change {r : Except Fault Change} {next : Machine → Machine}
    (hr : ∀ c, r = .ok c → m.store.Permits m.scope c)
    (hnext : ∀ n, Moves base n → Moves base (next n)) : Moves base (m.change r next) := by
  unfold Machine.change
  split
  next c => exact hnext _ (h.changed (hr c rfl))
  next f => exact h.fault f

theorem changeAt {r : Except Failure Change} {next : Machine → Machine}
    (hr : ∀ c, r = .ok c → m.store.Permits m.scope c)
    (hnext : ∀ n, Moves base n → Moves base (next n)) : Moves base (m.changeAt pos r next) := by
  unfold Machine.changeAt
  split
  next c => exact hnext _ (h.changed (hr c rfl))
  next f => exact h.fail pos f

theorem grows {s : Store} (hs : Grows base.control m.objectClass m.store s) :
    Moves base { m with store := s } := by
  induction hs with
  | refl => exact h
  | make _ hc ih => exact ih.make hc

theorem giveNew (f : Store → Value × Store)
    (hf : Grows base.control m.objectClass m.store (f m.store).2) : Moves base (m.giveNew f) :=
  (h.grows hf).give _

theorem newArray (items : Store → Array Value) :
    Moves base (m.giveNew fun s => s.newArray (items s)) :=
  h.giveNew _ (Grows.refl.make (.array _))

theorem makeSpace (name : String) (body : List Stmt) :
    Moves base (m.giveNew (·.makeSpace m.scope name body)) :=
  h.giveNew _ (Grows.refl.makeSpace m.scope name body)

theorem giveIn (hr : Grows base.control m.objectClass m.store r.2) :
    Moves base (m.giveIn r) :=
  (h.grows hr).give _

theorem functionValue {d : FunctionDecl} (hd : base.control.function? = some d) :
    Moves base (m.functionValue d).2 :=
  h.capture.make (.function _ hd)

theorem classValue {d : ClassDecl} (hd : base.control.class? = some d) :
    Moves base (m.classValue d).2 := by
  unfold Machine.classValue
  exact h.capture.make (.classDef _ hd)

/-! ## Statements one after the other -/

theorem sequence (last : Value) (body : List Stmt) : Moves base (m.sequence last body) := by
  cases body with
  | nil => exact h.flow _
  | cons s todo => exact (h.pushFlow _).exec s

theorem program (last : Value) (body : List Stmt) : Moves base (m.program last body) := by
  cases body with
  | nil => exact h.give _
  | cons s todo => exact (h.pushFlow _).exec s

theorem enterBlock (body : List Stmt) : Moves base (m.enterBlock body) :=
  (h.enterScope m.scope .block fun _ => rfl).sequence _ body

theorem bindStatement (pos : Position) (name : String) (v : Value) :
    Moves base (m.bindStatement pos name v) :=
  h.changeAt (fun _ => .declare) fun _ hn => hn.flow _

theorem bindDeclared (pos : Position) (q : Qualifier) (name : String) (v : Value) :
    Moves base (m.bindDeclared pos q name v) :=
  h.changeAt (fun _ => .bindAs) fun _ hn => hn.flow _

theorem branch (condition : Value) (body : List Stmt) (otherwise : Option Stmt) :
    Moves base (m.branch condition body otherwise) := by
  unfold Machine.branch
  split
  · exact h.enterBlock body
  · cases otherwise with
    | some s => exact h.exec s
    | none => exact h.flow _

theorem loopTest (test : Value) (condition : Expr) (body : List Stmt) :
    Moves base (m.loopTest test condition body) := by
  unfold Machine.loopTest
  split
  · exact (h.pushFlow _).enterBlock body
  · exact h.flow _

theorem loopOver (pos : Position) (item : String) (body : List Stmt) (iterable : Value)
    (todo : List Value) : Moves base (m.loopOver pos item body iterable todo) := by
  cases todo with
  | nil => exact h.flow _
  | cons v todo =>
    exact ((h.pushFlow _).enterScope _ _ fun _ => rfl).changeAt (fun _ => .declare) fun _ hn =>
      hn.sequence _ body

end

/-- What a function of the host does is made of moves. -/
theorem perform : ∀ (code : HostCode) {m : Machine} (known : List Value), Moves base m →
    Moves base { m with store := (code.perform m.objectClass m.store known).2 }
  | .give _, _, _, h => h
  | .fail _, _, _, h => h
  | .look _ next, _, _, h => perform (next _) _ h
  | .compare _ _ next, _, _, h => perform (next _) _ h
  | .make made next, _, known, h => perform next _ (h.grows (Grows.refl.place known made))
  | .change edit next, m, known, h => by
    simp only [HostCode.perform]
    split
    next c hc => exact perform (next true) known (h.changed (.edit? hc))
    next => exact perform (next false) known h

theorem bindTargets (h : Moves base m) (q : Qualifier) (whole : Value)
    (targets : List (Param × Value)) : Moves base (m.bindTargets q whole targets) := by
  induction targets generalizing m with
  | nil => exact h.flow _
  | cons target rest ih =>
    exact h.proceed fun _ _ => h.changeAt (fun _ => .bindAs) fun _ hn => ih hn

/-! ## Calls -/

theorem bindArguments (h : Moves base m) (body : List Stmt) (params : List (Param × Value)) :
    Moves base (m.bindArguments body params) := by
  induction params generalizing m with
  | nil => exact h.sequence _ body
  | cons param rest ih => exact h.changeAt (fun _ => .declare) fun _ hn => ih hn

section

variable (h : Moves base m)
include h

theorem startBody (f : Function) (args : List Value) (pos : Position) :
    Moves base (m.startBody f args pos) := by
  unfold Machine.startBody
  split
  · exact h.changeAt (fun _ => .declare) fun _ hn => hn.bindArguments _ _
  · exact h.bindArguments _ _

/-- A call that would be one too many fails before it begins. -/
theorem callFunction (f : Function) (held args : List Value) (pos : Position) :
    Moves base (m.callFunction f held args pos) := by
  unfold Machine.callFunction
  dsimp only
  split
  · exact h.fail pos _
  · split
    · exact h.fail pos _
    next hlt =>
      refine h.proceed fun _ _ => ?_
      have hcall := h.enterCall f held pos (Nat.lt_of_not_le hlt)
      exact ((hcall.enterScope _ .function (by simp)).pushFlow _).startBody f args pos

theorem construct (classRef : Ref) (args : List Value) (pos : Position) :
    Moves base (m.construct classRef args pos) := by
  unfold Machine.construct
  split
  · exact h.fail pos _
  next c hc =>
    have hmade := h.make (.fresh hc)
    dsimp only
    split
    · exact (hmade.pushValue _).callFunction _ _ _ _
    · split
      · exact hmade.give _
      · exact hmade.fail pos _

/-! ## Texts -/

theorem renderParts (opening closing : String) (held : List Value) (done : List String)
    (path : List Ref) (pos : Position) (todo : List (String × Value)) :
    Moves base (m.renderParts opening closing held done path pos todo) := by
  cases todo with
  | nil => exact h.text _
  | cons part todo => exact (h.pushText _).go rfl

theorem renderObject (r : Ref) (path : List Ref) (pos : Position) :
    Moves base (m.renderObject r path pos) := by
  unfold Machine.renderObject
  split
  · split
    · exact h.text _
    · split
      · exact h.text _
      · exact h.renderParts _ _ _ _ _ _ _
  · exact h.text _

theorem render (v : Value) (nested : Bool) (path : List Ref) (pos : Position) :
    Moves base (m.render v nested path pos) := by
  unfold Machine.render
  split
  · split
    · exact h.text _
    · exact h.renderParts _ _ _ _ _ _ _
  · split
    · exact (h.pushValue _).callFunction _ _ _ _
    · exact h.renderObject _ _ _
  · exact h.text _

theorem useTexts (texts : List String) (use : TextUse) : Moves base (m.useTexts texts use) := by
  cases use <;> exact h.go rfl

theorem renderTexts (use : TextUse) (held : List Value) (done : List String) (pos : Position)
    (todo : List Value) : Moves base (m.renderTexts use held done pos todo) := by
  cases todo with
  | nil => exact h.useTexts _ use
  | cons v todo => exact (h.pushText _).go rfl

/-! ## Operators and built-in functions -/

theorem applyBinary (pos : Position) (op : BinaryOp) (l r : Value) :
    Moves base (m.applyBinary pos op l r) := by
  unfold Machine.applyBinary
  split
  · exact h.give _
  · dsimp only
    split
    · exact h.renderTexts _ _ _ _ _
    · exact h.renderTexts _ _ _ _ _
    · exact h.newArray _
    · exact h.fail pos _

theorem binary (pos : Position) (op : BinaryOp) (l r : Value) :
    Moves base (m.binary pos op l r) := by
  unfold Machine.binary
  split
  · exact (h.pushValue _).callFunction _ _ _ _
  · exact h.applyBinary pos op l r

theorem unary (pos : Position) (op : UnaryOp) (v : Value) : Moves base (m.unary pos op v) := by
  unfold Machine.unary
  dsimp only
  split
  · exact h.give _
  · exact h.give _
  · exact h.give _
  · split
    · exact (h.pushValue _).callFunction _ _ _ _
    · exact h.fail pos _
  · exact h.fail pos _

theorem lengthOf (pos : Position) (v : Value) : Moves base (m.lengthOf pos v) := by
  unfold Machine.lengthOf
  split
  · exact h.give _
  · exact h.fail pos _

theorem cast (t : BuiltinType) (args : List Value) (pos : Position) :
    Moves base (m.cast t args pos) := by
  unfold Machine.cast
  split
  · split
    · split
      · exact h.give _
      · exact h.fail pos _
    · exact h.renderTexts _ _ _ _ _
    · exact h.give _
    · exact h.give _
    · exact h.fail pos _
  · exact h.fail pos _

theorem append (receiver arg : Value) : Moves base (m.append receiver arg) := by
  unfold Machine.append
  split
  · exact (h.changed (.append _ _)).give _
  · exact h.give _

theorem popItem (receiver : Value) : Moves base (m.pop receiver) := by
  unfold Machine.pop
  split
  · exact (h.changed (.dropLast _)).give _
  · exact h.give _

theorem contains (pos : Position) (receiver arg : Value) :
    Moves base (m.contains pos receiver arg) := by
  unfold Machine.contains
  split
  · exact h.give _
  · exact h.give _
  · exact h.fail pos _

theorem join (pos : Position) (held : List Value) (receiver separator : Value) :
    Moves base (m.join pos held receiver separator) := by
  unfold Machine.join
  split
  · exact h.renderTexts _ _ _ _ _
  · exact h.fail pos _

theorem split (pos : Position) (receiver separator : Value) :
    Moves base (m.split pos receiver separator) := by
  unfold Machine.split
  split
  · exact h.newArray _
  · exact h.fail pos _

theorem mapText (receiver : Value) (f : List Char → List Char) :
    Moves base (m.mapText receiver f) := by
  unfold Machine.mapText
  split <;> exact h.give _

theorem callMethod (method : Method) (receiver : Value) (held : List Value) (arg : Value)
    (pos : Position) : Moves base (m.callMethod method receiver held arg pos) := by
  cases method with
  | str => exact h.renderTexts (.join "") held [] pos [receiver]
  | clone => exact h.giveNew (·.clone receiver) (Grows.refl.clone receiver)
  | len => exact h.lengthOf pos receiver
  | add => exact h.append receiver arg
  | pop => exact h.popItem receiver
  | join => exact h.join pos held receiver arg
  | contains => exact h.contains pos receiver arg
  | upper => exact h.mapText receiver _
  | lower => exact h.mapText receiver _
  | split => exact h.split pos receiver arg

theorem runNative (n : Native) (callee : Value) (args : List Value) (pos : Position) :
    Moves base (m.runNative n callee args pos) := by
  unfold Machine.runNative
  dsimp only
  split
  · exact h.renderTexts _ _ _ _ _
  · split
    · exact h.renderTexts _ _ _ _ _
    · exact h.fail pos _
  · exact h.give _
  · exact h.renderTexts _ _ _ _ _
  · exact h.lengthOf pos _
  · exact h.proceedAt fun items _ => h.newArray fun _ => items
  · exact h.callMethod _ _ _ _ pos
  · unfold Machine.giveAnswer
    split
    · exact (perform _ _ h).give _
    · exact (perform _ _ h).fail pos _

theorem callNative (n : Native) (callee : Value) (args : List Value) (pos : Position) :
    Moves base (m.callNative n callee args pos) := by
  unfold Machine.callNative
  split
  · split
    · exact h.runNative n callee args pos
    · exact h.fail pos _
  · exact h.runNative n callee args pos

theorem call (callee : Value) (args : List Value) (pos : Position) :
    Moves base (m.call callee args pos) := by
  unfold Machine.call
  split
  · split
    · exact h.callFunction _ _ _ _
    · exact h.callNative _ _ _ _
    · exact h.fail pos _
  · exact h.construct _ _ _
  · exact h.cast _ _ _
  · exact h.fail pos _

/-! ## Files and namespaces -/

theorem enterNamespace (d : NamespaceDecl) : Moves base (m.enterNamespace d) :=
  ((h.enterScope m.scope .module (by simp)).pushFlow _).sequence _ d.body

theorem importFrom (pos : Position) (path : String) : Moves base (m.importFrom pos path) :=
  h.go rfl

theorem importLocated {wanted : String} (hc : base.control = .locate wanted pos) (path : String) :
    Moves base (m.importLocated pos path) := by
  unfold Machine.importLocated
  split
  · exact h.give _
  next hmodule =>
    split
    · exact h.fail pos _
    next hcycle => exact h.load hc hmodule (Machine.not_mem_of_cycle? hcycle)

theorem enterModule {path : String} (hc : base.control = .load path pos) (source : String) :
    Moves base (m.enterModule path source) := by
  refine h.proceed fun program _ => ?_
  exact (((h.loadModule hc).enterScope _ .module (by simp)).pushValue _).program _ program

theorem enterProgram {file : String} {program : Program} (hc : base.control = .enter file program)
    (path : Option String) : Moves base (m.enterProgram path program) :=
  ((h.loadProgram path hc).enterScope _ .module (by simp)).program _ program

/-! ## Expressions and statements -/

theorem evalItems (done : List Value) (todo : List Expr) : Moves base (m.evalItems done todo) := by
  cases todo with
  | nil => exact h.newArray fun _ => done.reverse.toArray
  | cons e todo => exact h.evalFor _ e

theorem evalFields (done : Table Value) (todo : List (String × Expr)) :
    Moves base (m.evalFields done todo) := by
  cases todo with
  | nil => exact h.giveNew (·.newObject m.objectClass done) (Grows.refl.make (.literal done))
  | cons field todo => exact h.evalFor _ field.2

theorem evalArguments (pos : Position) (callee : Value) (done : List Value) (todo : List Expr) :
    Moves base (m.evalArguments pos callee done todo) := by
  cases todo with
  | nil => exact h.call callee _ pos
  | cons e todo => exact h.evalFor _ e

theorem evalAssigned (frame : ValueFrame) (pos : Position) (sign : AssignSign)
    (current : Unit → Except Failure (Value × Store)) (value : Expr)
    (hcurrent : ∀ r, current () = .ok r → Grows base.control m.objectClass m.store r.2) :
    Moves base (m.evalAssigned frame pos sign current value) := by
  unfold Machine.evalAssigned
  split
  · exact h.evalFor frame value
  · exact h.proceedAt fun r hr => ((h.grows (hcurrent r hr)).pushValue _).evalFor _ value

theorem assign (pos : Position) (sign : AssignSign) (target value : Expr) :
    Moves base (m.assign pos sign target value) := by
  unfold Machine.assign
  split
  · exact h.evalAssigned _ pos sign _ value fun _ hr => Machine.grows_lookup hr
  · exact h.evalFor _ _
  · exact h.evalFor _ _
  · exact h.fail pos _

theorem evaluate {e : Expr} (hc : base.control = .eval e) : Moves base (m.evaluate e) := by
  cases e with
  | name pos n => exact h.proceedAt fun _ _ => h.give _
  | literal _ l => exact h.give _
  | group _ e => exact h.eval e
  | array _ items => exact h.evalItems [] items
  | object _ fields => exact h.evalFields ∅ fields
  | binary pos op l r => exact h.evalFor _ l
  | unary pos op e => exact h.evalFor _ e
  | assign pos sign target value => exact h.assign pos sign target value
  | call pos callee args => exact h.evalFor _ callee
  | member pos owner name => exact h.evalFor _ owner
  | index pos owner key => exact h.evalFor _ owner
  | function _ d => exact (h.functionValue (hc ▸ rfl)).give _
  | classDef _ d => exact (h.classValue (hc ▸ rfl)).give _
  | namespaceDef _ d => exact h.enterNamespace d
  | importFrom pos path => exact h.evalFor _ path

theorem afterLeft (pos : Position) (op : BinaryOp) (right : Expr) (l : Value) :
    Moves base (m.afterLeft pos op right l) := by
  unfold Machine.afterLeft
  split
  · split
    · exact h.evalFor _ right
    · exact h.give _
  · split
    · exact h.give _
    · exact h.evalFor _ right
  · split
    · exact h.eval right
    · exact h.give _
  · exact h.evalFor _ right

theorem execute {s : Stmt} (hc : base.control = .exec s) : Moves base (m.execute s) := by
  cases s with
  | expr _ e => exact h.evalFor _ e
  | declare pos q name typing value _ =>
    cases value with
    | some e => exact h.evalFor _ e
    | none => exact h.bindDeclared pos q name .nil
  | destructure _ q targets value _ => exact h.evalFor _ value
  | function pos d _ => exact (h.functionValue (hc ▸ rfl)).bindStatement pos _ _
  | classDef pos d _ => exact (h.classValue (hc ▸ rfl)).bindStatement pos _ _
  | namespaceDef pos d _ => exact (h.pushValue _).enterNamespace d
  | ifElse _ condition body otherwise => exact h.evalFor _ condition
  | whileLoop _ condition body => exact h.evalFor _ condition
  | forLoop pos item iterable body => exact h.evalFor _ iterable
  | block _ body => exact h.enterBlock body
  | returnValue _ value =>
    cases value with
    | some e => exact h.evalFor _ e
    | none => exact h.flow _
  | breakLoop _ => exact h.flow _
  | continueLoop _ => exact h.flow _

/-! ## Steps -/

theorem resumeValue (v : Value) (f : ValueFrame) : Moves base (m.resumeValue v f) := by
  cases f with
  | item done todo => exact h.evalItems _ todo
  | field done name todo => exact h.evalFields _ todo
  | left pos op right => exact h.afterLeft pos op right v
  | right pos op left => exact h.binary pos op left v
  | truth _ => exact h.give _
  | operator op _ _ => exact h.give _
  | operand pos op => exact h.unary pos op v
  | hold _ => exact h.give v
  | storeName pos name => exact h.changeAt (fun _ => .assign) fun _ hn => hn.give v
  | memberOwner pos sign name value =>
    exact h.evalAssigned _ pos sign (fun _ => m.store.member v name) value fun _ hr =>
      Grows.refl.member v name hr
  | storeMember pos owner name => exact h.change (fun _ => .member) fun _ hn => hn.give v
  | elementOwner pos sign key value => exact h.evalFor _ key
  | elementKey pos sign owner value =>
    exact h.evalAssigned _ pos sign (fun _ => m.store.element owner v) value fun _ hr =>
      Grows.refl.element owner v hr
  | storeElement pos owner key => exact h.change (fun _ => .element) fun _ hn => hn.give v
  | callee pos args => exact h.evalArguments pos v [] args
  | argument pos callee done todo => exact h.evalArguments pos callee _ todo
  | member pos name =>
    exact h.proceedAt fun _ hr => h.giveIn (Grows.refl.member v name hr)
  | indexed pos key => exact h.evalFor _ key
  | key pos owner => exact h.proceedAt fun _ hr => h.giveIn (Grows.refl.element owner v hr)
  | importPath pos =>
    cases v with
    | string path => exact h.importFrom pos path
    | _ => exact h.fail pos _
  | statement => exact h.flow _
  | declare pos q name typing => exact h.proceed fun _ _ => h.bindDeclared pos q name v
  | destructure pos q targets => exact h.proceed fun items _ => h.bindTargets q v _
  | branch body otherwise => exact h.branch v body otherwise
  | loopTest condition body => exact h.loopTest v condition body
  | loopItems pos itemsPos item body =>
    exact h.proceedAt fun items _ => h.loopOver pos item body v items
  | returned => exact h.flow _
  | bindName pos name => exact h.bindStatement pos name v
  | construct object _ => exact h.give object
  | strResult className pos =>
    cases v with
    | string s => exact h.text s
    | _ => exact h.fail pos _
  | exports name body => exact h.makeSpace name body

theorem resumeFlow (g : Flow) (f : FlowFrame) : Moves base (m.resumeFlow g f) := by
  cases f with
  | sequence last todo =>
    cases g with
    | normal v => exact h.sequence v todo
    | _ => exact h.flow _
  | program last todo => cases g <;> exact h.program _ todo
  | loopBody condition body =>
    cases g with
    | broke => exact h.flow _
    | returned v => exact h.flow _
    | _ => exact h.evalFor _ condition
  | itemBody pos item body iterable todo =>
    cases g with
    | broke => exact h.flow _
    | returned v => exact h.flow _
    | _ => exact h.loopOver pos item body iterable todo
  | functionBody => cases g <;> exact h.give _
  | namespaceBody name body => exact h.makeSpace name body

theorem resumeText (t : String) (f : TextFrame) : Moves base (m.resumeText t f) := by
  cases f with
  | parts opening closing held done label todo path pos => exact h.renderParts _ _ _ _ _ _ todo
  | texts use held done todo pos => exact h.renderTexts use held _ pos todo

end

/-- A result meets a frame that is not an exit. -/
theorem resume {f : Frame} (h : Moves base m) (r : Result) (hf : ∀ e, f ≠ .exit e) :
    Moves base (m.resume r f) := by
  cases f with
  | exit e => exact absurd rfl (hf e)
  | value f =>
    cases r with
    | value v => exact h.resumeValue v f
    | _ => exact h
  | flow f =>
    cases r with
    | flow g => exact h.resumeFlow g f
    | _ => exact h
  | text f =>
    cases r with
    | text t => exact h.resumeText t f
    | _ => exact h

end Moves

/-! ## Exits -/

namespace Machine

theorem leave_stack (m : Machine) (r : Result) (e : ExitFrame) : (m.leave r e).stack = m.stack := by
  cases e with
  | scope previous =>
    simp only [leave]
    split <;> rfl
  | call f held pos =>
    cases r with
    | value v =>
      simp only [leave, proceed]
      split <;> rfl
    | _ => rfl
  | module path =>
    simp only [leave]
    split <;> rfl
  | run located =>
    simp only [leave]
    split <;> split <;> rfl
  | session previous => rfl

/-- An exit passes the result on, or gives a fault instead. -/
theorem leave_control {r : Result} (hc : m.control = .give r) (e : ExitFrame) :
    (m.leave r e).control = .give r ∨ ∃ f, (m.leave r e).control = .give (.fault f) := by
  cases e with
  | scope previous =>
    simp only [leave]
    split <;> exact .inl hc
  | call f held pos =>
    cases r with
    | value v =>
      simp only [leave, proceed]
      split
      · exact .inl rfl
      · exact .inr ⟨_, rfl⟩
    | _ => exact .inl hc
  | module path =>
    simp only [leave]
    split <;> exact .inl hc
  | run located =>
    simp only [leave]
    split <;> split <;> exact .inl hc
  | session previous => exact .inl hc

end Machine

/-! ## Steps -/

/-- What a step without an answer does: it starts something, a result meets the frame that waits
    for it, or an exit is taken. -/
inductive Goes (m : Machine) : Machine → Prop
  | start {n : Machine} : Moves m n → Goes m n
  | resume {n : Machine} {r : Result} {f : Frame} {stack : List Frame} : m.control = .give r →
    m.stack = f :: stack → (∀ e, f ≠ .exit e) → Moves { m with stack := stack } n → Goes m n
  | leave {r : Result} {e : ExitFrame} {stack : List Frame} : m.control = .give r →
    m.stack = .exit e :: stack → Goes m ({ m with stack := stack }.leave r e)

theorem goes_of_next (h : m.step = .next n) : Goes m n := by
  unfold Machine.step at h
  split at h
  next hc =>
    cases h
    exact .start (Moves.refl.evaluate hc)
  next hc =>
    cases h
    exact .start (Moves.refl.execute hc)
  next =>
    cases h
    exact .start (Moves.refl.render _ _ _ _)
  next => cases h
  next => cases h
  next => cases h
  next => cases h
  next => cases h
  next r hc =>
    split at h
    next => cases h
    next f stack hstack =>
      cases h
      cases f with
      | exit e => exact .leave hc hstack
      | value f => exact .resume hc hstack nofun (Moves.refl.resume r nofun)
      | flow f => exact .resume hc hstack nofun (Moves.refl.resume r nofun)
      | text f => exact .resume hc hstack nofun (Moves.refl.resume r nofun)

/-- Whatever the host answers, moves follow. -/
theorem moves_of_ask {request : Request} {resume : request.Reply → Machine}
    (h : m.step = .ask request resume) (reply : request.Reply) : Moves m (resume reply) := by
  unfold Machine.step at h
  split at h
  next => cases h
  next => cases h
  next => cases h
  next =>
    cases h
    exact Moves.refl.give _
  next =>
    cases h
    exact Moves.refl.give _
  next hc =>
    cases h
    exact Moves.refl.enterProgram hc _
  next pos hc =>
    cases h
    cases reply with
    | ok path => exact Moves.refl.importLocated hc path
    | error reason => exact Moves.refl.fail pos _
  next pos hc =>
    cases h
    cases reply with
    | ok source => exact Moves.refl.enterModule hc source
    | error reason => exact Moves.refl.fail pos _
  next => split at h <;> cases h

end TinyScript

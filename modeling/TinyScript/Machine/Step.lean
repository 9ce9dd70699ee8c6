/-
  TinyScript.Machine.Step — the steps of a run.

  A result goes to the frame that waits for it. A fault takes frames away until the stack is
  empty, and so does a result that a frame has no use for; only exit frames act on every result,
  so that scopes are left, calls are counted and files are closed however a part of the run ends.
-/

import TinyScript.Machine.Execute

namespace TinyScript

open TinyScript.Text

namespace Machine

/-- Goes on with a value. -/
def resumeValue (m : Machine) (v : Value) : ValueFrame → Machine
  | .item done todo => m.evalItems (v :: done) todo
  | .field done name todo => m.evalFields (done.put name v) todo
  | .left pos op right => m.afterLeft pos op right v
  | .right pos op left => m.binary pos op left v
  | .truth _ => m.give (.boolean v.isTruthy)
  | .operator op _ _ => m.give (if op = .notEqual then .boolean (!v.isTruthy) else v)
  | .operand pos op => m.unary pos op v
  | .hold _ => m.give v
  | .storeName pos name =>
    m.changeAt pos (m.store.assign m.scope name v) (·.give v)
  | .memberOwner pos sign name value =>
    m.evalAssigned (.storeMember pos v name) pos sign (fun _ => m.store.member v name) value
  | .storeMember pos owner name =>
    m.change (m.store.setMember owner name v pos) (·.give v)
  | .elementOwner pos sign key value => m.evalFor (.elementKey pos sign v value) key
  | .elementKey pos sign owner value =>
    m.evalAssigned (.storeElement pos owner v) pos sign (fun _ => m.store.element owner v) value
  | .storeElement pos owner key =>
    m.change (m.store.setElement owner key v pos) (·.give v)
  | .callee pos args => m.evalArguments pos v [] args
  | .argument pos callee done todo => m.evalArguments pos callee (v :: done) todo
  | .member pos name => m.proceedAt pos (m.store.member v name) m.giveIn
  | .indexed pos key => m.evalFor (.key pos v) key
  | .key pos owner => m.proceedAt pos (m.store.element owner v) m.giveIn
  | .importPath pos =>
    match v with
    | .string path => m.importFrom pos path
    | _ => m.fail pos (.typeMismatch "string" (m.store.shownType v))
  | .statement => m.flow (.normal v)
  | .declare pos q name typing =>
    m.proceed (m.store.checkIf m.scope v typing pos) fun _ => m.bindDeclared pos q name v
  | .destructure pos q targets =>
    m.proceed (m.store.parts v targets pos) fun items => m.bindTargets q v (targets.zip items)
  | .branch body otherwise => m.branch v body otherwise
  | .loopTest condition body => m.loopTest v condition body
  | .loopItems pos itemsPos item body =>
    m.proceedAt itemsPos (m.store.elements v) fun items => m.loopOver pos item body v items
  | .returned => m.flow (.returned v)
  | .bindName pos name => m.bindStatement pos name v
  | .construct object _ => m.give object
  | .strResult className pos =>
    match v with
    | .string s => m.text s
    | _ => m.fail pos (.strMustReturnString className)
  | .exports name body => m.giveNew (·.makeSpace m.scope name body)

/-- Goes on after a statement. -/
def resumeFlow (m : Machine) (f : Flow) : FlowFrame → Machine
  | .sequence _ todo =>
    match f with
    | .normal v => m.sequence v todo
    | f => m.flow f
  | .program last todo =>
    match f with
    | .normal v => m.program v todo
    | _ => m.program last todo
  | .loopBody condition body =>
    match f with
    | .broke => m.flow (.normal .nil)
    | .returned v => m.flow (.returned v)
    | _ => m.evalFor (.loopTest condition body) condition
  | .itemBody pos item body iterable todo =>
    match f with
    | .broke => m.flow (.normal .nil)
    | .returned v => m.flow (.returned v)
    | _ => m.loopOver pos item body iterable todo
  | .functionBody =>
    match f with
    | .returned v => m.give v
    | _ => m.give .nil
  | .namespaceBody name body => m.giveNew (·.makeSpace m.scope name body)

/-- Goes on with a text. -/
def resumeText (m : Machine) (t : String) : TextFrame → Machine
  | .parts opening closing held done label todo path pos =>
    m.renderParts opening closing held ((label ++ t) :: done) path pos todo
  | .texts use held done todo pos => m.renderTexts use held (t :: done) pos todo

/-- Acts on the end of a part of the run and passes it on. -/
def leave (m : Machine) (r : Result) : ExitFrame → Machine
  | .scope previous =>
    if m.reclaims then { m with store := m.store.release m.held m.scope, scope := previous }
    else { m with store := m.store.retire m.scope, scope := previous }
  | .call f _ pos =>
    let m := { m with depth := m.depth - 1 }
    match r with
    | .value v =>
      m.proceed (m.store.checkIf (m.store.leasedScope f.closure) v f.decl.returns pos) fun _ =>
        m.give v
    | _ => m
  | .module path =>
    let m := { m with loading := m.loading.dropLast }
    match r with
    | .value (.namespaceRef r) => { m with modules := m.modules.put path r }
    | _ => m
  | .run located =>
    let m := if located then { m with loading := m.loading.dropLast } else m
    if m.reclaims then { m with store := m.store.collect m.held } else m
  | .session previous => { m with scope := previous }

/-- A result meets the frame on top of the stack, which is taken away. -/
def resume (m : Machine) (r : Result) (f : Frame) : Machine :=
  match f, r with
  | .exit f, r => m.leave r f
  | .value f, .value v => m.resumeValue v f
  | .flow f, .flow g => m.resumeFlow g f
  | .text f, .text t => m.resumeText t f
  | _, _ => m

/-- Does one step. -/
def step (m : Machine) : Step :=
  match m.control with
  | .eval e => .next (m.evaluate e)
  | .exec s => .next (m.execute s)
  | .render v nested path pos => .next (m.render v nested path pos)
  | .print line => .ask (.print line) fun _ => m.give .nil
  | .prompt text => .ask (.prompt text) fun answer => m.give ((answer.map .string).getD .nil)
  | .enter file program =>
    .ask (.locate file) fun found => m.enterProgram found.toOption program
  | .locate path pos =>
    .ask (.locate path) fun found =>
      match found with
      | .ok path => m.importLocated pos path
      | .error reason => m.fail pos (.cannotImport path reason)
  | .load path pos =>
    .ask (.read path) fun source =>
      match source with
      | .ok source => m.enterModule path source
      | .error reason => m.fail pos (.cannotImport path reason)
  | .give r =>
    match m.stack with
    | [] => .done m r
    | f :: stack => .next ({ m with stack := stack }.resume r f)

end Machine

end TinyScript

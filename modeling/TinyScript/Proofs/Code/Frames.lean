/-
  TinyScript.Proofs.Code.Frames — what frames wait for, where they stand and what they weigh.

  A stack waits for one kind of result, and what is begun for it gives that kind in turn. The frames
  also tell where in the program the code above them stands, so that all code that is left to do can
  be held against the rules of its place (`Frame.Fits`, `Control.Fits`).

  All that is left to do has a weight. Code weighs by its size; loops over values and the parts of
  containers are counted too. What is begun in a step is lighter than what it was begun by, unless a
  function or a file is entered (`Job.Over`).
-/

import Mathlib.Data.Finset.Card
import TinyScript.Machine.Step
import TinyScript.Proofs.Code.Placement

namespace TinyScript

open TinyScript.Derivation TinyScript.Text

/-! ## What is awaited -/

inductive Awaited where
  | value | flow | text
  deriving DecidableEq, Repr

def ValueFrame.gives : ValueFrame → Awaited
  | .statement | .declare .. | .destructure .. | .branch .. | .loopTest .. | .loopItems ..
  | .returned | .bindName .. => .flow
  | .strResult .. => .text
  | _ => .value

def FlowFrame.gives : FlowFrame → Awaited
  | .program .. | .functionBody | .namespaceBody .. => .value
  | _ => .flow

def TextFrame.gives : TextFrame → Awaited
  | .parts .. => .text
  | .texts .. => .value

/-- What a stack waits for. At its end that is what the whole run is to give. -/
def awaited (goal : Awaited) : List Frame → Awaited
  | [] => goal
  | .value _ :: _ => .value
  | .flow _ :: _ => .flow
  | .text _ :: _ => .text
  | .exit (.scope _) :: stack => awaited goal stack
  | .exit _ :: _ => .value

/-! ## Where code stands -/

/-- Where the statements stand whose end a stack waits for. -/
def placeOf : List Frame → Place
  | .flow (.sequence ..) :: stack => placeOf stack
  | .flow (.program ..) :: _ => .file
  | .flow (.loopBody ..) :: stack | .flow (.itemBody ..) :: stack => (placeOf stack).loop
  | .flow .functionBody :: _ => .function
  | .flow (.namespaceBody ..) :: _ => .space
  | .exit (.scope _) :: stack => (placeOf stack).branch
  | _ => .space

def Flow.mayLeave (p : Place) : Flow → Bool
  | .normal _ => true
  | .returned _ => p.returns
  | .broke | .continued => p.loops

def ValueFrame.keeps (k : Rules) (p : Place) : ValueFrame → Bool
  | .item _ todo | .callee _ todo | .argument _ _ _ todo => k.exprs todo
  | .field _ _ todo => k.fields todo
  | .left _ _ e | .memberOwner _ _ _ e | .elementKey _ _ _ e | .indexed _ e => k.expr e
  | .elementOwner _ _ index e => k.expr index && k.expr e
  | .branch body otherwise => k.stmts p.branch body && otherwise.all (k.stmt p.branch)
  | .loopTest e body => !k.bounded && k.expr e && k.stmts p.loop body
  | .loopItems _ _ _ body => k.stmts p.loop body
  | .returned => !k.places || p.returns
  | .strResult .. => !k.bounded
  | _ => true

def FlowFrame.keeps (k : Rules) (p : Place) : FlowFrame → Bool
  | .sequence _ todo => k.stmts p todo
  | .program _ todo => k.program todo
  | .loopBody e body => !k.bounded && k.expr e && k.stmts p.loop body
  | .itemBody _ _ body _ _ => k.stmts p.loop body
  | .functionBody | .namespaceBody .. => true

/-- A frame fits a stack that waits for `want` at the place `p`. -/
def Frame.Fits (k : Rules) (want : Awaited) (p : Place) : Frame → Prop
  | .value f => f.gives = want ∧ f.keeps k p = true
  | .flow f => f.gives = want ∧ f.keeps k p = true
  | .text f => f.gives = want
  | .exit (.scope _) => want ≠ .text
  | .exit _ => want = .value

def Result.Fits (k : Rules) (want : Awaited) (p : Place) : Result → Prop
  | .value _ => want = .value
  | .flow f => want = .flow ∧ (k.places = true → f.mayLeave p = true)
  | .text _ => want = .text
  | .fault _ => True

def Control.Fits (k : Rules) (want : Awaited) (p : Place) : Control → Prop
  | .eval e => want = .value ∧ k.expr e = true
  | .exec s => want = .flow ∧ k.stmt p s = true
  | .render .. => want = .text
  | .enter _ program => want = .value ∧ k.program program = true
  | .print _ | .prompt _ | .locate .. | .load .. => want = .value
  | .give r => r.Fits k want p

def StackFits (k : Rules) (goal : Awaited) : List Frame → Prop
  | [] => True
  | f :: stack => f.Fits k (awaited goal stack) (placeOf stack) ∧ StackFits k goal stack

structure Machine.Fits (k : Rules) (goal : Awaited) (m : Machine) : Prop where
  stack : StackFits k goal m.stack
  control : m.control.Fits k (awaited goal m.stack) (placeOf m.stack)

/-! ## Weights -/

/-- What is left to do, by its code first, then by the cells that may still be nested in it, and
    then by how often it is still done. -/
structure Weight where
  code : Nat
  nested : Nat
  count : Nat
  deriving DecidableEq, Repr

instance : LT Weight where
  lt x y := x.code < y.code ∨ x.code = y.code ∧
    (x.nested < y.nested ∨ x.nested = y.nested ∧ x.count < y.count)

theorem Weight.lt_of_code {x y : Weight} (h : x.code < y.code) : x < y := .inl h

def unvisited (n : Nat) (path : List Ref) : Nat := ((Finset.range n).filter (· ∉ path)).card

theorem unvisited_cons {n : Nat} {r : Ref} {path : List Ref} (hr : r < n) (hpath : r ∉ path) :
    unvisited n (r :: path) < unvisited n path := by
  apply Finset.card_lt_card
  refine ⟨Finset.monotone_filter_right _ fun i _ hi hp => hi (.tail _ hp), fun hsub => ?_⟩
  have hmem := hsub (Finset.mem_filter.2 ⟨Finset.mem_range.2 hr, hpath⟩)
  simp at hmem

noncomputable def ValueFrame.weight : ValueFrame → Nat
  | .item _ todo | .callee _ todo | .argument _ _ _ todo => 8 * sizeOf todo + 4
  | .field _ _ todo => 8 * sizeOf todo + 4
  | .left _ _ e | .memberOwner _ _ _ e | .elementKey _ _ _ e | .indexed _ e => 8 * sizeOf e + 4
  | .elementOwner _ _ index e => 8 * (sizeOf index + sizeOf e) + 4
  | .branch body otherwise => 8 * (sizeOf body + sizeOf otherwise) + 4
  | .loopItems _ _ _ body => 8 * sizeOf body + 6
  | .right .. | .operand .. | .importPath _ => 5
  | _ => 4

noncomputable def FlowFrame.weight : FlowFrame → Weight
  | .sequence _ todo | .program _ todo => ⟨8 * sizeOf todo + 4, 0, 0⟩
  | .itemBody _ _ body _ todo => ⟨8 * sizeOf body + 5, 0, todo.length⟩
  | _ => ⟨4, 0, 0⟩

noncomputable def Frame.weight (n : Nat) : Frame → Weight
  | .value f => ⟨f.weight, 0, 0⟩
  | .flow f => f.weight
  | .text (.texts _ _ _ todo _) => ⟨3, 0, todo.length⟩
  | .text (.parts _ _ _ _ _ todo path _) => ⟨2, 2 * unvisited n path + 2, todo.length⟩
  | .exit _ => ⟨0, 0, 0⟩

noncomputable def Control.weight? (n : Nat) : Control → Option Weight
  | .eval e => some ⟨8 * sizeOf e, 0, 0⟩
  | .exec s => some ⟨8 * sizeOf s, 0, 0⟩
  | .render _ _ path _ => some ⟨2, 2 * unvisited n path + 1, 0⟩
  | .enter _ program => some ⟨8 * sizeOf program + 8, 0, 0⟩
  | .locate .. => some ⟨2, 0, 0⟩
  | .print _ | .prompt _ | .load .. => some ⟨1, 0, 0⟩
  | .give _ => none

def Control.isRender : Control → Bool
  | .render .. => true
  | _ => false

def Frame.enters : Frame → Bool
  | .exit (.call ..) | .exit (.module _) => true
  | _ => false

/-! ## Jobs -/

/-- What is done in a step: the rules that all code keeps, what the whole run is to give, a bound of
    the cells, the weight of what is done, and the frames it is done for. -/
structure Job where
  rules : Rules
  goal : Awaited
  cells : Nat
  weight : Weight
  below : List Frame

namespace Job

/-- Lighter than what is done, as far as weights count. They do not where a function or a file was
    entered. -/
def Light (j : Job) (entered : Bool) (x : Weight) : Prop :=
  j.rules.bounded = true → entered = false → x < j.weight

def Room (j : Job) (entered : Bool) (n : Nat) : Prop :=
  j.rules.bounded = true → entered = false → n ≤ j.weight.code

/-- Frames on top of those that the job is done for, each of which fits the ones below it and is
    light. -/
inductive Over (j : Job) : (entered : Bool) → List Frame → Prop
  | base : Over j false j.below
  | push {entered : Bool} {f : Frame} {stack : List Frame} : Over j entered stack →
    f.Fits j.rules (awaited j.goal stack) (placeOf stack) → j.Light entered (f.weight j.cells) →
    f.enters = false → Over j entered (f :: stack)
  | enter {entered : Bool} {f : Frame} {stack : List Frame} : Over j entered stack →
    f.Fits j.rules (awaited j.goal stack) (placeOf stack) → j.Light entered (f.weight j.cells) →
    f.enters = true → Over j true (f :: stack)

def Begun (j : Job) (m : Machine) : Prop :=
  ∃ entered, j.Over entered m.stack ∧
    m.control.Fits j.rules (awaited j.goal m.stack) (placeOf m.stack) ∧
    ∀ x ∈ m.control.weight? j.cells, j.Light entered x

/-- The frames above those that the job is done for wait for `want`. -/
structure At (j : Job) (entered : Bool) (want : Awaited) (stack : List Frame) : Prop where
  frames : j.Over entered stack
  awaits : awaited j.goal stack = want

variable {j : Job} {d : Bool} {n : Nat}

theorem light_entered (x : Weight) : j.Light true x := fun _ h => nomatch h

theorem room_entered (n : Nat) : j.Room true n := fun _ h => nomatch h

theorem Room.mono {n' : Nat} (h : j.Room d n) (hn : n' ≤ n) : j.Room d n' :=
  fun hb hd => Nat.le_trans hn (h hb hd)

theorem Room.light {x : Weight} (h : j.Room d n) (hx : x.code < n) : j.Light d x :=
  fun hb hd => Weight.lt_of_code (Nat.lt_of_lt_of_le hx (h hb hd))

/-- What fits frames that fit is a stack that fits. -/
theorem Over.stackFits {stack : List Frame} (h : j.Over d stack)
    (hbelow : StackFits j.rules j.goal j.below) : StackFits j.rules j.goal stack := by
  induction h with
  | base => exact hbelow
  | push _ hf _ _ ih => exact ⟨hf, ih⟩
  | enter _ hf _ _ ih => exact ⟨hf, ih⟩

theorem Begun.fits {m : Machine} (h : j.Begun m) (hbelow : StackFits j.rules j.goal j.below) :
    m.Fits j.rules j.goal := by
  obtain ⟨_, hover, hcontrol, _⟩ := h
  exact ⟨hover.stackFits hbelow, hcontrol⟩

end Job

end TinyScript

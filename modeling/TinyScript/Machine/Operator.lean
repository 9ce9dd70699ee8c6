/-
  TinyScript.Machine.Operator — operators on values.

  A class overloads an operator by a method of the operator's name; the left operand decides.
  Otherwise arithmetic is on numbers, comparison on numbers or strings, and a sum with a string
  on either side joins texts.
-/

import TinyScript.Machine.Render

namespace TinyScript

open TinyScript.Text

/-- The method by which a class overloads an operator. -/
def BinaryOp.method? : BinaryOp → Option String
  | .add => some "add"
  | .subtract => some "subtract"
  | .multiply => some "multiply"
  | .divide => some "divide"
  | .modulo => some "modulo"
  | .power => some "pow"
  | .equal | .notEqual => some "eq"
  | .less => some "lt"
  | .lessEqual => some "lte"
  | .greater => some "gt"
  | .greaterEqual => some "gte"
  | .and | .or | .coalesce => none

/-- The operator on two numbers, where it gives a number. -/
def BinaryOp.onNumbers? (op : BinaryOp) (a b : Float) : Option Float :=
  match op with
  | .add => some (a + b)
  | .subtract => some (a - b)
  | .multiply => some (a * b)
  | .divide => some (a / b)
  | .modulo => some (Number.remainder a b)
  | .power => some (Float.pow a b)
  | _ => none

/-- Comparison of numbers. What is not a number compares with nothing. -/
def BinaryOp.compareNumbers? (op : BinaryOp) (a b : Float) : Option Bool :=
  match op with
  | .less => some (a < b)
  | .lessEqual => some (a ≤ b)
  | .greater => some (b < a)
  | .greaterEqual => some (b ≤ a)
  | _ => none

/-- Comparison of strings by the code points of their characters. -/
def BinaryOp.compareTexts? (op : BinaryOp) (a b : String) : Option Bool :=
  match op with
  | .less => some (a < b)
  | .lessEqual => some (!decide (b < a))
  | .greater => some (b < a)
  | .greaterEqual => some (!decide (a < b))
  | _ => none

/-- The operator on values as they are, where it applies and needs no new cell. -/
def BinaryOp.apply? (op : BinaryOp) (l r : Value) : Option Value :=
  match op with
  | .equal => some (.boolean (l.same r))
  | .notEqual => some (.boolean (!l.same r))
  | .and => some (.boolean (l.isTruthy && r.isTruthy))
  | .or => some (.boolean (l.isTruthy || r.isTruthy))
  | .coalesce => some (if l.isNil then r else l)
  | _ =>
    match l, r with
    | .number a, .number b =>
      ((op.onNumbers? a b).map .number).orElse fun _ => (op.compareNumbers? a b).map .boolean
    | .string a, .string b => (op.compareTexts? a b).map .boolean
    | _, _ => none

namespace Machine

/-- Applies an operator that no class overloads. -/
def applyBinary (m : Machine) (pos : Position) (op : BinaryOp) (l r : Value) : Machine :=
  match op.apply? l r with
  | some v => m.give v
  | none =>
    let unsupported :=
      m.fail pos (.unsupportedOperands op.text (m.store.shownType l) (m.store.shownType r))
    match op, l, r with
    | .add, .string _, _ => m.renderTexts (.join "") [l, r] [] pos [l, r]
    | .add, _, .string _ => m.renderTexts (.join "") [l, r] [] pos [l, r]
    | .add, .array a, .array b => m.giveNew fun s => s.newArray (s.items a ++ s.items b)
    | _, _, _ => unsupported

def binary (m : Machine) (pos : Position) (op : BinaryOp) (l r : Value) : Machine :=
  match op.method?.bind (m.store.boundMethod? l) with
  | some f => (m.push (.value (.operator op l r))).callFunction f [] [r] pos
  | none => m.applyBinary pos op l r

def unary (m : Machine) (pos : Position) (op : UnaryOp) (v : Value) : Machine :=
  let unsupported := m.fail pos (.unsupportedOperand op.text (m.store.shownType v))
  match op, v with
  | .not, _ => m.give (.boolean (!v.isTruthy))
  | .negate, .number x => m.give (.number (-x))
  | .plus, .number x => m.give (.number x)
  | .negate, .object _ =>
    match m.store.boundMethod? v "negate" with
    | some f => (m.push (.value (.hold [v]))).callFunction f [] [] pos
    | none => unsupported
  | _, _ => unsupported

end Machine

end TinyScript

/-
  TinyScript.Proofs.Control.Reordered — runs while tables are gone through in any order.

  A step goes through tables where it writes an object, starts a loop, takes an object apart, leaves
  a scope or ends a run. `stepIn` does it in the order of a listing. No step tells one order from
  another (`stepIn_eq`), so no run does, not even if the order changes on the way (`driveIn_eq`).
-/

import TinyScript.Interpreter
import TinyScript.Proofs.Store.Reordered

namespace TinyScript

open TinyScript.Text

namespace Machine

variable (o : Listing) (m : Machine)

def renderObjectIn (r : Ref) (path : List Ref) (pos : Position) : Machine :=
  match m.store.classOf? r with
  | some (_, c) =>
    if c.isUser then m.text ("<instance of " ++ c.name ++ ">")
    else if path.contains r then m.text "\x7b...\x7d"
    else
      let fields := m.store.labelledFieldsIn o r
      m.renderParts "\x7b" "\x7d" (fields.map (·.2)) [] (r :: path) pos fields
  | none => m.text ""

def renderIn (v : Value) (nested : Bool) (path : List Ref) (pos : Position) : Machine :=
  match v with
  | .object r =>
    match m.store.boundMethod? v "str", m.store.classOf? r with
    | some f, some (_, c) =>
      (m.push (.value (.strResult c.name pos))).callFunction f [] [] pos
    | _, _ => m.renderObjectIn o r path pos
  | v => m.render v nested path pos

def resumeValueIn (v : Value) : ValueFrame → Machine
  | .destructure pos q targets =>
    m.proceed (m.store.partsIn o v targets pos) fun items => m.bindTargets q v (targets.zip items)
  | .loopItems pos itemsPos item body =>
    m.proceedAt itemsPos (m.store.elementsIn o v) fun items => m.loopOver pos item body v items
  | f => m.resumeValue v f

def leaveIn (r : Result) : ExitFrame → Machine
  | .scope previous =>
    if m.reclaims then { m with store := m.store.releaseIn o m.held m.scope, scope := previous }
    else { m with store := m.store.retire m.scope, scope := previous }
  | .run located =>
    let m := if located then { m with loading := m.loading.dropLast } else m
    if m.reclaims then { m with store := m.store.collectIn o m.held } else m
  | f => m.leave r f

def resumeIn (r : Result) (f : Frame) : Machine :=
  match f, r with
  | .exit f, r => m.leaveIn o r f
  | .value f, .value v => m.resumeValueIn o v f
  | f, r => m.resume r f

def stepIn : Step :=
  match m.control with
  | .render v nested path pos => .next (m.renderIn o v nested path pos)
  | .give r =>
    match m.stack with
    | [] => .done m r
    | f :: stack => .next ({ m with stack := stack }.resumeIn o r f)
  | _ => m.step

theorem renderObjectIn_eq (r : Ref) (path : List Ref) (pos : Position) :
    m.renderObjectIn o r path pos = m.renderObject r path pos := by
  cases h : m.store.classOf? r with
  | none => simp only [renderObjectIn, renderObject, h]
  | some c => simp only [renderObjectIn, renderObject, h, Store.labelledFieldsIn_eq]

theorem renderIn_eq (v : Value) (nested : Bool) (path : List Ref) (pos : Position) :
    m.renderIn o v nested path pos = m.render v nested path pos := by
  cases v with
  | object r =>
    cases hf : m.store.boundMethod? (.object r) "str" with
    | none => simp only [renderIn, render, hf, renderObjectIn_eq]
    | some f =>
      cases hc : m.store.classOf? r with
      | none => simp only [renderIn, render, hf, hc, renderObjectIn_eq]
      | some c => simp only [renderIn, render, hf, hc]
  | _ => rfl

theorem resumeValueIn_eq (v : Value) (f : ValueFrame) :
    m.resumeValueIn o v f = m.resumeValue v f := by
  cases f with
  | destructure => simp only [resumeValueIn, resumeValue, Store.partsIn_eq]
  | loopItems => simp only [resumeValueIn, resumeValue, Store.elementsIn_eq]
  | _ => rfl

theorem leaveIn_eq (r : Result) (f : ExitFrame) : m.leaveIn o r f = m.leave r f := by
  cases f with
  | scope => simp only [leaveIn, leave, Store.releaseIn_eq]
  | run => simp only [leaveIn, leave, Store.collectIn_eq]
  | _ => rfl

theorem resumeIn_eq (r : Result) (f : Frame) : m.resumeIn o r f = m.resume r f := by
  cases f with
  | exit f => exact m.leaveIn_eq o r f
  | value f =>
    cases r with
    | value v => exact m.resumeValueIn_eq o v f
    | _ => rfl
  | _ => rfl

/-- A step does the same in every order. -/
theorem stepIn_eq : m.stepIn o = m.step := by
  unfold stepIn
  cases h : m.control with
  | render v nested path pos => simp only [renderIn_eq, step, h]
  | give r =>
    cases hs : m.stack with
    | nil => simp only [step, h, hs]
    | cons f stack => simp only [resumeIn_eq, step, h, hs]
  | _ => rfl

end Machine

/-- As `drive`, in an order that may change from step to step. -/
def driveIn {μ : Type → Type} [Monad μ] (orders : Nat → Listing)
    (answer : (r : Request) → μ r.Reply) :
    (fuel : Nat) → Machine → μ (Option (Interpreter × Result))
  | 0, _ => pure none
  | n + 1, m =>
    match m.stepIn (orders n) with
    | .next m => driveIn orders answer n m
    | .ask r resume => answer r >>= fun reply => driveIn orders answer n (resume reply)
    | .done m result => pure (some (m.toInterpreter, result))

theorem driveIn_eq {μ : Type → Type} [Monad μ] (orders : Nat → Listing)
    (answer : (r : Request) → μ r.Reply) (fuel : Nat) (m : Machine) :
    driveIn orders answer fuel m = drive answer fuel m := by
  induction fuel generalizing m with
  | zero => rfl
  | succ n ih =>
    rw [driveIn, drive, m.stepIn_eq (orders n)]
    cases m.step with
    | next m => exact ih m
    | ask r resume => exact congrArg _ (funext fun reply => ih (resume reply))
    | done m result => rfl

/-! ## No order is observed -/

/-- Take any two orders in which the bindings of scopes, the fields of objects and the methods of
    classes are gone through. A collection comes to the same store in both: it frees the same scopes
    in the same order, retains the same ones up to the same limit and empties the same cells, and
    which of these is emptied first makes no difference either. A loop and a destructuring
    declaration take the same from every value. Keys are sorted wherever they show. Every run from
    every state, such as the one in which a host has a value written, asks the same and ends the
    same, even if the order changes on the way. -/
theorem order_of_tables_is_unobservable (o o' : Listing) :
    (∀ (s : Store) (held : List Ref),
      s.collectIn o held = s.collectIn o' held ∧ s.collectIn o held = s.collect held) ∧
    (∀ (s : Store) (v : Store.Verdict) (rs : List Ref), rs.Perm v.unreached →
      Store.SameScopes (s.carryOut v) (s.carryOut { v with unreached := rs }) ∧
        ∀ r, (s.carryOut { v with unreached := rs }).cell? r = (s.carryOut v).cell? r) ∧
    (∀ (s : Store) (v : Value),
      s.elementsIn o v = s.elementsIn o' v ∧ s.elementsIn o v = s.elements v) ∧
    (∀ (s : Store) (v : Value) (targets : List Param) (pos : Position),
      s.partsIn o v targets pos = s.partsIn o' v targets pos ∧
        s.partsIn o v targets pos = s.parts v targets pos) ∧
    (∀ (s : Store) (r : Ref), (s.fields r).names.Pairwise (compare · · = .lt) ∧
      s.elementsIn o (.object r) = .ok ((s.fields r).names.map .string) ∧
        (s.labelledFieldsIn o r).map Prod.fst = (s.fields r).names.map (· ++ ": ")) ∧
    ∀ (μ : Type → Type) [Monad μ] (answer : (r : Request) → μ r.Reply) (fuel : Nat) (m : Machine)
      (orders orders' : Nat → Listing),
      driveIn orders answer fuel m = driveIn orders' answer fuel m ∧
        driveIn orders answer fuel m = drive answer fuel m := by
  refine ⟨fun s held => ?_, fun s v rs h => s.sameCells_carryOut v h, fun s v => ?_,
    fun s v targets pos => ?_, fun s r => ⟨(s.fields r).names_ordered, ?_, ?_⟩,
    fun μ _ answer fuel m orders orders' => ?_⟩
  · exact ⟨(s.collectIn_eq o held).trans (s.collectIn_eq o' held).symm, s.collectIn_eq o held⟩
  · exact ⟨(s.elementsIn_eq o v).trans (s.elementsIn_eq o' v).symm, s.elementsIn_eq o v⟩
  · exact ⟨(s.partsIn_eq o v targets pos).trans (s.partsIn_eq o' v targets pos).symm,
      s.partsIn_eq o v targets pos⟩
  · rw [s.elementsIn_eq]
    rfl
  · rw [s.labelledFieldsIn_eq, s.labels_eq]
  · exact ⟨(driveIn_eq orders answer fuel m).trans (driveIn_eq orders' answer fuel m).symm,
      driveIn_eq orders answer fuel m⟩

def storeOfPair : Ref × Store :=
  Store.empty.alloc (.object 0 (.ofList [("a", .nil), ("b", .boolean true)]))

/-- The fields come backwards, but a loop goes through the keys in their order, and the two cells of
    a verdict may be emptied in either order. -/
theorem backwards_is_unobservable :
    (Listing.backwards.fields.entries storeOfPair.1 (storeOfPair.2.fields storeOfPair.1)).map
        Prod.fst = ["b", "a"] ∧
      storeOfPair.2.elementsIn .backwards (.object storeOfPair.1) = .ok [.string "a", .string "b"] ∧
      ∀ r, (storeOfPair.2.carryOut ⟨[], [], [1, 0]⟩).cell? r =
        (storeOfPair.2.carryOut ⟨[], [], [0, 1]⟩).cell? r := by
  obtain ⟨_, hempty, hloop, _⟩ := order_of_tables_is_unobservable .backwards .backwards
  refine ⟨by decide +kernel, ?_, (hempty storeOfPair.2 ⟨[], [], [0, 1]⟩ [1, 0] (.swap 0 1 [])).2⟩
  rw [(hloop storeOfPair.2 (.object storeOfPair.1)).2]
  rfl

end TinyScript

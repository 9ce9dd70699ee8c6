/-
  TinyScript.Proofs.Control.Leading — from one state to the next.

  One transition of an interpreter: the host lets go of something, runs a program, a session or a
  text, a machine takes a step with or without an answer, or a run is done (`State.Leads`). What may
  come from outside is said by a world: the programs that are run and the answers. The states that
  an interpreter comes to are those that a new one leads to (`reached_iff`).
-/

import Mathlib.Logic.Relation
import TinyScript.Proofs.Control.Restored

namespace TinyScript

open Relation

structure World where
  runs : String → String → Prop
  answers : (request : Request) → request.Reply → Prop

def World.any : World := ⟨fun _ _ => True, fun _ _ => True⟩

inductive State.Leads (w : World) : State → State → Prop
  | forget {kept rest : List Ref} {i : Interpreter} : rest ⊆ kept →
    Leads w (.resting kept i) (.resting rest i)
  | run {kept : List Ref} {i : Interpreter} {source file : String} {m : Machine} :
    w.runs source file → i.start kept source file = .ok m →
    Leads w (.resting kept i) (.running m)
  | session {kept : List Ref} {i : Interpreter} {source file : String} {m : Machine} :
    w.runs source file → i.startSession kept source file = .ok m →
    Leads w (.resting kept i) (.running m)
  | render {kept rest : List Ref} {i : Interpreter} {v : Value} : v.refs ⊆ kept → rest ⊆ kept →
    Leads w (.resting kept i) (.running (i.startRender rest v))
  | next {m n : Machine} : m.step = .next n → Leads w (.running m) (.running n)
  | ask {m : Machine} {request : Request} {resume : request.Reply → Machine}
    {reply : request.Reply} : w.answers request reply → m.step = .ask request resume →
    Leads w (.running m) (.running (resume reply))
  | done {m n : Machine} {r : Result} : m.step = .done n r →
    Leads w (.running m) (.resting (r.refs ++ m.kept) n.toInterpreter)

def Machine.Leads (w : World) (m n : Machine) : Prop := State.Leads w (.running m) (.running n)

variable {w : World} {libraries : List Library} {maxDepth : Nat} {x y : State} {i : Interpreter}
  {kept : List Ref} {m n : Machine}

theorem Reached.leads (h : Reached libraries maxDepth x) (hy : x.Leads w y) :
    Reached libraries maxDepth y := by
  cases hy with
  | forget hrest => exact h.forget hrest
  | run _ hm => exact h.run hm
  | session _ hm => exact h.session hm
  | render hv hrest => exact h.render hv hrest
  | next hstep => exact h.next hstep
  | ask _ hstep => exact h.ask _ hstep
  | done hstep => exact h.done hstep

theorem Reached.leadsTo (h : Reached libraries maxDepth x) (hy : ReflTransGen (State.Leads w) x y) :
    Reached libraries maxDepth y := by
  induction hy with
  | refl => exact h
  | tail _ hstep ih => exact ih.leads hstep

theorem Reached.runsTo (h : Reached libraries maxDepth (.running m))
    (hn : ReflTransGen (Machine.Leads w) m n) : Reached libraries maxDepth (.running n) :=
  h.leadsTo (hn.lift State.running fun _ _ hstep => hstep)

/-- The states that an interpreter comes to are those that a new one leads to. -/
theorem reached_iff : Reached libraries maxDepth x ↔
    ∃ i, Interpreter.create libraries maxDepth = .ok i ∧
      ReflTransGen (State.Leads .any) (.resting [] i) x := by
  constructor
  · intro h
    induction h with
    | create hi => exact ⟨_, hi, .refl⟩
    | forget _ hrest ih => exact ih.imp fun _ h => ⟨h.1, h.2.tail (.forget hrest)⟩
    | run _ hm ih => exact ih.imp fun _ h => ⟨h.1, h.2.tail (.run trivial hm)⟩
    | session _ hm ih => exact ih.imp fun _ h => ⟨h.1, h.2.tail (.session trivial hm)⟩
    | render _ hv hrest ih => exact ih.imp fun _ h => ⟨h.1, h.2.tail (.render hv hrest)⟩
    | next _ hstep ih => exact ih.imp fun _ h => ⟨h.1, h.2.tail (.next hstep)⟩
    | ask _ _ hstep ih => exact ih.imp fun _ h => ⟨h.1, h.2.tail (.ask trivial hstep)⟩
    | done _ hstep ih => exact ih.imp fun _ h => ⟨h.1, h.2.tail (.done hstep)⟩
  · rintro ⟨i, hi, hx⟩
    exact (Reached.create hi).leadsTo hx

/-! ## Fixed answers -/

/-- A host that has these files, by their paths, and no lines. A path may be given without the
    slash at its start. -/
def Request.among (files : List (String × String)) : (request : Request) → request.Reply
  | .print _ => ()
  | .prompt _ => none
  | .locate path =>
    match [path, "/" ++ path].find? (files.lookup · |>.isSome) with
    | some found => .ok found
    | none => .error ""
  | .read path =>
    match files.lookup path with
    | some source => .ok source
    | none => .error ""

def Machine.answered (answer : (request : Request) → request.Reply) : Nat → Machine → Option Machine
  | 0, m => some m
  | n + 1, m =>
    match m.step with
    | .next m => answered answer n m
    | .ask request resume => answered answer n (resume (answer request))
    | .done .. => none

theorem Machine.leads_answered {answer : (request : Request) → request.Reply}
    (hw : ∀ request, w.answers request (answer request)) {k : Nat}
    (h : m.answered answer k = some n) : ReflTransGen (Machine.Leads w) m n := by
  induction k generalizing m with
  | zero =>
    cases h
    exact .refl
  | succ k ih =>
    unfold Machine.answered at h
    split at h
    next hstep => exact .head (.next hstep) (ih h)
    next hstep => exact .head (.ask (hw _) hstep) (ih h)
    next => cases h

theorem Reached.answered (h : Reached libraries maxDepth (.running m))
    {answer : (request : Request) → request.Reply} {k : Nat} (hn : m.answered answer k = some n) :
    Reached libraries maxDepth (.running n) :=
  h.runsTo (Machine.leads_answered (w := .any) (fun _ => trivial) hn)

theorem exists_ok_of_any {ε α : Type} {e : Except ε α} {p : α → Bool}
    (h : e.toOption.any p = true) : ∃ a, e = .ok a ∧ p a = true := by
  cases e with
  | ok a => exact ⟨a, rfl, h⟩
  | error => cases h

def Control.given? : Control → Option Result
  | .give r => some r
  | _ => none

def Result.value? : Result → Option Value
  | .value v => some v
  | _ => none

def Result.fault? : Result → Option Fault
  | .fault f => some f
  | _ => none

theorem Control.given?_eq_some {c : Control} {r : Result} : c.given? = some r ↔ c = .give r := by
  cases c <;> simp [Control.given?]

theorem Result.value?_eq_some {r : Result} {v : Value} : r.value? = some v ↔ r = .value v := by
  cases r <;> simp [Result.value?]

theorem Result.fault?_eq_some {r : Result} {f : Fault} : r.fault? = some f ↔ r = .fault f := by
  cases r <;> simp [Result.fault?]

/-! ## The start and the end of a run -/

namespace Interpreter

def inSession (i : Interpreter) (kept : List Ref) : Machine :=
  let start := sessionScope (i.ready kept (.give (.value .nil)))
  { start.2.push (.exit (.session start.2.scope)) with scope := start.1 }

def enterSession (i : Interpreter) (kept : List Ref) (p : Program) : Machine :=
  (i.inSession kept).program .nil p

section

variable (i : Interpreter) (kept : List Ref)

theorem inSession_stack : (i.inSession kept).stack = [.exit (.session Store.global)] := by
  unfold inSession sessionScope
  cases h : i.session <;> simp [ready, Machine.push, h]

theorem inSession_control : (i.inSession kept).control = .give (.value .nil) := by
  unfold inSession sessionScope
  cases h : i.session <;> simp [ready, Machine.push, h]

theorem inSession_loading : (i.inSession kept).loading = [] := by
  unfold inSession sessionScope
  cases h : i.session <;> simp [ready, Machine.push, h]

theorem inSession_modules : (i.inSession kept).modules = i.modules := by
  unfold inSession sessionScope
  cases h : i.session <;> simp [ready, Machine.push, h]

theorem inSession_objectClass : (i.inSession kept).objectClass = i.objectClass := by
  unfold inSession sessionScope
  cases h : i.session <;> simp [ready, Machine.push, h]

/-- The scope of the session is there, or it is pushed and leased. -/
theorem inSession_store : (i.inSession kept).store = i.store ∨
    (i.inSession kept).store = ((i.store.push Store.global .module).2.capture
      (i.store.push Store.global .module).1).2 := by
  unfold inSession sessionScope
  cases h : i.session
  · exact .inr (by simp [ready, Machine.push, h])
  · exact .inl (by simp [ready, Machine.push, h])

end

end Interpreter

theorem eq_of_startSession {source file : String} (hm : i.startSession kept source file = .ok m) :
    ∃ p, parseSource source file = .ok p ∧ m = i.enterSession kept p := by
  unfold Interpreter.startSession at hm
  cases hp : parseSource source file with
  | error f =>
    rw [hp] at hm
    cases hm
  | ok p =>
    rw [hp] at hm
    cases hm
    exact ⟨p, rfl, rfl⟩

/-- A result goes to the frame on top of the stack. -/
theorem Machine.step_give {r : Result} {f : Frame} {stack : List Frame} (hc : m.control = .give r)
    (hs : m.stack = f :: stack) : m.step = .next ({ m with stack := stack }.resume r f) := by
  simp only [Machine.step, hc, hs]

/-- A run is done when a result is left and nothing waits for it. -/
theorem Machine.done_iff {r : Result} :
    m.step = .done n r ↔ n = m ∧ m.control = .give r ∧ m.stack = [] := by
  unfold Machine.step
  constructor
  · intro h
    split at h
    all_goals try cases h
    next hc =>
      split at h
      next hstack =>
        cases h
        exact ⟨rfl, hc, hstack⟩
      next => cases h
  · rintro ⟨rfl, hc, hstack⟩
    rw [hc, hstack]

end TinyScript

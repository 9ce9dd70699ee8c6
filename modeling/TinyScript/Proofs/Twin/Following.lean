/-
  TinyScript.Proofs.Twin.Following — an interpreter that frees nothing follows.

  Whatever one interpreter does, one that frees nothing can do as well, with the same programs and
  answers, and they stay in step (`State.InStep.leads`). So what is kept by every transition of an
  interpreter that frees nothing holds in a state that is in step with the one that was reached
  (`Reached.exists_inStep`).
-/

import TinyScript.Proofs.Control.Leading

namespace TinyScript

variable {w : World} {libraries : List Library} {maxDepth : Nat} {kept : List Ref}
  {m m' n : Machine} {x x' y : State}

/-! ## What belongs together -/

theorem Store.SameResult.of_ok {ε α β : Type} {R : α → β → Prop} {a : Except ε α} {b : Except ε β}
    {v : α} (h : SameResult R a b) (ha : a = .ok v) : ∃ v', b = .ok v' ∧ R v v' := by
  subst ha
  cases h with
  | ok h => exact ⟨_, rfl, h⟩

namespace SameStep

variable {a b : Step}

theorem of_next (h : SameStep kept a b) (ha : a = .next n) :
    ∃ n', b = .next n' ∧ InStep kept n n' := by
  subst ha
  cases h with
  | next h => exact ⟨_, rfl, h⟩

theorem of_ask {request : Request} {resume : request.Reply → Machine} (h : SameStep kept a b)
    (ha : a = .ask request resume) :
    ∃ resume', b = .ask request resume' ∧ ∀ reply, InStep kept (resume reply) (resume' reply) := by
  subst ha
  cases h with
  | ask h => exact ⟨_, rfl, h⟩

theorem of_done {r : Result} (h : SameStep kept a b) (ha : a = .done n r) :
    ∃ n', b = .done n' r ∧ AtRest (r.refs ++ kept) n.toInterpreter n'.toInterpreter := by
  subst ha
  cases h with
  | done h hstack hc => exact ⟨_, rfl, h.atRest hstack hc⟩

end SameStep

/-! ## States -/

inductive State.InStep : State → State → Prop
  | resting {kept : List Ref} {i i' : Interpreter} : AtRest kept i i' →
    State.InStep (.resting kept i) (.resting kept i')
  | running {m m' : Machine} : TinyScript.InStep m.kept m m' →
    State.InStep (.running m) (.running m')

namespace State.InStep

theorem of_machines (h : TinyScript.InStep kept m m') :
    State.InStep (.running m) (.running m') := by
  obtain ⟨G, h⟩ := h
  refine .running ⟨G, ?_⟩
  rw [h.keeping]
  exact h

theorem machines (h : x.InStep x') : ∃ kept, TinyScript.InStep kept x.machine x'.machine := by
  cases h with
  | resting h => exact ⟨_, h⟩
  | running h => exact ⟨_, h⟩

theorem reclaims (h : x.InStep x') : x'.machine.reclaims = false := by
  obtain ⟨_, _, h⟩ := h.machines
  exact h.keeps

/-- What the first interpreter does, the other one can do. -/
theorem leads (h : x.InStep x') (hy : x.Leads w y) : ∃ y', x'.Leads w y' ∧ y.InStep y' := by
  cases hy with
  | forget hrest =>
    cases h with
    | resting h => exact ⟨_, .forget hrest, .resting (h.mono hrest)⟩
  | run hrun hm =>
    cases h with
    | resting h =>
      obtain ⟨m', hm', hstep⟩ := (h.start _ _).of_ok hm
      exact ⟨_, .run hrun hm', .of_machines hstep⟩
  | session hrun hm =>
    cases h with
    | resting h =>
      obtain ⟨m', hm', hstep⟩ := (h.startSession _ _).of_ok hm
      exact ⟨_, .session hrun hm', .of_machines hstep⟩
  | render hv hrest =>
    cases h with
    | resting h => exact ⟨_, .render hv hrest, .of_machines (h.startRender hv hrest)⟩
  | next hstep =>
    cases h with
    | running h =>
      obtain ⟨n', hstep', hn⟩ := h.step.of_next hstep
      exact ⟨_, .next hstep', .of_machines hn⟩
  | ask hreply hstep =>
    cases h with
    | running h =>
      obtain ⟨resume', hstep', hn⟩ := h.step.of_ask hstep
      exact ⟨_, .ask hreply hstep', .of_machines (hn _)⟩
  | @done m n r hstep =>
    cases h with
    | @running _ m' h =>
      obtain ⟨n', hstep', hn⟩ := h.step.of_done hstep
      obtain ⟨_, h⟩ := h
      have hleads : State.Leads w (.running m') (.resting (r.refs ++ m'.kept) n'.toInterpreter) :=
        .done hstep'
      rw [h.kept] at hleads
      exact ⟨_, hleads, .resting hn⟩

end State.InStep

/-- What a new interpreter has, and every transition that frees nothing keeps, holds in a state that
    is in step with the one that was reached. -/
theorem Reached.exists_inStep {P : State → Prop}
    (hnew : ∀ i, Interpreter.create libraries maxDepth = .ok i →
      P (.resting [] { i with reclaims := false }))
    (hleads : ∀ x y, x.machine.reclaims = false → x.Leads .any y → P x → P y)
    (h : Reached libraries maxDepth x) : ∃ x', x.InStep x' ∧ P x' := by
  obtain ⟨i, hi, hx⟩ := reached_iff.1 h
  induction hx with
  | refl => exact ⟨_, .resting (atRest_create hi), hnew i hi⟩
  | tail hy hstep ih =>
    obtain ⟨y', hin, hP⟩ := ih ((Reached.create hi).leadsTo hy)
    obtain ⟨z', hstep', hin'⟩ := hin.leads hstep
    exact ⟨z', hin', hleads y' z' hin.reclaims hstep' hP⟩

end TinyScript

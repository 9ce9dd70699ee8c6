/-
  TinyScript.Proofs.Control.Running — each step stays within the part of the run it belongs to.

  Every move changes the control, makes or changes something in the store, or puts a frame on the
  stack that leads back to where the machine stands. So a step stays within a part of the run that
  began before (`Within.next`, `Within.ask`), unless the part is at its end: nothing is on top of
  the stack it began with, and a result is given.
-/

import TinyScript.Proofs.Control.Moves
import TinyScript.Proofs.Control.Standing

namespace TinyScript

open Store TinyScript.Text

def Machine.Gives (m : Machine) (stack : List Frame) : Prop :=
  m.stack = stack ∧ ∃ r, m.control = .give r

variable {base m n : Machine}

namespace Within

/-- Moves stay within a part of the run. -/
theorem moves (h : Within base m) (hm : Moves m n) : Within base n := by
  induction hm with
  | refl => exact h
  | go _ _ ih => exact ih.controlled _
  | load _ _ _ _ ih => exact ih.controlled _
  | push _ hf ih => exact ih.push hf
  | enterScope parent kind _ _ ih => exact ih.enterScope parent kind
  | changed _ _ ih => exact ih.stored (sameOpen_apply _ _)
  | make _ _ ih => exact ih.stored (sameOpen_alloc _ _)
  | capture _ ih => exact ih.stored (sameOpen_capture _ _)
  | enterCall f held pos _ hlt ih => exact ih.enterCall f held pos hlt
  | loadModule _ _ ih => exact ih.loadModule _
  | loadProgram path _ _ ih => exact ih.loadProgram path

/-- A step stays within a part of the run that is not at its end. -/
theorem next (h : Within base m) (hgo : ¬ m.Gives base.stack) (hstep : m.step = .next n) :
    Within base n := by
  cases goes_of_next hstep with
  | start hm => exact h.moves hm
  | resume hc hstack hf hm => exact (h.pop (fun he => hgo ⟨he, _, hc⟩) hstack hf).moves hm
  | leave hc hstack => exact h.leave _ (fun he => hgo ⟨he, _, hc⟩) hstack

/-- Whatever the host answers, the machine stays within the part of the run. -/
theorem ask (h : Within base m) {request : Request} {resume : request.Reply → Machine}
    (reply : request.Reply) (hstep : m.step = .ask request resume) :
    Within base (resume reply) :=
  h.moves (moves_of_ask hstep reply)

end Within

end TinyScript

/-
  TinyScript.Proofs.Code.StrayFlow — no return, break or continue goes astray.

  In whatever is read, `return`, `break` and `continue` stand only where something waits for them
  (`program_placed`). When one is carried out, the frames on the stack are those of the code it
  stands in. So a break or continue comes to the innermost loop, through nothing but blocks, and a
  return to the body of its function; files and namespaces see only statements that end normally
  (`Flow.Meets`). And nothing but a fault passes over a frame that waits for something else.
-/

import TinyScript.Proofs.Code.Keeping

namespace TinyScript

open TinyScript.Derivation Relation

/-! ## Where results go -/

def Frame.takes : Frame → Result → Bool
  | .value _, .value _ | .flow _, .flow _ | .text _, .text _ => true
  | .exit (.scope _), .value _ | .exit (.scope _), .flow _ => true
  | .exit _, .value _ => true
  | _, _ => false

def Frame.isBlock : Frame → Bool
  | .flow (.sequence ..) | .exit (.scope _) => true
  | _ => false

def Frame.isLoop : Frame → Bool
  | .flow (.loopBody ..) | .flow (.itemBody ..) => true
  | _ => false

namespace Flow

def isNormal : Flow → Bool
  | normal _ => true
  | _ => false

def isRound : Flow → Bool
  | broke | continued => true
  | _ => false

/-- How the end of a statement meets the frames that wait. -/
structure Meets (f : Flow) (stack : List Frame) : Prop where
  /-- It is given to a frame that waits for it, or to the scope of the block it ends. -/
  taken : ∃ frame below, stack = frame :: below ∧ frame.takes (.flow f) = true
  /-- The statements of a file end normally. -/
  program : ∀ last todo below, stack = .flow (.program last todo) :: below → f.isNormal = true
  /-- The body of a namespace ends normally. -/
  space : ∀ name body below, stack = .flow (.namespaceBody name body) :: below → f.isNormal = true
  /-- The body of a function ends normally or with a return. -/
  function : ∀ below, stack = .flow .functionBody :: below → f.isRound = false
  /-- A break or continue is on its way to the innermost loop, out of blocks only. -/
  round : f.isRound = true → ∃ blocks loop below, stack = blocks ++ loop :: below ∧
    loop.isLoop = true ∧ ∀ g ∈ blocks, g.isBlock = true
  /-- A return is on its way to the body of its function, out of blocks and loops only. -/
  returned : ∀ v, f = .returned v → ∃ inner below, stack = inner ++ .flow .functionBody :: below ∧
    ∀ g ∈ inner, g.isBlock = true ∨ g.isLoop = true

end Flow

/-! ## Frames tell the place -/

section

variable {goal : Awaited} {stack : List Frame}

/-- Where a break may stand, blocks lead to a loop. -/
theorem StackFits.exists_loop (h : StackFits .placed goal stack) (ha : awaited goal stack = .flow)
    (hp : (placeOf stack).loops = true) : ∃ blocks loop below, stack = blocks ++ loop :: below ∧
      loop.isLoop = true ∧ ∀ g ∈ blocks, g.isBlock = true := by
  induction stack with
  | nil => cases hp
  | cons f stack ih =>
    have hdeeper : f.isBlock = true → awaited goal stack = .flow → (placeOf stack).loops = true →
        ∃ blocks loop below, f :: stack = blocks ++ loop :: below ∧ loop.isLoop = true ∧
          ∀ g ∈ blocks, g.isBlock = true := by
      intro hf ha hp
      obtain ⟨blocks, loop, below, rfl, hloop, hblocks⟩ := ih h.2 ha hp
      exact ⟨f :: blocks, loop, below, rfl, hloop, List.forall_mem_cons.2 ⟨hf, hblocks⟩⟩
    cases f with
    | value f => cases ha
    | text f => cases ha
    | flow f =>
      cases f with
      | sequence last todo => exact hdeeper rfl h.1.1.symm hp
      | program last todo => cases hp
      | loopBody condition body => exact ⟨[], _, stack, rfl, rfl, by simp⟩
      | itemBody pos item body iterable todo => exact ⟨[], _, stack, rfl, rfl, by simp⟩
      | functionBody => cases hp
      | namespaceBody name body => cases hp
    | exit e =>
      cases e with
      | scope previous => exact hdeeper rfl ha hp
      | _ => cases ha

/-- Where a return may stand, blocks and loops lead to the body of a function. -/
theorem StackFits.exists_function (h : StackFits .placed goal stack)
    (ha : awaited goal stack = .flow) (hp : (placeOf stack).returns = true) :
    ∃ inner below, stack = inner ++ .flow .functionBody :: below ∧
      ∀ g ∈ inner, g.isBlock = true ∨ g.isLoop = true := by
  induction stack with
  | nil => cases hp
  | cons f stack ih =>
    have hdeeper : f.isBlock = true ∨ f.isLoop = true → awaited goal stack = .flow →
        (placeOf stack).returns = true →
        ∃ inner below, f :: stack = inner ++ .flow .functionBody :: below ∧
          ∀ g ∈ inner, g.isBlock = true ∨ g.isLoop = true := by
      intro hf ha hp
      obtain ⟨inner, below, rfl, hinner⟩ := ih h.2 ha hp
      exact ⟨f :: inner, below, rfl, List.forall_mem_cons.2 ⟨hf, hinner⟩⟩
    cases f with
    | value f => cases ha
    | text f => cases ha
    | flow f =>
      cases f with
      | sequence last todo => exact hdeeper (.inl rfl) h.1.1.symm hp
      | program last todo => cases hp
      | loopBody condition body => exact hdeeper (.inr rfl) h.1.1.symm hp
      | itemBody pos item body iterable todo => exact hdeeper (.inr rfl) h.1.1.symm hp
      | functionBody => exact ⟨[], stack, rfl, by simp⟩
      | namespaceBody name body => cases hp
    | exit e =>
      cases e with
      | scope previous => exact hdeeper (.inl rfl) ha hp
      | _ => cases ha

/-- A result that fits a stack is taken by the frame on top, unless it is a fault. -/
theorem Result.Fits.takes {k : Rules} {r : Result} {f : Frame} {p : Place}
    (h : r.Fits k (awaited goal (f :: stack)) p)
    (hf : f.Fits k (awaited goal stack) (placeOf stack)) :
    f.takes r = true ∨ ∃ fault, r = .fault fault := by
  cases r with
  | fault fault => exact .inr ⟨fault, rfl⟩
  | value v =>
    cases f with
    | value => exact .inl rfl
    | flow => cases h
    | text => cases h
    | exit e => cases e <;> exact .inl rfl
  | flow g =>
    cases f with
    | value => cases h.1
    | flow => exact .inl rfl
    | text => cases h.1
    | exit e =>
      cases e with
      | scope => exact .inl rfl
      | _ => cases h.1
  | text t =>
    cases f with
    | value => cases h
    | flow => cases h
    | text => exact .inl rfl
    | exit e =>
      cases e with
      | scope => exact absurd h hf
      | _ => cases h

end

/-! ## Every state -/

variable {goal : Awaited} {m : Machine}

/-- The end of a statement that fits meets the frames that wait for it. -/
theorem Machine.Fits.meets (h : m.Fits .placed goal) (hgoal : goal ≠ .flow) {f : Flow}
    (hc : m.control = .give (.flow f)) : f.Meets m.stack := by
  have hstack := h.stack
  have hfits := h.control
  rw [hc] at hfits
  have hleave : f.mayLeave (placeOf m.stack) = true := hfits.2 rfl
  refine ⟨?_, fun last todo below hs => ?_, fun name body below hs => ?_, fun below hs => ?_,
    fun hround => ?_, fun v hv => ?_⟩
  · cases hs : m.stack with
    | nil =>
      rw [hs] at hfits
      exact absurd hfits.1 hgoal
    | cons frame below =>
      rw [hs] at hfits hstack
      rcases Result.Fits.takes (r := .flow f) hfits hstack.1 with ht | ⟨fault, hfault⟩
      · exact ⟨frame, below, rfl, ht⟩
      · cases hfault
  · rw [hs] at hleave
    cases f <;> first | rfl | cases hleave
  · rw [hs] at hleave
    cases f <;> first | rfl | cases hleave
  · rw [hs] at hleave
    cases f <;> first | rfl | cases hleave
  · refine hstack.exists_loop hfits.1 ?_
    cases f with
    | broke => exact hleave
    | continued => exact hleave
    | _ => cases hround
  · subst hv
    exact hstack.exists_function hfits.1 hleave

/-- No return, break or continue goes astray. In every program that is read, they stand only where
    they may, and so do exports. Whatever interpreter runs it, in a scope of its own or in that of
    the session, and whatever the host answers: at every step, the end of a statement meets frames
    that wait for it; no result but a fault meets a frame that has no use for it; and the run ends
    with a value or a fault. -/
theorem no_flow_goes_astray {ts : List Token} {p : Program} (h : Grammar.program ts = .ok p) :
    Rules.placed.program p = true ∧
    ∀ {libraries maxDepth kept i}, Reached libraries maxDepth (.resting kept i) →
      ∀ file start, start = i.ready kept (.enter file p) ∨ start = i.enterSession kept p →
      ∀ m, ReflTransGen (Machine.Leads .any) start m →
        (∀ f, m.control = .give (.flow f) → f.Meets m.stack) ∧
        (∀ r frame below, m.control = .give r → m.stack = frame :: below →
          frame.takes r = true ∨ ∃ fault, r = .fault fault) ∧
        ∀ n r, m.step = .done n r → (∃ v, r = .value v) ∨ ∃ fault, r = .fault fault := by
  have hp := program_placed h
  refine ⟨hp, fun {_ _ kept i} hi file start hstart m hm => ?_⟩
  have hkeeps : i.store.Keeps .placed := hi.fits
  have hfits : m.Fits .placed .value := by
    rcases hstart with rfl | rfl
    · exact ((Machine.fits_enter hp).leadsTo hkeeps World.keeps_any hm).1
    · exact ((Machine.fits_enterSession hp).leadsTo hkeeps.enterSession World.keeps_any hm).1
  have hstack := hfits.stack
  refine ⟨fun f hc => hfits.meets (by decide) hc, fun r frame below hc hs => ?_,
    fun n r hdone => ?_⟩
  · have hr := hfits.control
    rw [hc, hs] at hr
    rw [hs] at hstack
    exact Result.Fits.takes hr hstack.1
  · obtain ⟨_, hc, hs⟩ := Machine.done_iff.1 hdone
    have hr := hfits.control
    rw [hc, hs] at hr
    cases r with
    | value v => exact .inl ⟨v, rfl⟩
    | fault fault => exact .inr ⟨fault, rfl⟩
    | flow f => cases hr.1
    | text t => cases hr

def Control.isBreak : Control → Bool
  | .give (.flow .broke) => true
  | _ => false

/-- A break stands in a branch in a loop in a function. When it is carried out, two blocks with
    their scopes are left before the loop is. -/
theorem a_break_comes_to_its_loop : ∃ ts p i m, Grammar.program ts = .ok p ∧
    Reached [] 4 (.resting [] i) ∧ ReflTransGen (Machine.Leads .any) (i.enterSession [] p) m ∧
    m.control = .give (.flow .broke) ∧ (m.stack.takeWhile Frame.isBlock).length = 4 ∧
    Flow.Meets .broke m.stack := by
  have hrun : ((Interpreter.create [] 4).toOption.any fun i =>
      (Token.tokenize "func f(a) { for x in a { if (x) { break; } } return a; } f([1, 2]);"
        "a").toOption.any fun ts => (Grammar.program ts).toOption.any fun p =>
      ((i.enterSession [] p).answered (Request.among []) 20).any fun m =>
        (m.stack.takeWhile Frame.isBlock).length == 4 &&
          m.control.isBreak) = true := by
    decide +kernel
  obtain ⟨i, hi, hrun⟩ := exists_ok_of_any hrun
  obtain ⟨ts, _, hrun⟩ := exists_ok_of_any hrun
  obtain ⟨p, hp, hrun⟩ := exists_ok_of_any hrun
  simp only [Option.any_eq_true, Bool.and_eq_true, beq_iff_eq] at hrun
  obtain ⟨m, hm, hblocks, hc⟩ := hrun
  have hgive : m.control = .give (.flow .broke) := by
    unfold Control.isBreak at hc
    split at hc
    · assumption
    · cases hc
  have hleads := Machine.leads_answered (w := .any) (fun _ => trivial) hm
  have hrest := Reached.create hi
  have hmeets := (no_flow_goes_astray hp).2 hrest "a" _ (.inr rfl) m hleads
  exact ⟨ts, p, i, m, hp, hrest, hleads, hgive, hblocks, hmeets.1 _ hgive⟩

end TinyScript

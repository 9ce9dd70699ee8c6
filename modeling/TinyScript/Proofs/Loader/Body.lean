/-
  TinyScript.Proofs.Loader.Body — a file that ends with a value has run to its end.

  A run that comes to the frames below has given something to all frames above them before
  (`Ends.first`), and from a fault on there are only faults (`Ends.fault`). So where the statements
  of a file were started and the file ended with a value, each statement was executed in its turn
  and ended normally (`RunsAll`).
-/

import TinyScript.Proofs.Code.StrayFlow

namespace TinyScript

open Relation TinyScript.Text

variable {libraries : List Library} {maxDepth : Nat} {m n : Machine} {r : Result}
  {below base : List Frame}

/-! ## Parts of a run -/

/-- Moves put frames on top of those that are there. -/
theorem Moves.stack_suffix (h : Moves m n) : m.stack <:+ n.stack := by
  induction h with
  | refl => exact List.suffix_rfl
  | push _ _ ih => exact ih.trans (List.suffix_cons _ _)
  | enterScope _ _ _ _ ih => exact ih.trans (List.suffix_cons _ _)
  | enterCall _ _ _ _ _ ih => exact ih.trans (List.suffix_cons _ _)
  | loadModule _ _ ih => exact ih.trans (List.suffix_cons _ _)
  | loadProgram _ _ _ ih => exact ih.trans (List.suffix_cons _ _)
  | _ => assumption

/-- Frames stay until something is given to them. -/
theorem Machine.suffix_of_next (h : base <:+ m.stack) (hgo : ¬ m.Gives base)
    (hstep : m.step = .next n) : base <:+ n.stack := by
  have hpop : ∀ {r f stack}, m.control = .give r → m.stack = f :: stack → base <:+ stack := by
    intro r f stack hc hs
    rw [hs] at h
    rcases List.suffix_cons_iff.1 h with he | h
    · exact absurd ⟨hs.trans he.symm, r, hc⟩ hgo
    · exact h
  cases goes_of_next hstep with
  | start hm => exact h.trans hm.stack_suffix
  | resume hc hs _ hm => exact (hpop hc hs).trans hm.stack_suffix
  | leave hc hs =>
    rw [Machine.leave_stack]
    exact hpop hc hs

/-- Before a run comes to the frames below, it gives something to those above them. -/
theorem Ends.first (h : Ends below r n m) (hb : base <:+ m.stack)
    (hlt : below.length < base.length) : ∃ r' k, Ends base r' k m ∧ Ends below r n k := by
  induction h with
  | here hs _ =>
    rw [hs] at hb
    have := hb.length_le
    omega
  | @next m m' hgo hstep hends ih =>
    by_cases hg : m.Gives base
    · obtain ⟨hs, r', hc⟩ := hg
      exact ⟨r', m, .here hs hc, .next hgo hstep hends⟩
    · obtain ⟨r', k, hfirst, hrest⟩ := ih (Machine.suffix_of_next hb hg hstep)
      exact ⟨r', k, .next hg hstep hfirst, hrest⟩
  | ask reply hstep _ ih =>
    obtain ⟨r', k, hfirst, hrest⟩ := ih (hb.trans (moves_of_ask hstep reply).stack_suffix)
    exact ⟨r', k, .ask reply hstep hfirst, hrest⟩

/-- A fault is passed on. -/
theorem Machine.fault_of_next {f : Fault} (hc : m.control = .give (.fault f))
    (hstep : m.step = .next n) : ∃ g, n.control = .give (.fault g) := by
  cases hs : m.stack with
  | nil =>
    rw [Machine.done_iff.2 ⟨rfl, hc, hs⟩] at hstep
    cases hstep
  | cons frame stack =>
    rw [Machine.step_give hc hs] at hstep
    cases hstep
    cases frame with
    | exit e =>
      rcases Machine.leave_control (m := { m with stack := stack }) hc e with he | he
      · exact ⟨f, he⟩
      · exact he
    | _ => exact ⟨f, hc⟩

/-- From a fault on there are only faults. -/
theorem Ends.fault (h : Ends below r n m) {f : Fault} (hc : m.control = .give (.fault f)) :
    ∃ g, r = .fault g := by
  induction h generalizing f with
  | here _ hr =>
    rw [hc] at hr
    cases hr
    exact ⟨f, rfl⟩
  | next _ hstep _ ih =>
    obtain ⟨g, hg⟩ := Machine.fault_of_next hc hstep
    exact ih hg
  | @ask m _ _ _ hstep =>
    cases hs : m.stack with
    | nil =>
      rw [Machine.done_iff.2 ⟨rfl, hc, hs⟩] at hstep
      cases hstep
    | cons frame stack =>
      rw [Machine.step_give hc hs] at hstep
      cases hstep

/-! ## The statements of a file -/

/-- From `m` on all statements are executed one after the other, and each ends normally. Then the
    last value is given to the frames below. -/
inductive RunsAll (below : List Frame) : Machine → List Stmt → Machine → Prop
  | done {m : Machine} {last : Value} : m.stack = below → m.control = .give (.value last) →
    RunsAll below m [] m
  | statement {m n n' k : Machine} {s : Stmt} {todo : List Stmt} {last v : Value} :
    m.stack = .flow (.program last todo) :: below → m.control = .exec s →
    Ends m.stack (.flow (.normal v)) n m → n.step = .next n' → RunsAll below n' todo k →
    RunsAll below m (s :: todo) k

/-- What is given to the statements of a file is the normal end of one, or a fault. -/
theorem Reached.normal_or_fault {last : Value} {todo : List Stmt}
    (h : Reached libraries maxDepth (.running m))
    (hs : m.stack = .flow (.program last todo) :: below) (hc : m.control = .give r) :
    (∃ v, r = .flow (.normal v)) ∨ ∃ f, r = .fault f := by
  obtain ⟨⟨goal, hgoal, hfits⟩, _⟩ := h.fits
  have hcontrol := hfits.control
  have hstack := hfits.stack
  rw [hc, hs] at hcontrol
  rw [hs] at hstack
  rcases Result.Fits.takes hcontrol hstack.1 with ht | hf
  · cases r with
    | flow f =>
      have hnormal := (hfits.meets hgoal hc).program last todo below hs
      cases f with
      | normal v => exact .inl ⟨v, rfl⟩
      | _ => cases hnormal
    | _ => cases ht
  · exact .inr hf

/-- A file that ends with a value has run to its end. -/
theorem Ends.runsAll {p : Program} {last v : Value} (hb : below <:+ m.stack)
    (hlt : below.length < m.stack.length)
    (hm : Reached libraries maxDepth (.running (m.program last p)))
    (h : Ends below (.value v) n (m.program last p)) :
    ∃ k, RunsAll m.stack (m.program last p) p k ∧ Ends below (.value v) n k := by
  induction p generalizing m last with
  | nil => exact ⟨_, .done rfl rfl, h⟩
  | cons s todo ih =>
    have hstack : (m.program last (s :: todo)).stack = .flow (.program last todo) :: m.stack := rfl
    obtain ⟨r, k, hfirst, hrest⟩ :=
      h.first List.suffix_rfl (by rw [hstack, List.length_cons]; omega)
    obtain ⟨hks, hkc⟩ := hfirst.gives
    rw [hstack] at hks
    rcases (hfirst.reached hm).normal_or_fault hks hkc with ⟨w, rfl⟩ | ⟨f, rfl⟩
    · have hstep : k.step = .next ({ k with stack := m.stack }.program w todo) :=
        Machine.step_give hkc hks
      have hk := (hfirst.reached hm).next hstep
      have hne : k.stack ≠ below := fun he => by
        rw [← he, hks, List.length_cons] at hlt
        omega
      obtain ⟨k', hall, hend⟩ := ih (m := { k with stack := m.stack }) hb hlt hk
        (hrest.of_next (fun hg => hne hg.1) hstep)
      exact ⟨k', .statement hstack rfl hfirst hstep hall, hend⟩
    · obtain ⟨g, hg⟩ := hrest.fault hkc
      cases hg

end TinyScript

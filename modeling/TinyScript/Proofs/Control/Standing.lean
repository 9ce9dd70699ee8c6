/-
  TinyScript.Proofs.Control.Standing — what the frames of a stack give back.

  Where a machine stands is its scope, its call depth, the files that run, and the scopes that are
  open. Every frame says what becomes of that when it is left, so a whole stack says where the
  machine will stand when all of it is left (`unwind`). A machine is within a part of its run that
  began at `base` if its stack is that of `base` with frames on top, and leaving those frames leads
  back to where `base` stands (`Within`). One frame comes at a time (`Within.grow`) and one goes at
  a time (`Within.shrink`).
-/

import TinyScript.Machine.Step
import TinyScript.Proofs.Store.Opening

namespace TinyScript

open Store

variable {f : Frame}

structure Standing where
  scope : ScopeId
  /-- Functions of the script that run. -/
  depth : Nat
  /-- Files that run, the first one first. -/
  loading : List String
  /-- The scopes that are not released. -/
  opened : ScopeId → Bool

def Machine.standing (m : Machine) : Standing := ⟨m.scope, m.depth, m.loading, m.store.isOpen⟩

def ExitFrame.undo (c : Standing) : ExitFrame → Standing
  | scope previous => { c with scope := previous, opened := openBut c.opened c.scope }
  | call .. => { c with depth := c.depth - 1 }
  | module _ => { c with loading := c.loading.dropLast }
  | run located => if located then { c with loading := c.loading.dropLast } else c
  | session previous => { c with scope := previous }

def Frame.undo (c : Standing) : Frame → Standing
  | exit f => f.undo c
  | _ => c

def unwind (frames : List Frame) (c : Standing) : Standing := frames.foldl Frame.undo c

def Frame.isCall : Frame → Bool
  | exit (.call ..) => true
  | _ => false

def callCount (frames : List Frame) : Nat := frames.countP Frame.isCall

theorem callCount_cons (f : Frame) (frames : List Frame) :
    callCount (f :: frames) = callCount [f] + callCount frames :=
  @List.countP_append _ Frame.isCall [f] frames

theorem Frame.undo_of_not_exit (hf : ∀ e, f ≠ .exit e) (c : Standing) :
    f.undo c = c := by
  cases f with
  | exit e => exact absurd rfl (hf e)
  | _ => rfl

theorem Frame.callCount_of_not_exit (hf : ∀ e, f ≠ .exit e) : callCount [f] = 0 := by
  cases f with
  | exit e => exact absurd rfl (hf e)
  | _ => rfl

/-- The machine is within a part of its run that began at `base`. -/
structure Within (base m : Machine) : Prop where
  above : ∃ frames, m.stack = frames ++ base.stack ∧ unwind frames m.standing = base.standing ∧
    m.depth = base.depth + callCount frames
  bound : m.depth ≤ max base.depth base.maxDepth
  maxDepth : m.maxDepth = base.maxDepth
  session : m.session = base.session
  reclaims : m.reclaims = true
  filed : m.store.Filed

variable {base m n : Machine}

namespace Within

theorem refl (hr : m.reclaims = true) (hf : m.store.Filed) : Within m m :=
  ⟨⟨[], rfl, rfl, rfl⟩, Nat.le_max_left _ _, rfl, rfl, hr, hf⟩

/-- With nothing on top of its stack the machine stands where it began. -/
theorem standing_eq (h : Within base m) (hstack : m.stack = base.stack) :
    m.standing = base.standing := by
  obtain ⟨frames, hm, hu, _⟩ := h.above
  have hnil : frames = [] := by
    rw [hm] at hstack
    exact List.self_eq_append_left.1 hstack.symm
  subst hnil
  exact hu

/-- What belongs to neither the stack nor the store may change. -/
theorem controlled (h : Within base m) (c : Control) : Within base { m with control := c } :=
  ⟨h.above, h.bound, h.maxDepth, h.session, h.reclaims, h.filed⟩

theorem moduled (h : Within base m) (modules : Table Ref) :
    Within base { m with modules := modules } :=
  ⟨h.above, h.bound, h.maxDepth, h.session, h.reclaims, h.filed⟩

/-- The store may change as long as no scope is opened or closed. -/
theorem stored (h : Within base m) {s : Store} (hs : SameOpen m.store s) :
    Within base { m with store := s } := by
  have hstanding : Machine.standing { m with store := s } = m.standing := by
    simp only [Machine.standing, hs.isOpen]
  obtain ⟨frames, hm, hu, hd⟩ := h.above
  exact ⟨⟨frames, hm, hstanding ▸ hu, hd⟩, h.bound, h.maxDepth, h.session, h.reclaims,
    h.filed.sameOpen hs⟩

/-! ## Frames come and go -/

/-- A frame comes that will lead back to where the machine stands. -/
theorem grow (h : Within base m) (hstack : n.stack = f :: m.stack)
    (hundo : f.undo n.standing = m.standing) (hdepth : n.depth = m.depth + callCount [f])
    (hbound : n.depth ≤ max m.depth m.maxDepth) (hmax : n.maxDepth = m.maxDepth)
    (hsession : n.session = m.session) (hreclaims : n.reclaims = m.reclaims)
    (hfiled : n.store.Filed) : Within base n := by
  obtain ⟨frames, hm, hu, hd⟩ := h.above
  refine ⟨⟨f :: frames, ?_, ?_, ?_⟩, ?_, hmax.trans h.maxDepth, hsession.trans h.session,
    hreclaims.trans h.reclaims, hfiled⟩
  · rw [hstack, hm]
    rfl
  · rw [unwind, List.foldl_cons, hundo]
    exact hu
  · rw [hdepth, hd, callCount_cons f frames]
    omega
  · have hb := h.bound
    rw [h.maxDepth] at hbound
    omega

/-- A frame goes that is not one of those where the part began. -/
theorem shrink (h : Within base m) (hne : m.stack ≠ base.stack) (hstack : m.stack = f :: n.stack)
    (hundo : n.standing = f.undo m.standing) (hdepth : n.depth = m.depth - callCount [f])
    (hmax : n.maxDepth = m.maxDepth) (hsession : n.session = m.session)
    (hreclaims : n.reclaims = m.reclaims) (hfiled : n.store.Filed) : Within base n := by
  obtain ⟨frames, hm, hu, hd⟩ := h.above
  obtain _ | ⟨g, frames⟩ := frames
  · exact absurd hm hne
  obtain ⟨rfl, hn⟩ := List.cons.inj (hstack.symm.trans hm)
  refine ⟨⟨frames, hn, ?_, ?_⟩, ?_, hmax.trans h.maxDepth, hsession.trans h.session,
    hreclaims.trans h.reclaims, hfiled⟩
  · rw [hundo]
    exact hu
  · rw [callCount_cons] at hd
    omega
  · have hb := h.bound
    omega

/-- A frame that waits for a result comes. -/
theorem push (h : Within base m) (hf : ∀ e, f ≠ .exit e) : Within base (m.push f) := by
  refine h.grow rfl (Frame.undo_of_not_exit hf _) ?_ (Nat.le_max_left _ _) rfl rfl rfl h.filed
  simp [Frame.callCount_of_not_exit hf, Machine.push]

/-- A frame that waits for a result goes. -/
theorem pop (h : Within base m) {stack : List Frame} (hne : m.stack ≠ base.stack)
    (hstack : m.stack = f :: stack) (hf : ∀ e, f ≠ .exit e) :
    Within base { m with stack := stack } := by
  refine h.shrink hne hstack (Frame.undo_of_not_exit hf _).symm ?_ rfl rfl rfl h.filed
  simp [Frame.callCount_of_not_exit hf]

theorem enterScope (h : Within base m) (parent : ScopeId) (kind : ScopeKind) :
    Within base (m.enterScope parent kind) := by
  obtain ⟨hfiled, hclosed, _, hother⟩ := h.filed.push parent kind
  refine h.grow rfl ?_ rfl (Nat.le_max_left _ _) rfl rfl rfl hfiled
  exact congrArg (Standing.mk m.scope m.depth m.loading) (openBut_eq hclosed hother)

/-- A function of the script is called, of which there are not too many yet. -/
theorem enterCall (h : Within base m) (f : Function) (held : List Value) (pos : Text.Position)
    (hlt : m.depth < m.maxDepth) :
    Within base ({ m with depth := m.depth + 1 }.push (.exit (.call f held pos))) :=
  h.grow rfl rfl rfl (Nat.le_trans hlt (Nat.le_max_right _ _)) rfl rfl rfl h.filed

theorem loadModule (h : Within base m) (path : String) :
    Within base ({ m with loading := m.loading ++ [path] }.push (.exit (.module path))) := by
  refine h.grow rfl ?_ rfl (Nat.le_max_left _ _) rfl rfl rfl h.filed
  exact congrArg (Standing.mk m.scope m.depth · m.store.isOpen) (List.dropLast_concat ..)

theorem loadProgram (h : Within base m) (path : Option String) : Within base
    ({ m with loading := m.loading ++ path.toList }.push (.exit (.run path.isSome))) := by
  refine h.grow rfl ?_ rfl (Nat.le_max_left _ _) rfl rfl rfl h.filed
  cases path with
  | none => exact congrArg (Standing.mk m.scope m.depth · m.store.isOpen) (List.append_nil _)
  | some path =>
    exact congrArg (Standing.mk m.scope m.depth · m.store.isOpen) (List.dropLast_concat ..)

theorem enterSession (h : Within base m) (i : ScopeId) :
    Within base { m.push (.exit (.session m.scope)) with scope := i } :=
  h.grow rfl rfl rfl (Nat.le_max_left _ _) rfl rfl rfl h.filed

/-- An exit frame does what it says when it goes, whatever the result. -/
theorem leave (h : Within base m) {e : ExitFrame} {stack : List Frame} (r : Result)
    (hne : m.stack ≠ base.stack) (hstack : m.stack = .exit e :: stack) :
    Within base ({ m with stack := stack }.leave r e) := by
  cases e with
  | scope previous =>
    obtain ⟨hfiled, hopen⟩ := h.filed.release ({ m with stack := stack } : Machine).held m.scope
    rw [Machine.leave, if_pos h.reclaims]
    refine h.shrink hne hstack ?_ rfl rfl rfl rfl hfiled
    exact congrArg (Standing.mk previous m.depth m.loading) hopen
  | call f held pos =>
    have hleft : Within base { m with stack := stack, depth := m.depth - 1 } :=
      h.shrink hne hstack rfl rfl rfl rfl rfl h.filed
    cases r with
    | value v =>
      simp only [Machine.leave, Machine.proceed]
      split <;> exact hleft.controlled _
    | _ => exact hleft
  | module path =>
    have hleft : Within base { m with stack := stack, loading := m.loading.dropLast } :=
      h.shrink hne hstack rfl rfl rfl rfl rfl h.filed
    simp only [Machine.leave]
    split
    · exact hleft.moduled _
    · exact hleft
  | run located =>
    have hcollect : ∀ n : Machine, Within base n →
        Within base (if n.reclaims then { n with store := n.store.collect n.held } else n) := by
      intro n hn
      rw [if_pos hn.reclaims]
      exact hn.stored (hn.filed.collect _)
    apply hcollect
    cases located <;> exact h.shrink hne hstack rfl rfl rfl rfl rfl h.filed
  | session previous => exact h.shrink hne hstack rfl rfl rfl rfl rfl h.filed

end Within

end TinyScript

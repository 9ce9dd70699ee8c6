/-
  TinyScript.Proofs.Termination.Duties — each step leaves less to do.

  What is done next and each frame that waits is a duty. Duties are compared by how many functions
  and files can still be entered above them, and then by weight. A step takes one duty away and
  puts lighter ones in its place, as many as it likes (`Machine.Fits.cuts_next`,
  `Machine.Fits.cuts_ask`), so there is no endless run.

  Only the text of containers is weighed by the cells of the store. While one is written, all above
  it on the stack are parts of it, and no cell is made.
-/

import Mathlib.Data.Prod.Lex
import Mathlib.Logic.Hydra
import TinyScript.Proofs.Code.Stepping

namespace TinyScript

open Relation

variable {below : List Frame}

/-! ## Duties -/

abbrev Duty := Nat ×ₗ Nat ×ₗ Nat ×ₗ Nat

/-- What has a weight, where so many functions and files can still be entered. -/
def Weight.duty (room : Nat) (x : Weight) : Duty :=
  toLex (room, toLex (x.code, toLex (x.nested, x.count)))

theorem Weight.duty_lt {x y : Weight} (h : x < y) (room : Nat) : x.duty room < y.duty room := by
  refine Prod.Lex.toLex_lt_toLex.2 (.inr ⟨rfl, Prod.Lex.toLex_lt_toLex.2 (h.imp_right ?_)⟩)
  exact fun h => ⟨h.1, Prod.Lex.toLex_lt_toLex.2 h.2⟩

theorem Weight.duty_lt_of_room {room room' : Nat} (h : room < room') (x y : Weight) :
    x.duty room < y.duty room' :=
  Prod.Lex.toLex_lt_toLex.2 (.inl h)

def entered (stack : List Frame) : Nat := stack.countP Frame.enters

/-- The frames as duties, where at most `limit` functions and files are entered. -/
noncomputable def duties (limit cells : Nat) : List Frame → Multiset Duty
  | [] => 0
  | f :: stack => duties limit cells stack + {(f.weight cells).duty (limit - entered stack)}

noncomputable def Machine.duties (limit cells : Nat) (m : Machine) : Multiset Duty :=
  TinyScript.duties limit cells m.stack +
    (m.control.weight? cells).elim 0 fun x => {x.duty (limit - entered m.stack)}

variable {m n : Machine} {limit cells : Nat}

/-! ## What a step begins -/

theorem entered_cons_of_not {f : Frame} (hf : f.enters = false) (stack : List Frame) :
    entered (f :: stack) = entered stack :=
  List.countP_cons_of_neg (by simp [hf])

theorem entered_cons {f : Frame} (hf : f.enters = true) (stack : List Frame) :
    entered (f :: stack) = entered stack + 1 :=
  List.countP_cons_of_pos hf

theorem entered_le_cons (f : Frame) (stack : List Frame) : entered stack ≤ entered (f :: stack) :=
  (List.sublist_cons_self f stack).countP_le

namespace Job

variable {j : Job} {d : Bool} {stack : List Frame}

theorem Over.entered_eq (h : j.Over d stack) (hd : d = false) :
    entered stack = entered j.below := by
  induction h with
  | base => rfl
  | push _ _ _ hf ih => rw [entered_cons_of_not hf, ih hd]
  | enter => cases hd

theorem Over.entered_le (h : j.Over d stack) : entered j.below ≤ entered stack := by
  induction h with
  | base => exact Nat.le_refl _
  | push _ _ _ _ ih => exact Nat.le_trans ih (entered_le_cons _ _)
  | enter _ _ _ _ ih => exact Nat.le_trans ih (entered_le_cons _ _)

theorem Over.entered_lt (h : j.Over d stack) (hd : d = true) : entered j.below < entered stack := by
  induction h with
  | base => cases hd
  | push _ _ _ hf ih =>
    rw [entered_cons_of_not hf]
    exact ih hd
  | enter hover _ _ hf _ =>
    rw [entered_cons hf]
    exact Nat.lt_succ_of_le hover.entered_le

noncomputable def duty (j : Job) (limit : Nat) : Duty := j.weight.duty (limit - entered j.below)

/-- What is light is a lighter duty, for above a function or file that was entered there is less
    room. -/
theorem Light.duty_lt {x : Weight} (h : j.Light d x) (hover : j.Over d stack)
    (hb : j.rules.bounded = true) (hlimit : entered stack ≤ limit) :
    x.duty (limit - entered stack) < j.duty limit := by
  cases d with
  | false =>
    rw [hover.entered_eq rfl]
    exact Weight.duty_lt (h hb rfl) _
  | true =>
    have hlt := hover.entered_lt rfl
    exact Weight.duty_lt_of_room (by omega) _ _

/-- Duties besides those that the job is done for are lighter than it. -/
def Lightens (j : Job) (limit : Nat) (all : Multiset Duty) : Prop :=
  ∃ new, all = duties limit j.cells j.below + new ∧ ∀ t ∈ new, t < j.duty limit

theorem Lightens.base : j.Lightens limit (duties limit j.cells j.below) :=
  ⟨0, (add_zero _).symm, fun t ht => absurd ht (Multiset.notMem_zero t)⟩

theorem Lightens.add {all : Multiset Duty} (h : j.Lightens limit all) {t : Duty}
    (ht : t < j.duty limit) : j.Lightens limit (all + {t}) := by
  obtain ⟨new, rfl, hnew⟩ := h
  refine ⟨new + {t}, add_assoc _ _ _, fun u hu => ?_⟩
  rcases Multiset.mem_add.1 hu with hu | hu
  · exact hnew u hu
  · exact Multiset.mem_singleton.1 hu ▸ ht

theorem Over.lightens (h : j.Over d stack) (hb : j.rules.bounded = true)
    (hlimit : entered stack ≤ limit) : j.Lightens limit (duties limit j.cells stack) := by
  induction h with
  | base => exact .base
  | push hover _ hlight _ ih =>
    have hle := Nat.le_trans (entered_le_cons _ _) hlimit
    exact (ih hle).add (hlight.duty_lt hover hb hle)
  | enter hover _ hlight _ ih =>
    have hle := Nat.le_trans (entered_le_cons _ _) hlimit
    exact (ih hle).add (hlight.duty_lt hover hb hle)

theorem Begun.lightens (h : j.Begun n) (hb : j.rules.bounded = true)
    (hlimit : entered n.stack ≤ limit) : j.Lightens limit (n.duties limit j.cells) := by
  obtain ⟨d, hover, _, hlight⟩ := h
  have hframes := hover.lightens hb hlimit
  unfold Machine.duties
  cases hx : n.control.weight? j.cells with
  | none =>
    rw [Option.elim_none, add_zero]
    exact hframes
  | some x => exact hframes.add ((hlight x hx).duty_lt hover hb hlimit)

end Job

namespace Machine

variable {k : Rules} {goal : Awaited}

/-- What is done is one of the duties, and the others are those of the frames it is done for. -/
theorem Does.duties {w : Weight} (h : m.Does cells w below) :
    m.duties limit cells =
      TinyScript.duties limit cells below + {w.duty (limit - entered below)} := by
  cases h with
  | start hw => rw [Machine.duties, hw, Option.elim_some]
  | resume hc hstack =>
    have hnone : m.control.weight? cells = none := by rw [hc]; rfl
    rw [Machine.duties, hnone, Option.elim_none, add_zero, hstack, TinyScript.duties]

/-- Where lighter duties are in the place of what was done, there is less to do. -/
theorem cuts_of_lightens {w : Weight} (hdoes : m.Does cells w below)
    (hlight : (Job.mk k goal cells w below).Lightens limit (n.duties limit cells)) :
    CutExpand (· < ·) (n.duties limit cells) (m.duties limit cells) := by
  obtain ⟨new, hnew, hlt⟩ := hlight
  rw [hnew, hdoes.duties]
  exact (cutExpand_add_left _).2 (cutExpand_singleton hlt)

theorem cuts_of_begun {w : Weight} (hdoes : m.Does cells w below)
    (hbegun : (Job.mk k goal cells w below).Begun n) (hb : k.bounded = true)
    (hlimit : entered n.stack ≤ limit) :
    CutExpand (· < ·) (n.duties limit cells) (m.duties limit cells) :=
  cuts_of_lightens hdoes (hbegun.lightens hb hlimit)

end Machine

/-! ## Texts -/

def Frame.isParts : Frame → Bool
  | .text (.parts ..) => true
  | _ => false

theorem Frame.weight_eq {f : Frame} (hf : f.isParts = false) (cells cells' : Nat) :
    f.weight cells = f.weight cells' := by
  cases f with
  | text f =>
    cases f with
    | parts => cases hf
    | texts => rfl
  | _ => rfl

theorem Control.weight?_eq {c : Control} (hc : c.isRender = false) (cells cells' : Nat) :
    c.weight? cells = c.weight? cells' := by
  cases c with
  | render => cases hc
  | _ => rfl

theorem duties_eq {stack : List Frame} (h : stack.any Frame.isParts = false) (cells' : Nat) :
    duties limit cells stack = duties limit cells' stack := by
  induction stack with
  | nil => rfl
  | cons f stack ih =>
    obtain ⟨hf, hstack⟩ := Bool.or_eq_false_iff.1 (List.any_cons.symm.trans h)
    rw [duties, duties, ih hstack, Frame.weight_eq hf cells cells']

namespace Machine

variable {k : Rules} {goal : Awaited}

def writes (m : Machine) : Bool := m.control.isRender || m.stack.any Frame.isParts

/-- Where nothing is written, cells do not count. -/
theorem duties_eq (h : m.writes = false) (cells' : Nat) :
    m.duties limit cells = m.duties limit cells' := by
  obtain ⟨hc, hs⟩ := Bool.or_eq_false_iff.1 h
  rw [duties, duties, TinyScript.duties_eq hs cells', Control.weight?_eq hc cells cells']

end Machine

/-- Without `str` methods, there are only parts above a container that is written. -/
theorem StackFits.exists_parts {k : Rules} {goal : Awaited} {stack : List Frame}
    (h : StackFits k goal stack) (hb : k.bounded = true) (hp : stack.any Frame.isParts = true) :
    ∃ f below, stack = .text f :: below ∧ f.gives = .text := by
  induction stack with
  | nil => cases hp
  | cons f stack ih =>
    have hfits := h.1
    rcases Bool.or_eq_true_iff.1 (List.any_cons.symm.trans hp) with hf | hp
    · cases f with
      | text f =>
        cases f with
        | parts => exact ⟨_, _, rfl, rfl⟩
        | texts => cases hf
      | _ => cases hf
    · obtain ⟨g, below, rfl, _⟩ := ih h.2 hp
      have hwant : awaited goal (.text g :: below) = .text := rfl
      rw [hwant] at hfits
      cases f with
      | value f =>
        obtain ⟨hgives, hkeeps⟩ := hfits
        cases f with
        | strResult => simp [ValueFrame.keeps, hb] at hkeeps
        | _ => cases hgives
      | flow f => cases f <;> cases hfits.1
      | text f => exact ⟨f, _, rfl, hfits⟩
      | exit e =>
        cases e with
        | scope => exact absurd rfl hfits
        | _ => cases hfits

/-- For a text, a value is written or there is a result. -/
theorem Control.Fits.of_text {k : Rules} {p : Derivation.Place} {c : Control}
    (h : c.Fits k .text p) :
    (∃ v nested path pos, c = .render v nested path pos) ∨ ∃ r, c = .give r := by
  cases c with
  | render v nested path pos => exact .inl ⟨v, nested, path, pos, rfl⟩
  | give r => exact .inr ⟨r, rfl⟩
  | eval => cases h.1
  | exec => cases h.1
  | enter => cases h.1
  | _ => cases h

namespace Machine

variable {k : Rules} {goal : Awaited}

/-- While something is written, texts are awaited. -/
theorem Fits.awaits_text (h : m.Fits k goal) (hb : k.bounded = true) (hm : m.writes = true) :
    awaited goal m.stack = .text := by
  rcases Bool.or_eq_true_iff.1 hm with hc | hp
  · have hcontrol := h.control
    cases hm : m.control with
    | render =>
      rw [hm] at hcontrol
      exact hcontrol
    | _ =>
      rw [hm] at hc
      cases hc
  · obtain ⟨f, below, hstack, _⟩ := h.stack.exists_parts hb hp
    rw [hstack]
    rfl

theorem renderParts_store (m : Machine) (opening closing : String) (held : List Value)
    (done : List String) (path : List Ref) (pos : Text.Position) (todo : List (String × Value)) :
    (m.renderParts opening closing held done path pos todo).store = m.store := by
  cases todo <;> rfl

/-- Without a `str` method, a value is written from what it is. -/
theorem render_store (hs : m.store.Keeps k) (hb : k.bounded = true) (v : Value) (nested : Bool)
    (path : List Ref) (pos : Text.Position) : (m.render v nested path pos).store = m.store := by
  unfold render
  split
  · split
    · rfl
    · exact renderParts_store ..
  next r =>
    split
    next hf _ =>
      have hname := (hs.boundMethod? hf).1
      simp [Rules.names, hb] at hname
    · unfold renderObject
      split
      · split
        · rfl
        · split
          · rfl
          · exact renderParts_store ..
      · rfl
  · rfl

/-- No cell is made while something is written. -/
theorem Fits.store_of_writes (h : m.Fits k goal) (hs : m.store.Keeps k) (hb : k.bounded = true)
    (hm : m.writes = true) (hstep : m.step = .next n) : n.store = m.store := by
  have htext := h.awaits_text hb hm
  rcases Control.Fits.of_text (htext ▸ h.control) with ⟨v, nested, path, pos, hc⟩ | ⟨r, hc⟩
  · simp only [step, hc] at hstep
    cases hstep
    exact render_store hs hb v nested path pos
  · -- a result is given to a part, for nothing else is above it
    have hparts : m.stack.any Frame.isParts = true := by
      rw [writes, hc] at hm
      exact hm
    obtain ⟨f, below, hstack, hf⟩ := h.stack.exists_parts hb hparts
    simp only [step, hc, hstack] at hstep
    cases hstep
    cases f with
    | texts => cases hf
    | parts =>
      cases r with
      | text t => exact renderParts_store ..
      | _ => rfl

/-! ## Steps -/

variable (h : m.Fits k goal) (hb : k.bounded = true)
include h hb

/-- A step leaves less to do. -/
theorem Fits.cuts_next (hs : m.store.Keeps k)
    (hcells : ∀ r c, m.store.cell? r = some c → r < m.store.next) (hstep : m.step = .next n)
    (hlimit : entered n.stack ≤ limit) :
    CutExpand (· < ·) (n.duties limit n.store.next) (m.duties limit m.store.next) := by
  cases hm : m.writes with
  | true =>
    obtain ⟨w, below, hdoes, hbegun⟩ := h.begins hs (fun _ _ => hcells) hstep
    rw [h.store_of_writes hs hb hm hstep]
    exact cuts_of_begun hdoes hbegun hb hlimit
  | false =>
    have hrender := (Bool.or_eq_false_iff.1 hm).1
    obtain ⟨w, below, hdoes, hbegun⟩ := h.begins hs
      (fun _ hr => absurd (hrender.symm.trans hr) Bool.false_ne_true) hstep
    rw [duties_eq hm n.store.next]
    exact cuts_of_begun hdoes hbegun hb hlimit

/-- So does an answer. -/
theorem Fits.cuts_ask {request : Request} {resume : request.Reply → Machine}
    {reply : request.Reply} (hreply : request.Keeps k reply) (hstep : m.step = .ask request resume)
    (hlimit : entered (resume reply).stack ≤ limit) :
    CutExpand (· < ·) ((resume reply).duties limit (resume reply).store.next)
      (m.duties limit m.store.next) := by
  have hm : m.writes = false := by
    by_contra hm
    have htext := h.awaits_text hb (by simpa using hm)
    rcases Control.Fits.of_text (htext ▸ h.control) with ⟨v, nested, path, pos, hc⟩ | ⟨r, hc⟩
    · simp only [step, hc] at hstep
      cases hstep
    · simp only [step, hc] at hstep
      split at hstep <;> cases hstep
  obtain ⟨w, below, hdoes, hbegun⟩ := h.begins_reply hreply hstep
  rw [duties_eq hm (resume reply).store.next]
  exact cuts_of_begun hdoes hbegun hb hlimit

end Machine

end TinyScript

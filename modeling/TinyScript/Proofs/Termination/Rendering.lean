/-
  TinyScript.Proofs.Termination.Rendering — when the text of a value comes to its end.

  While a value is written, code of the script runs only in `str` methods, and each call of one ends
  before the rest is written. So the writing goes from state to state, where a whole call is one
  step (`Machine.Writes`). All other steps leave the store alone and enter only containers that are
  not on the path, of which there are fewer and fewer. What is written comes to an end just if each
  call of a `str` method does and there are finitely many of them (`writing_returns_iff`).
-/

import Mathlib.Data.Set.Finite.Basic
import Mathlib.Order.WellFounded
import TinyScript.Proofs.Loader.Body
import TinyScript.Proofs.Termination.Duties

namespace TinyScript

open Relation TinyScript.Text

variable {below base : List Frame} {start path : List Ref} {cells limit : Nat} {r : Result}
  {m n first : Machine} {frame : Frame} {pos : Position}

/-! ## Runs that return -/

/-- Whatever the host answers, the run gives something to the frames below. -/
inductive Machine.Returns (below : List Frame) : Machine → Prop
  | here {m : Machine} : m.Gives below → Returns below m
  | next {m n : Machine} : m.step = .next n → Returns below n → Returns below m
  | ask {m : Machine} {request : Request} {resume : request.Reply → Machine} :
    m.step = .ask request resume → (∀ reply, Returns below (resume reply)) → Returns below m

theorem Machine.not_gives_of_lt (h : below.length < m.stack.length) : ¬ m.Gives below :=
  fun hg => Nat.ne_of_lt h (congrArg List.length hg.1.symm)

theorem Machine.not_gives_of_suffix (hb : base <:+ m.stack) (hlt : below.length < base.length) :
    ¬ m.Gives below :=
  not_gives_of_lt (Nat.lt_of_lt_of_le hlt hb.length_le)

namespace Machine.Returns

/-- A run returns to the frames below if it returns to others first, and from there on. -/
theorem trans (h : m.Returns base) (hrest : ∀ r n, Ends base r n m → n.Returns below) :
    m.Returns below := by
  induction h with
  | @here m hg =>
    obtain ⟨hs, r, hc⟩ := hg
    exact hrest r m (.here hs hc)
  | @next m n hstep _ ih =>
    by_cases hg : m.Gives base
    · obtain ⟨hs, r, hc⟩ := hg
      exact hrest r m (.here hs hc)
    · exact .next hstep (ih fun r k hk => hrest r k (.next hg hstep hk))
  | ask hstep _ ih =>
    exact .ask hstep fun reply => ih reply fun r k hk => hrest r k (.ask reply hstep hk)

theorem of_next (h : m.Returns below) (hgo : ¬ m.Gives below) (hstep : m.step = .next n) :
    n.Returns below := by
  cases h with
  | here hg => exact absurd hg hgo
  | next hstep' h =>
    cases hstep'.symm.trans hstep
    exact h
  | ask hstep' => cases hstep'.symm.trans hstep

theorem of_ask {request : Request} {resume : request.Reply → Machine} (h : m.Returns below)
    (hstep : m.step = .ask request resume) (reply : request.Reply) :
    (resume reply).Returns below := by
  cases h with
  | here hg =>
    obtain ⟨_, _, hc⟩ := hg
    simp only [step, hc] at hstep
    split at hstep <;> cases hstep
  | next hstep' => cases hstep'.symm.trans hstep
  | ask hstep' h =>
    cases hstep'.symm.trans hstep
    exact h reply

/-- What returns to the frames below gives something to those above them before. -/
theorem above (h : m.Returns below) (hb : base <:+ m.stack) (hlt : below.length < base.length) :
    m.Returns base := by
  induction h with
  | here hg => exact absurd hg (not_gives_of_suffix hb hlt)
  | @next m n hstep _ ih =>
    by_cases hg : m.Gives base
    · exact .here hg
    · exact .next hstep (ih (suffix_of_next hb hg hstep))
  | ask hstep _ ih =>
    exact .ask hstep fun reply => ih reply (hb.trans (moves_of_ask hstep reply).stack_suffix)

/-- So it returns from there on. -/
theorem of_ends (he : Ends base r n m) (hb : base <:+ m.stack) (hlt : below.length < base.length)
    (h : m.Returns below) : n.Returns below := by
  induction he with
  | here => exact h
  | next hgo hstep _ ih =>
    exact ih (suffix_of_next hb hgo hstep) (h.of_next (not_gives_of_suffix hb hlt) hstep)
  | ask reply hstep _ ih =>
    exact ih (hb.trans (moves_of_ask hstep reply).stack_suffix) (h.of_ask hstep reply)

end Machine.Returns

/-! ## Writing -/

namespace Machine

/-- A `str` method is called next, for a frame that waits for its result. The call starts at
    `first`. -/
inductive CallsStr (m : Machine) : Frame → Machine → Prop
  | call {r : Ref} {nested : Bool} {path : List Ref} {pos : Position} {f : Function} {d : Ref}
    {c : Class} : m.control = .render (.object r) nested path pos →
    m.store.boundMethod? (.object r) "str" = some f → m.store.classOf? r = some (d, c) →
    CallsStr m (.value (.strResult c.name pos))
      ((m.push (.value (.strResult c.name pos))).callFunction f [] [] pos)

/-- A step of the writing of a value for the frames below. The call of a `str` method is one. -/
inductive Writes (below : List Frame) (m : Machine) : Machine → Prop
  | step {n : Machine} : ¬ m.Gives below → (∀ frame first, ¬ m.CallsStr frame first) →
    m.step = .next n → Writes below m n
  | call {frame : Frame} {first n : Machine} {r : Result} : m.CallsStr frame first →
    Ends (frame :: m.stack) r n first → Writes below m n

theorem CallsStr.step (h : m.CallsStr frame first) : m.step = .next first := by
  obtain ⟨hc, hf, hclass⟩ := h
  simp only [Machine.step, hc, render, hf, hclass]

theorem CallsStr.eq_strResult (h : m.CallsStr frame first) :
    ∃ name pos, frame = .value (.strResult name pos) := by
  obtain ⟨_, _, _⟩ := h
  exact ⟨_, _, rfl⟩

/-- Above the frame that waits there are only frames of the call. -/
theorem CallsStr.suffix (h : m.CallsStr frame first) : frame :: m.stack <:+ first.stack := by
  obtain ⟨hc, hf, hclass⟩ := h
  exact (Moves.refl.callFunction (m := m.push _) _ _ _ _).stack_suffix

theorem CallsStr.not_gives (h : m.CallsStr frame first) : ¬ m.Gives below := by
  obtain ⟨hc, _, _⟩ := h
  rintro ⟨_, r, hg⟩
  cases hc.symm.trans hg

end Machine

/-! ## Paths -/

def Extends (start path : List Ref) : Prop := start <:+ path ∧ (start.Nodup → path.Nodup)

theorem Extends.cons {r : Ref} (h : Extends start path) (hr : r ∉ path) :
    Extends start (r :: path) :=
  ⟨h.1.trans (List.suffix_cons r path), fun hs => List.nodup_cons.2 ⟨hr, h.2 hs⟩⟩

def Frame.OnPath (start : List Ref) : Frame → Prop
  | .text (.parts _ _ _ _ _ _ path _) => Extends start path
  | .value (.strResult ..) => True
  | _ => False

def Control.OnPath (start : List Ref) : Control → Prop
  | .render _ _ path _ => Extends start path
  | .give _ => True
  | _ => False

structure Machine.Writing (below : List Frame) (start : List Ref) (m : Machine) : Prop where
  frames : ∃ frames, m.stack = frames ++ below ∧ ∀ f ∈ frames, f.OnPath start
  control : m.control.OnPath start

namespace Machine.Writing

theorem suffix (h : m.Writing below start) : below <:+ m.stack := by
  obtain ⟨frames, hs, _⟩ := h.frames
  exact ⟨frames, hs.symm⟩

theorem giving (h : m.Writing below start) (r : Result) : (m.giving r).Writing below start :=
  ⟨h.frames, trivial⟩

theorem renderParts (h : m.Writing below start) (opening closing : String) (held : List Value)
    (done : List String) (hpath : Extends start path) (pos : Position)
    (todo : List (String × Value)) :
    (m.renderParts opening closing held done path pos todo).Writing below start := by
  cases todo with
  | nil => exact h.giving _
  | cons part todo =>
    obtain ⟨frames, hs, hf⟩ := h.frames
    refine ⟨⟨_ :: frames, congrArg (_ :: ·) hs, ?_⟩, hpath⟩
    exact List.forall_mem_cons.2 ⟨hpath, hf⟩

end Machine.Writing

/-! ## Steps besides calls -/

/-- Parts of a container that is not on the path are written, or there is a text. -/
inductive Machine.Opens (m : Machine) (path : List Ref) (pos : Position) : Machine → Prop
  | text (t : String) : Opens m path pos (m.text t)
  | parts {r : Ref} {opening closing : String} {held : List Value} {todo : List (String × Value)} :
    r ∉ path → (todo ≠ [] → ∃ c, m.store.cell? r = some c) →
    Opens m path pos (m.renderParts opening closing held [] (r :: path) pos todo)

namespace Machine

theorem opens_object (r : Ref) (pos : Position) :
    m.Opens path pos (m.renderObject r path pos) := by
  unfold renderObject
  split
  · split
    · exact .text _
    · split
      · exact .text _
      next hpath =>
        refine .parts (fun h => hpath (List.contains_iff_mem.2 h)) fun htodo => ?_
        cases hc : m.store.cell? r with
        | none =>
          have hfields : m.store.labelledFields r = [] := by
            simp only [Store.labelledFields, Store.fields, Store.object?, hc]
            rfl
          exact absurd hfields htodo
        | some c => exact ⟨c, rfl⟩
  · exact .text _

/-- What is written without a `str` method. -/
theorem opens_render {v : Value} {nested : Bool} (hc : m.control = .render v nested path pos)
    (hcalls : ∀ frame first, ¬ m.CallsStr frame first) :
    m.Opens path pos (m.render v nested path pos) := by
  unfold render
  split
  next r =>
    split
    · exact .text _
    next hpath =>
      refine .parts (fun h => hpath (List.contains_iff_mem.2 h)) fun htodo => ?_
      cases hr : m.store.cell? r with
      | none => simp [Store.items, hr] at htodo
      | some c => exact ⟨c, rfl⟩
  next r =>
    split
    next hf hclass => exact absurd (.call hc hf hclass) (hcalls _ _)
    next => exact opens_object r pos
  next => exact .text _

end Machine

/-! ## Less and less to write -/

theorem Weight.lt_trans {u v w : Weight} (huv : u < v) (hvw : v < w) : u < w := by
  rcases huv with huv | ⟨huv, huv' | ⟨huv', huv''⟩⟩ <;>
    rcases hvw with hvw | ⟨hvw, hvw' | ⟨hvw', hvw''⟩⟩
  all_goals first
    | exact .inl (by omega)
    | exact .inr ⟨by omega, .inl (by omega)⟩
    | exact .inr ⟨by omega, .inr ⟨by omega, by omega⟩⟩

namespace Machine

/-- A result leaves nothing to do but what the frames wait for. -/
theorem lightens_giving {w : Weight} {stack : List Frame} (hs : n.stack = stack)
    (hc : n.control = .give r) :
    (Job.mk .tame .text cells w stack).Lightens limit (n.duties limit cells) := by
  have hnone : n.control.weight? cells = none := by rw [hc]; rfl
  rw [duties, hnone, Option.elim_none, add_zero, hs]
  exact .base

/-- What is left of a container, and the part that is written, are lighter than all of it. -/
theorem lightens_renderParts {w : Weight} {opening closing : String} {held : List Value}
    {done : List String} {todo : List (String × Value)}
    (hw : ∀ k < todo.length, (⟨2, 2 * unvisited cells path + 2, k⟩ : Weight) < w) :
    (Job.mk .tame .text cells w m.stack).Lightens limit
      ((m.renderParts opening closing held done path pos todo).duties limit cells) := by
  cases todo with
  | nil => exact lightens_giving rfl rfl
  | cons part todo =>
    have hframe := hw todo.length (Nat.lt_succ_self _)
    have hpart : (⟨2, 2 * unvisited cells path + 1, 0⟩ : Weight) <
        ⟨2, 2 * unvisited cells path + 2, todo.length⟩ := .inr ⟨rfl, .inl (Nat.lt_succ_self _)⟩
    have hrender := Weight.lt_trans hpart hframe
    exact (Job.Lightens.base.add (Weight.duty_lt hframe _)).add (Weight.duty_lt hrender _)

structure Proceeds (below : List Frame) (start : List Ref) (m n : Machine) : Prop where
  writing : n.Writing below start
  store : n.store = m.store
  lighter : ∀ cells, (∀ r c, m.store.cell? r = some c → r < cells) →
    CutExpand (· < ·) (n.duties 0 cells) (m.duties 0 cells)

theorem Opens.proceeds {v : Value} {nested : Bool} (h : m.Opens path pos n)
    (hm : m.Writing below start) (hc : m.control = .render v nested path pos) :
    Proceeds below start m n := by
  have hpath : Extends start path := by
    have := hm.control
    rwa [hc] at this
  have hdoes : ∀ cells, m.Does cells ⟨2, 2 * unvisited cells path + 1, 0⟩ m.stack := fun cells =>
    .start (by rw [hc]; rfl)
  cases h with
  | text t =>
    refine ⟨hm.giving _, rfl, fun cells _ => ?_⟩
    exact cuts_of_lightens (hdoes cells) (lightens_giving rfl rfl)
  | @parts r opening closing held todo hr hcell =>
    refine ⟨hm.renderParts _ _ _ _ (hpath.cons hr) pos todo, renderParts_store .., ?_⟩
    intro cells hcells
    refine cuts_of_lightens (hdoes cells) (lightens_renderParts fun k hk => ?_)
    obtain ⟨c, hc⟩ := hcell (List.ne_nil_of_length_pos (Nat.zero_lt_of_lt hk))
    have hlt := unvisited_cons (hcells r c hc) hr
    exact .inr ⟨rfl, .inl (by simp only; omega)⟩

/-- A result for a frame of the writing. -/
theorem Writing.resumes {frames stack : List Frame} (hm : m.Writing below start)
    (hc : m.control = .give r) (hs : m.stack = frame :: stack) (hstack : stack = frames ++ below)
    (hframe : frame.OnPath start) (hframes : ∀ f ∈ frames, f.OnPath start) :
    Proceeds below start m ({ m with stack := stack }.resume r frame) := by
  have hrest : ({ m with stack := stack } : Machine).Writing below start :=
    ⟨⟨frames, hstack, hframes⟩, hm.control⟩
  have hdoes : ∀ cells, m.Does cells (frame.weight cells) stack := fun cells => .resume hc hs
  have hgiving : ∀ n : Machine, n.stack = stack → n.store = m.store → (∃ r, n.control = .give r) →
      Proceeds below start m n := by
    rintro n hn hstore ⟨r, hr⟩
    refine ⟨⟨⟨frames, hn.trans hstack, hframes⟩, by rw [hr]; trivial⟩, hstore, fun cells _ => ?_⟩
    exact cuts_of_lightens (hdoes cells) (lightens_giving hn hr)
  cases frame with
  | text f =>
    cases f with
    | texts => cases hframe
    | parts opening closing held done label todo path pos =>
      cases r with
      | text t =>
        refine ⟨hrest.renderParts _ _ _ _ hframe pos todo, renderParts_store .., fun cells _ => ?_⟩
        refine cuts_of_lightens (hdoes cells) (lightens_renderParts fun k hk => ?_)
        exact .inr ⟨rfl, .inr ⟨rfl, hk⟩⟩
      | _ => exact hgiving _ rfl rfl ⟨_, hc⟩
  | value f =>
    cases f with
    | strResult name pos =>
      cases r with
      | value v => cases v <;> exact hgiving _ rfl rfl ⟨_, rfl⟩
      | _ => exact hgiving _ rfl rfl ⟨_, hc⟩
    | _ => cases hframe
  | _ => cases hframe

/-- While a value is written, there is a next step, and if no `str` method is called by it, there is
    less to write. -/
theorem Writing.exists_step (hm : m.Writing below start) (hgo : ¬ m.Gives below) :
    ∃ n, m.step = .next n ∧
      ((∀ frame first, ¬ m.CallsStr frame first) → Proceeds below start m n) := by
  have hcontrol := hm.control
  cases hc : m.control with
  | render v nested path pos =>
    refine ⟨m.render v nested path pos, by rw [step, hc], fun hcalls => ?_⟩
    exact (opens_render hc hcalls).proceeds hm hc
  | give r =>
    obtain ⟨frames, hs, hf⟩ := hm.frames
    cases frames with
    | nil => exact absurd ⟨hs, r, hc⟩ hgo
    | cons frame frames =>
      obtain ⟨hframe, hframes⟩ := List.forall_mem_cons.1 hf
      exact ⟨_, step_give hc hs, fun _ => hm.resumes hc hs rfl hframe hframes⟩
  | _ =>
    rw [hc] at hcontrol
    cases hcontrol

theorem Writing.proceeds (hm : m.Writing below start) (hgo : ¬ m.Gives below)
    (hcalls : ∀ frame first, ¬ m.CallsStr frame first) (hstep : m.step = .next n) :
    Proceeds below start m n := by
  obtain ⟨n', hn', h⟩ := hm.exists_step hgo
  cases hn'.symm.trans hstep
  exact h hcalls

/-- The end of a call is given to a frame of the writing. -/
theorem Writing.writes (hm : m.Writing below start) (h : m.Writes below n) :
    n.Writing below start := by
  cases h with
  | step hgo hcalls hstep => exact (hm.proceeds hgo hcalls hstep).writing
  | call hcall hend =>
    obtain ⟨hs, hc⟩ := hend.gives
    obtain ⟨name, pos, rfl⟩ := hcall.eq_strResult
    obtain ⟨frames, hstack, hf⟩ := hm.frames
    refine ⟨⟨.value (.strResult name pos) :: frames, ?_, List.forall_mem_cons.2 ⟨trivial, hf⟩⟩, ?_⟩
    · rw [hs, hstack, List.cons_append]
    · rw [hc]
      trivial

theorem Writing.writesTo (hm : m.Writing below start) (h : ReflTransGen (Writes below) m n) :
    n.Writing below start := by
  induction h with
  | refl => exact hm
  | tail _ hw ih => exact ih.writes hw

/-! ## Endless writing -/

theorem Writing.run {run : Nat → Machine} (hm : (run 0).Writing below start)
    (hrun : ∀ k, (run k).Writes below (run (k + 1))) (k : Nat) : (run k).Writing below start := by
  induction k with
  | zero => exact hm
  | succ k ih => exact ih.writes (hrun k)

/-- From the last call on, the store stays as it is and there is less and less to write. So an
    endless run makes calls without end. -/
theorem Writing.not_finite {run : Nat → Machine} (hm : (run 0).Writing below start)
    (hrun : ∀ k, (run k).Writes below (run (k + 1))) :
    ¬ {k | ∃ frame first, (run k).CallsStr frame first}.Finite := by
  intro hfinite
  have hwriting := hm.run hrun
  obtain ⟨last, hlast⟩ := hfinite.bddAbove
  let rest := fun j => run (last + 1 + j)
  have hproceeds : ∀ j, Proceeds below start (rest j) (rest (j + 1)) := by
    intro j
    cases hrun (last + 1 + j) with
    | step hgo hcalls hstep => exact (hwriting _).proceeds hgo hcalls hstep
    | call hcall =>
      have hle := hlast ⟨_, _, hcall⟩
      omega
  have hstore : ∀ j, (rest j).store = (rest 0).store := by
    intro j
    induction j with
    | zero => rfl
    | succ j ih => rw [(hproceeds j).store, ih]
  obtain ⟨cells, hcells⟩ := (rest 0).store.exists_cells_lt
  have hwf : WellFounded (CutExpand (· < · : Duty → Duty → Prop)) := wellFounded_lt.cutExpand
  have hcuts : ∀ j, CutExpand (· < ·) ((rest (j + 1)).duties 0 cells) ((rest j).duties 0 cells) :=
    fun j => (hproceeds j).lighter cells (by rw [hstore j]; exact hcells)
  exact (wellFounded_iff_isEmpty_descending_chain.1 hwf).false
    ⟨fun j => (rest j).duties 0 cells, hcuts⟩

theorem Writing.acc (hm : m.Writing below start)
    (hfinite : ∀ run : Nat → Machine, run 0 = m → (∀ k, (run k).Writes below (run (k + 1))) →
      {k | ∃ frame first, (run k).CallsStr frame first}.Finite) :
    Acc (fun n m => Writes below m n) m := by
  by_contra hacc
  obtain ⟨run, rfl, hrun⟩ := not_acc_iff_exists_descending_chain.1 hacc
  exact hm.not_finite hrun (hfinite run rfl hrun)

/-- Where each call returns and the writing goes on for finitely many steps, it returns. A call is
    followed by what is written when it has ended, whatever its end is. -/
theorem Writing.returns (hm : m.Writing below start) (hacc : Acc (fun n m => Writes below m n) m)
    (hcalls : ∀ x frame first, ReflTransGen (Writes below) m x → x.CallsStr frame first →
      first.Returns (frame :: x.stack)) : m.Returns below := by
  induction hacc with
  | intro m _ ih =>
    have hnext : ∀ n, m.Writes below n → n.Returns below := fun n hn =>
      ih n hn (hm.writes hn) fun x frame first hx => hcalls x frame first (.head hn hx)
    by_cases hcall : ∃ frame first, m.CallsStr frame first
    · obtain ⟨frame, first, hcall⟩ := hcall
      refine .next hcall.step ((hcalls m frame first .refl hcall).trans fun r n hn => ?_)
      exact hnext n (.call hcall hn)
    · have hnone : ∀ frame first, ¬ m.CallsStr frame first := fun frame first h => hcall ⟨_, _, h⟩
      by_cases hg : m.Gives below
      · exact .here hg
      · obtain ⟨n, hstep, _⟩ := hm.exists_step hg
        exact .next hstep (hnext n (.step hg hnone hstep))

/-! ## Writing that returns -/

def Goes (below : List Frame) (m n : Machine) : Prop := ¬ m.Gives below ∧ m.Leads .any n

theorem Returns.acc (h : m.Returns below) : Acc (fun n m => Goes below m n) m := by
  induction h with
  | here hg => exact .intro _ fun _ h => absurd hg h.1
  | next hstep _ ih =>
    refine .intro _ fun _ hn => ?_
    cases hn.2 with
    | next hstep' =>
      cases hstep'.symm.trans hstep
      exact ih
    | ask _ hstep' => cases hstep'.symm.trans hstep
  | ask hstep _ ih =>
    refine .intro _ fun _ hn => ?_
    cases hn.2 with
    | next hstep' => cases hstep'.symm.trans hstep
    | ask _ hstep' =>
      cases hstep'.symm.trans hstep
      exact ih _

theorem goes_of_ends (he : Ends base r n m) (hb : base <:+ m.stack)
    (hlt : below.length < base.length) : ReflTransGen (Goes below) m n := by
  induction he with
  | here => exact .refl
  | next hgo hstep _ ih =>
    exact .head ⟨not_gives_of_suffix hb hlt, .next hstep⟩ (ih (suffix_of_next hb hgo hstep))
  | ask reply hstep _ ih =>
    have hrest := ih (hb.trans (moves_of_ask hstep reply).stack_suffix)
    exact .head ⟨not_gives_of_suffix hb hlt, .ask trivial hstep⟩ hrest

theorem Writing.lt_call (hm : m.Writing below start) (frame : Frame) :
    below.length < (frame :: m.stack).length :=
  Nat.lt_succ_of_le hm.suffix.length_le

theorem Writing.goes (hm : m.Writing below start) (h : m.Writes below n) :
    TransGen (Goes below) m n := by
  cases h with
  | step hgo _ hstep => exact .single ⟨hgo, .next hstep⟩
  | call hcall hend =>
    exact .head' ⟨hcall.not_gives, .next hcall.step⟩
      (goes_of_ends hend hcall.suffix (hm.lt_call _))

theorem Writing.returns_of_writes (hm : m.Writing below start) (h : m.Returns below)
    (hn : m.Writes below n) : n.Returns below := by
  cases hn with
  | step hgo _ hstep => exact h.of_next hgo hstep
  | call hcall hend =>
    exact .of_ends hend hcall.suffix (hm.lt_call _) (h.of_next hcall.not_gives hcall.step)

/-- What returns has no endless run. -/
theorem Writing.not_run {run : Nat → Machine} (hm : (run 0).Writing below start)
    (h : (run 0).Returns below) : ¬ ∀ k, (run k).Writes below (run (k + 1)) := by
  intro hrun
  refine (acc_iff_isEmpty_descending_chain.1 h.acc.transGen).false ⟨run, rfl, fun k => ?_⟩
  exact transGen_swap.2 ((hm.run hrun k).goes (hrun k))

theorem Writing.returns_of_writesTo (hm : m.Writing below start) (h : m.Returns below)
    (hn : ReflTransGen (Writes below) m n) : n.Returns below := by
  induction hn with
  | refl => exact h
  | tail hx hn ih => exact (hm.writesTo hx).returns_of_writes ih hn

end Machine

/-! ## When a value is written to its end -/

theorem Machine.writing_begin (m : Machine) (below : List Frame) (v : Value) (nested : Bool)
    (path : List Ref) (pos : Position) :
    (m.begin below (.text v nested path pos)).Writing below path :=
  ⟨⟨[], rfl, fun _ hf => absurd hf List.not_mem_nil⟩, List.suffix_rfl, id⟩

/-- A container on the path is written as dots. -/
theorem Machine.step_of_mem {r : Ref} {nested : Bool} (hr : r ∈ path) :
    (m.control = .render (.array r) nested path pos → m.step = .next (m.text "[...]")) ∧
    (m.control = .render (.object r) nested path pos →
      (∀ frame first, ¬ m.CallsStr frame first) →
      ∀ d c, m.store.classOf? r = some (d, c) → c.isUser = false →
        m.step = .next (m.text "\x7b...\x7d")) := by
  refine ⟨fun hc => ?_, fun hc hcalls d c hclass huser => ?_⟩
  · simp [step, hc, render, hr]
  · have hmethod : m.store.boundMethod? (.object r) "str" = none := by
      cases hf : m.store.boundMethod? (.object r) "str" with
      | none => rfl
      | some f => exact absurd (.call hc hf hclass) (hcalls _ _)
    simp [step, hc, render, hmethod, renderObject, hclass, huser, hr]

/-- The text of a value comes to its end, in every state and whatever the host answers, just if each
    call of a `str` method that is made for it returns and there are finitely many of them. A
    container is not entered while it is on the path, but written as dots. -/
theorem writing_returns_iff (m : Machine) (below : List Frame) (v : Value) (nested : Bool)
    (path : List Ref) (pos : Position) :
    ((m.begin below (.text v nested path pos)).Returns below ↔
      (∀ x frame first,
        ReflTransGen (Machine.Writes below) (m.begin below (.text v nested path pos)) x →
        x.CallsStr frame first → first.Returns (frame :: x.stack)) ∧
      ∀ run : Nat → Machine, run 0 = m.begin below (.text v nested path pos) →
        (∀ k, (run k).Writes below (run (k + 1))) →
        {k | ∃ frame first, (run k).CallsStr frame first}.Finite) ∧
    ∀ x, ReflTransGen (Machine.Writes below) (m.begin below (.text v nested path pos)) x →
      ∀ r u nested' path' pos', x.control = .render u nested' path' pos' →
        path <:+ path' ∧ (path.Nodup → path'.Nodup) ∧ (r ∈ path' →
          (u = .array r → x.step = .next (x.text "[...]")) ∧
          (u = .object r → (∀ frame first, ¬ x.CallsStr frame first) →
            ∀ d c, x.store.classOf? r = some (d, c) → c.isUser = false →
              x.step = .next (x.text "\x7b...\x7d"))) := by
  have hm := m.writing_begin below v nested path pos
  refine ⟨⟨fun h => ⟨fun x frame first hx hcall => ?_, fun run h0 hrun => ?_⟩, fun h => ?_⟩, ?_⟩
  · have hwriting := hm.writesTo hx
    have hfirst := (hm.returns_of_writesTo h hx).of_next hcall.not_gives hcall.step
    exact hfirst.above hcall.suffix (hwriting.lt_call frame)
  · rw [← h0] at hm h
    exact absurd hrun (hm.not_run h)
  · exact hm.returns (hm.acc h.2) h.1
  · intro x hx r u nested' path' pos' hc
    have hcontrol := (hm.writesTo hx).control
    rw [hc] at hcontrol
    refine ⟨hcontrol.1, hcontrol.2, fun hr => ⟨?_, ?_⟩⟩
    · rintro rfl
      exact (Machine.step_of_mem hr).1 hc
    · rintro rfl
      exact (Machine.step_of_mem hr).2 hc

end TinyScript

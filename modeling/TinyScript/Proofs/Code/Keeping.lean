/-
  TinyScript.Proofs.Code.Keeping — the code in the store keeps to the rules.

  Functions and classes are never changed. Whatever happens to a store, its code was there before
  (`Store.Inherits`), unless a declaration is carried out or a method is bound; and declarations are
  code of the program. So no step brings code into the store that does not keep to the rules
  (`Store.Keeps.next`, `Store.Keeps.ask`).
-/

import TinyScript.Proofs.Code.Stepping
import TinyScript.Proofs.Control.Creating
import TinyScript.Proofs.Control.Leading
import TinyScript.Proofs.Store.Collecting

namespace TinyScript

open TinyScript.Derivation Relation

variable {kept : List Ref} {i : Interpreter} {p : Program} {c : Cell}

def Cell.isCode : Cell → Bool
  | function _ | classDef _ => true
  | _ => false

namespace Store

def Inherits (s t : Store) : Prop :=
  ∀ r c, t.cell? r = some c → c.isCode = true → s.cell? r = some c

variable {k : Rules} {s t u : Store}

namespace Inherits

theorem refl (s : Store) : Inherits s s := fun _ _ hc _ => hc

theorem trans (h : Inherits s t) (h' : Inherits t u) : Inherits s u :=
  fun r c hc hcode => h r c (h' r c hc hcode) hcode

theorem of_cells (h : t.cells = s.cells) : Inherits s t := by
  intro r c hc _
  rwa [cell?, h] at hc

end Inherits

theorem inherits_insertCell (s : Store) (r : Ref) (hc : c.isCode = false) :
    Inherits s (s.insertCell r c) := by
  intro x d hd hcode
  rw [cell?_insertCell] at hd
  split at hd
  · cases hd
    rw [hc] at hcode
    cases hcode
  · exact hd

theorem inherits_alloc (s : Store) (hc : c.isCode = false) :
    Inherits s (s.alloc c).2 :=
  .trans (.of_cells rfl) (inherits_insertCell s.reserve s.next hc)

/-- A change of a container leaves code alone. -/
theorem ChangesCell.inherits {x : Ref} {f : Cell → Cell} (h : ChangesCell s t x f)
    (hf : ∀ c, (f c).isCode = true → f c = c) : Inherits s t := by
  intro r c hc hcode
  rw [h.cell?] at hc
  split at hc
  next hr =>
    obtain ⟨d, hd, rfl⟩ := Option.map_eq_some_iff.1 hc
    rw [hf d hcode, hr, hd]
  next => exact hc

theorem emptied_of_isCode (c : Cell) (h : c.emptied.isCode = true) : c.emptied = c := by
  cases c with
  | array => cases h
  | object => cases h
  | _ => rfl

theorem inherits_apply (s : Store) (c : Change) : Inherits s (s.apply c) := by
  cases c with
  | bind i name b => exact .of_cells (by rw [apply, bind, changeScope_cells])
  | setField r name v =>
    refine (changesCell_setField s r name v).inherits fun c hc => ?_
    cases c with
    | object => cases hc
    | _ => rfl
  | setItem r place v =>
    refine (changesCell_setItem s r place v).inherits fun c hc => ?_
    cases c with
    | array => cases hc
    | _ => rfl
  | append r v =>
    refine (changesCell_append s r v).inherits fun c hc => ?_
    cases c with
    | array => cases hc
    | _ => rfl
  | dropLast r =>
    refine (changesCell_dropLast s r).inherits fun c hc => ?_
    cases c with
    | array => cases hc
    | _ => rfl

theorem inherits_push (s : Store) (parent : ScopeId) (kind : ScopeKind) :
    Inherits s (s.push parent kind).2 :=
  .of_cells (push_cells s parent kind)

theorem inherits_newLease (s : Store) (i : ScopeId) (above : Option Ref) :
    Inherits s (s.newLease i above).2 := by
  unfold newLease
  split
  · exact inherits_insertCell s _ rfl
  · refine (inherits_alloc s (c := .lease i above) rfl).trans (.of_cells ?_)
    simp only [markScope, changeScope_cells]

theorem inherits_leaseFrom (s : Store) (n : Nat) (i : ScopeId) :
    Inherits s (s.leaseFrom n i).2 := by
  induction n generalizing i with
  | zero =>
    unfold leaseFrom
    split
    · exact .refl s
    · exact inherits_newLease s i none
  | succ n ih =>
    unfold leaseFrom
    split
    · exact .refl s
    · split
      next n' parent he _ =>
        cases he
        exact (ih parent).trans (inherits_newLease _ i _)
      next => exact inherits_newLease s i none

theorem inherits_settle (s : Store) (held : List Ref) : Inherits s (s.settle held) := by
  intro r c hc _
  rcases cell?_settle s held r with hn | he
  · rw [hn] at hc
    cases hc
  · rwa [he] at hc

theorem cells_foldl_freeScope (s : Store) (ids : List ScopeId) :
    (ids.foldl freeScope s).cells = s.cells := by
  induction ids generalizing s with
  | nil => rfl
  | cons i ids ih => exact (ih _).trans (changeScope_cells ..)

theorem inherits_carryOut (s : Store) (v : Verdict) : Inherits s (s.carryOut v) := by
  refine .trans (.of_cells (cells_foldl_freeScope s v.lost)) fun r c hc hcode => ?_
  have he : (v.unreached.foldl emptyCell (v.lost.foldl freeScope s)).cell? r = some c := hc
  rw [(emptiesAll_foldl _ _).cell?] at he
  split at he
  · obtain ⟨d, hd, rfl⟩ := Option.map_eq_some_iff.1 he
    rwa [emptied_of_isCode d hcode]
  · exact he

theorem inherits_collect (s : Store) (held : List Ref) : Inherits s (s.collect held) := by
  rw [collect_eq]
  exact (inherits_settle s held).trans
    (.trans (.of_cells (cells_foldl_freeScope _ _)) (inherits_carryOut _ _))

theorem inherits_retire (s : Store) (i : ScopeId) : Inherits s (s.retire i) :=
  .of_cells (changeScope_cells ..)

theorem inherits_release (s : Store) (held : List Ref) (i : ScopeId) :
    Inherits s (s.release held i) := by
  unfold release releaseLeased
  split
  · exact .refl s
  · split
    · exact .of_cells (changeScope_cells ..)
    · refine (inherits_settle s held).trans ?_
      dsimp only
      split
      · exact .of_cells (changeScope_cells ..)
      · split
        · exact (inherits_retire _ i).trans (inherits_collect _ held)
        · exact inherits_retire _ i

namespace Keeps

theorem inherits (h : Keeps k s) (hi : Inherits s t) : Keeps k t :=
  ⟨fun hf => h.functions (hi _ _ hf rfl), fun hc => h.methods (hi _ _ hc rfl)⟩

theorem allocFunction (h : Keeps k s) {f : Function} (hf : k.function f.decl = true) :
    Keeps k (s.alloc (.function f)).2 := by
  refine ⟨fun {r g} hg => ?_, fun {r c name g} hc => ?_⟩
  · rw [cell?_alloc] at hg
    split at hg
    · cases hg
      exact hf
    · exact h.functions hg
  · rw [cell?_alloc] at hc
    split at hc
    · cases hc
    · exact h.methods hc

theorem allocClass (h : Keeps k s) {d : Class} (hd : ∀ {name f}, d.methods.get? name = some f →
    k.names name = true ∧ k.function f.decl = true) : Keeps k (s.alloc (.classDef d)).2 := by
  refine ⟨fun {r g} hg => ?_, fun {r c name g} hc => ?_⟩
  · rw [cell?_alloc] at hg
    split at hg
    · cases hg
    · exact h.functions hg
  · rw [cell?_alloc] at hc
    split at hc
    · cases hc
      exact hd
    · exact h.methods hc

theorem alloc (h : Keeps k s) (hc : c.isCode = false) : Keeps k (s.alloc c).2 :=
  h.inherits (inherits_alloc s hc)

theorem capture (h : Keeps k s) (i : ScopeId) : Keeps k (s.capture i).2 :=
  h.inherits (inherits_leaseFrom s _ i)

theorem push (h : Keeps k s) (parent : ScopeId) (kind : ScopeKind) :
    Keeps k (s.push parent kind).2 :=
  h.inherits (inherits_push s parent kind)

end Keeps

end Store

/-! ## Steps -/

variable {k : Rules} {goal : Awaited} {m n : Machine}

structure Control.Declares (k : Rules) (c : Control) : Prop where
  function : ∀ d, c.function? = some d → k.function d = true
  classDef : ∀ d, c.class? = some d → k.classDef d = true

theorem Control.Fits.declares {want : Awaited} {p : Place} {c : Control} (h : c.Fits k want p) :
    c.Declares k := by
  constructor
  · intro d hd
    unfold Control.function? at hd
    split at hd
    · cases hd
      exact h.2
    · cases hd
      exact (Bool.and_eq_true_iff.1 h.2).2
    · cases hd
  · intro d hd
    unfold Control.class? at hd
    split at hd
    · cases hd
      exact h.2
    · cases hd
      exact (Bool.and_eq_true_iff.1 h.2).2
    · cases hd

theorem Rules.of_mem_methods {ds : List FunctionDecl} (h : k.methods ds = true) {d : FunctionDecl}
    (hd : d ∈ ds) : k.names d.shownName = true ∧ k.function d = true := by
  induction ds with
  | nil => cases hd
  | cons e ds ih =>
    rw [Rules.methods, Bool.and_eq_true_iff, Bool.and_eq_true_iff] at h
    cases hd with
    | head => exact h.1
    | tail _ hd => exact ih h.2 hd

theorem Rules.classDef_eq (d : ClassDecl) : k.classDef d = k.methods d.methods := by
  cases d
  rfl

namespace Store.Keeps

/-- A cell that is made keeps to the rules, for a declaration does. -/
theorem makes {control : Control} {objectClass : Ref} {s : Store} (h : Keeps k s)
    (hd : control.Declares k) (hc : s.Makes control objectClass c) : Keeps k (s.alloc c).2 := by
  cases hc with
  | function closure hf => exact h.allocFunction (hd.function _ hf)
  | bound hf => exact h.allocFunction (h.boundMethod? hf).2
  | @classDef d closure hc =>
    refine h.allocClass fun {name f} hf => ?_
    obtain ⟨decl, hdecl, he⟩ := List.mem_map.1 (Table.mem_of_get?_ofList hf)
    cases he
    exact Rules.of_mem_methods (Rules.classDef_eq d ▸ hd.classDef d hc) hdecl
  | hosted => exact h.allocClass fun hf => by simp [Class.hosted, Table.get?] at hf
  | _ => exact h.alloc rfl

theorem moves (h : Keeps k m.store) (hd : m.control.Declares k) (hm : Moves m n) :
    Keeps k n.store := by
  induction hm with
  | refl => exact h
  | go _ _ ih => exact ih
  | load _ _ _ _ ih => exact ih
  | push _ _ ih => exact ih
  | enterScope parent kind _ _ ih => exact ih.push parent kind
  | changed _ _ ih => exact ih.inherits (inherits_apply _ _)
  | make _ hc ih => exact ih.makes hd hc
  | capture _ ih => exact ih.capture _
  | enterCall _ _ _ _ _ ih => exact ih
  | loadModule _ _ ih => exact ih
  | loadProgram _ _ _ ih => exact ih

/-- An exit takes cells away at most. -/
theorem leave (h : Keeps k m.store) (r : Result) (e : ExitFrame) : Keeps k (m.leave r e).store := by
  cases e with
  | scope previous =>
    simp only [Machine.leave]
    split
    · exact h.inherits (inherits_release _ _ _)
    · exact h.inherits (inherits_retire _ _)
  | call f held pos =>
    cases r with
    | value v =>
      simp only [Machine.leave, Machine.proceed]
      split <;> exact h
    | _ => exact h
  | module path =>
    simp only [Machine.leave]
    split <;> exact h
  | run located =>
    simp only [Machine.leave]
    split <;> split
    · exact h.inherits (inherits_collect _ _)
    · exact h
    · exact h.inherits (inherits_collect _ _)
    · exact h
  | session previous => exact h

/-- No step brings code into the store that does not keep to the rules. -/
theorem next (h : Keeps k m.store) (hm : m.Fits k goal) (hstep : m.step = .next n) :
    Keeps k n.store := by
  have hd := hm.control.declares
  cases goes_of_next hstep with
  | start hn => exact h.moves hd hn
  | @resume _ _ _ stack _ _ _ hn => exact moves (m := { m with stack := stack }) h hd hn
  | @leave r e stack _ _ => exact leave (m := { m with stack := stack }) h r e

theorem ask (h : Keeps k m.store) (hm : m.Fits k goal) {request : Request}
    {resume : request.Reply → Machine} (hstep : m.step = .ask request resume)
    (reply : request.Reply) : Keeps k (resume reply).store :=
  h.moves hm.control.declares (moves_of_ask hstep reply)

/-! ## A new interpreter -/

theorem empty : Keeps k Store.empty := by
  have hbare : Keeps k Store.bare := ⟨fun hf => (by cases hf), fun hc => (by cases hc)⟩
  exact hbare.inherits (inherits_insertCell _ _ rfl)

/-- A new interpreter has no code of the script. -/
theorem built {objectClass : Ref} {s : Store} (h : s.Built objectClass) : Keeps k s := by
  induction h with
  | plain _ => exact empty.allocClass fun hf => by cases hf
  | make _ hc ih => exact ih.makes ⟨fun _ hd => (by cases hd), fun _ hd => (by cases hd)⟩ hc
  | bind name v _ ih => exact ih.inherits (inherits_apply _ (.bind Store.global name ⟨v, true⟩))

end Store.Keeps

/-! ## States -/

structure World.Keeps (k : Rules) (w : World) : Prop where
  runs : ∀ {source file p}, w.runs source file → parseSource source file = .ok p →
    k.program p = true
  answers : ∀ {request reply}, w.answers request reply → Request.Keeps k request reply

theorem parseSource_placed {source file : String} (h : parseSource source file = .ok p) :
    Rules.placed.program p = true := by
  unfold parseSource at h
  split at h
  · cases h
  · split at h
    · cases h
    next hp =>
      cases h
      exact program_placed hp

/-- Whatever is run or read is placed. -/
theorem World.keeps_any : World.any.Keeps .placed where
  runs _ hp := parseSource_placed hp
  answers {request reply} _ := by
    cases request with
    | read path => exact fun source p _ hp => parseSource_placed hp
    | _ => trivial

def State.Fits (k : Rules) : State → Prop
  | resting _ i => i.store.Keeps k
  | running m => (∃ goal, goal ≠ .flow ∧ m.Fits k goal) ∧ m.store.Keeps k

theorem Machine.fits_enter {file : String} (hp : k.program p = true) :
    (i.ready kept (.enter file p)).Fits k .value :=
  ⟨trivial, rfl, hp⟩

theorem Machine.fits_enterSession (hp : k.program p = true) :
    (i.enterSession kept p).Fits k .value := by
  let j : Job := ⟨k, .value, 0, ⟨8 * sizeOf p + 4, 0, 0⟩, (i.inSession kept).stack⟩
  have hstack : j.below = [.exit (.session Store.global)] := i.inSession_stack kept
  have hbase : j.At false .value (i.inSession kept).stack := ⟨.base, by rw [i.inSession_stack]; rfl⟩
  refine (hbase.program _ hp (fun _ _ => Nat.le_refl _) (Nat.le_refl _)).fits ?_
  rw [hstack]
  exact ⟨rfl, trivial⟩

theorem Store.Keeps.inSession (h : i.store.Keeps k) :
    (i.inSession kept).store.Keeps k := by
  rcases i.inSession_store kept with hs | hs <;> rw [hs]
  · exact h
  · exact (h.push _ _).capture _

theorem Store.Keeps.enterSession (h : i.store.Keeps k) : (i.enterSession kept p).store.Keeps k := by
  refine h.inSession.moves ?_ (Moves.refl.program _ p)
  rw [i.inSession_control]
  exact ⟨fun _ hd => (by cases hd), fun _ hd => (by cases hd)⟩

section

variable {w : World} {x y : State}

/-- One step, whatever the answer. -/
theorem Machine.Fits.leads (h : m.Fits k goal) (hs : m.store.Keeps k) (hw : w.Keeps k)
    (hn : m.Leads w n) : n.Fits k goal ∧ n.store.Keeps k := by
  cases hn with
  | next hstep => exact ⟨h.next hs hstep, hs.next h hstep⟩
  | ask hreply hstep => exact ⟨h.ask (hw.answers hreply) hstep, hs.ask h hstep _⟩

theorem Machine.Fits.leadsTo (h : m.Fits k goal) (hs : m.store.Keeps k) (hw : w.Keeps k)
    (hn : ReflTransGen (Machine.Leads w) m n) : n.Fits k goal ∧ n.store.Keeps k := by
  induction hn with
  | refl => exact ⟨h, hs⟩
  | tail _ hstep ih => exact ih.1.leads ih.2 hw hstep

/-- What keeps to the rules leads only to what does, if all that comes from outside does. -/
theorem State.Fits.leads (h : x.Fits k) (hw : w.Keeps k) (hy : x.Leads w y) : y.Fits k := by
  cases hy with
  | forget _ => exact h
  | run hrun hm =>
    obtain ⟨p, hp, rfl⟩ := eq_of_start hm
    exact ⟨⟨.value, by decide, Machine.fits_enter (hw.runs hrun hp)⟩, h⟩
  | session hrun hm =>
    obtain ⟨p, hp, rfl⟩ := eq_of_startSession hm
    exact ⟨⟨.value, by decide, Machine.fits_enterSession (hw.runs hrun hp)⟩,
      Store.Keeps.enterSession h⟩
  | render _ _ => exact ⟨⟨.text, by decide, trivial, rfl⟩, h⟩
  | next hstep =>
    obtain ⟨⟨goal, hgoal, hm⟩, hs⟩ := h
    obtain ⟨hn, hs⟩ := hm.leads hs hw (.next hstep)
    exact ⟨⟨goal, hgoal, hn⟩, hs⟩
  | ask hreply hstep =>
    obtain ⟨⟨goal, hgoal, hm⟩, hs⟩ := h
    obtain ⟨hn, hs⟩ := hm.leads hs hw (.ask hreply hstep)
    exact ⟨⟨goal, hgoal, hn⟩, hs⟩
  | done hstep =>
    obtain ⟨rfl, _⟩ := Machine.done_iff.1 hstep
    exact h.2

theorem State.Fits.leadsTo (h : x.Fits k) (hw : w.Keeps k) (hy : ReflTransGen (State.Leads w) x y) :
    y.Fits k := by
  induction hy with
  | refl => exact h
  | tail _ hstep ih => exact ih.leads hw hstep

end

/-- In every state that an interpreter comes to, all code is placed. -/
theorem Reached.fits {libraries : List Library} {maxDepth : Nat} {x : State}
    (h : Reached libraries maxDepth x) : x.Fits .placed := by
  obtain ⟨i, hi, hx⟩ := reached_iff.1 h
  have hnew : (State.resting [] i).Fits .placed :=
    Store.Keeps.built (Interpreter.new_of_create hi).built
  exact hnew.leadsTo World.keeps_any hx

end TinyScript

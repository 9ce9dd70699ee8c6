/-
  TinyScript.Proofs.Twin.Notebook — reclaiming scopes cannot be seen.

  A notebook that frees scopes and one that keeps everything do the same tasks. Their interpreters
  are at rest between tasks (`SameNotes`), so every task ends with the same outcome, and with the
  same lines printed and asked. The notebook that keeps everything never frees a place, so it never
  uses one again.
-/

import TinyScript.Notebook
import TinyScript.Proofs.Control.Leading
import TinyScript.Proofs.Twin.Resting

namespace TinyScript

open Store

/-! ## What is seen -/

/-- What a host sees of a task. How many scopes there are is not part of it. -/
def Report.answer (r : Report) : Outcome × List String × List String :=
  (r.outcome, r.log, r.prompts)

namespace Notebook

def keeping (n : Notebook) : Notebook :=
  { n with interpreter := { n.interpreter with reclaims := false } }

def after (fuel : Nat) (n : Notebook) (tasks : List Task) : Notebook :=
  tasks.foldl (fun n t => (n.perform fuel t).1) n

end Notebook

variable {kept : List Ref} {n n' : Notebook} {m m' : Machine} {v : Value} {fuel : Nat}

/-! ## Notebooks at rest -/

/-- The notebooks have the same at the desk and keep the same values, and their interpreters are at
    rest while the host holds these cells. -/
structure SameNotes (cells : List Ref) (n n' : Notebook) : Prop where
  atRest : AtRest cells n.interpreter n'.interpreter
  desk : n'.desk = n.desk
  kept : n'.kept = n.kept
  keeps : n.keptRefs ⊆ cells

namespace SameNotes

variable {cells : List Ref}

theorem keptRefs (h : SameNotes cells n n') : n'.keptRefs = n.keptRefs := by
  rw [Notebook.keptRefs, Notebook.keptRefs, h.kept]

theorem mono (h : SameNotes cells n n') {rest : List Ref} (hrest : rest ⊆ cells)
    (hkeeps : n.keptRefs ⊆ rest) : SameNotes rest n n' :=
  ⟨h.atRest.mono hrest, h.desk, h.kept, hkeeps⟩

/-- Nothing is held but what is kept. -/
theorem rest (h : SameNotes cells n n') : SameNotes n.keptRefs n n' :=
  h.mono h.keeps (List.Subset.refl _)

/-- The host does something at the desk. -/
theorem atDesk (h : SameNotes cells n n') (f : Desk → Desk) :
    SameNotes cells { n with desk := f n.desk } { n' with desk := f n'.desk } :=
  ⟨h.atRest, congrArg f h.desk, h.kept, h.keeps⟩

/-- Machines in step are driven to the same end. The result may be held after it. -/
theorem finish (h : SameNotes cells n n') (hm : InStep cells m m') (fuel : Nat) :
    (n'.finish fuel m').2 = (n.finish fuel m).2 ∧ (n.finish fuel m).1.kept = n.kept ∧
      SameNotes (((n.finish fuel m).2.map Result.refs).getD [] ++ cells) (n.finish fuel m).1
        (n'.finish fuel m').1 := by
  obtain ⟨hend, hdesk⟩ := drive_same Desk.answer fuel hm n.desk
  simp only [Notebook.finish, h.desk]
  generalize (drive Desk.answer fuel m).run n.desk = x,
    (drive Desk.answer fuel m').run n.desk = y at hend hdesk
  obtain ⟨x, d⟩ := x
  obtain ⟨y, d'⟩ := y
  cases (hdesk : d' = d)
  cases hend with
  | none => exact ⟨rfl, rfl, h.atRest, rfl, h.kept, h.keeps⟩
  | some hrest =>
    exact ⟨rfl, rfl, hrest, rfl, h.kept, fun r hr => List.mem_append_right _ (h.keeps hr)⟩

/-- A value that is held is written alike, and still held after it. -/
theorem display (h : SameNotes cells n n') (hv : v.refs ⊆ cells) (fuel : Nat) :
    (n'.display fuel v).2 = (n.display fuel v).2 ∧ (n.display fuel v).1.kept = n.kept ∧
      SameNotes (v.refs ++ n.keptRefs) (n.display fuel v).1 (n'.display fuel v).1 := by
  have hnotes : SameNotes (v.refs ++ n.keptRefs) n n' :=
    h.mono (List.append_subset.2 ⟨hv, h.keeps⟩) (List.subset_append_right _ _)
  obtain ⟨hr, hk, hs⟩ := hnotes.finish (h.atRest.startRender hv h.keeps) fuel
  unfold Notebook.display
  rw [h.keptRefs, h.atRest.shownType hv]
  generalize n.finish fuel (n.interpreter.startRender n.keptRefs v) = x,
    n'.finish fuel (n'.interpreter.startRender n.keptRefs v) = y at hr hk hs
  obtain ⟨n₁, r⟩ := x
  obtain ⟨n₂, _⟩ := y
  cases hr
  have hnext : SameNotes (v.refs ++ n.keptRefs) n₁ n₂ := by
    refine hs.mono (List.subset_append_right _ _) ?_
    rw [Notebook.keptRefs, hk]
    exact List.subset_append_right _ _
  cases r with
  | none => exact ⟨rfl, hk, hnext⟩
  | some r => cases r <;> exact ⟨rfl, hk, hnext⟩

end SameNotes

def SameWork (x y : Notebook × Outcome) : Prop :=
  y.2 = x.2 ∧ SameNotes x.1.keptRefs x.1 y.1

namespace SameNotes

variable {cells : List Ref}

theorem evaluate (h : SameNotes n.keptRefs n n') {start start' : Except Fault Machine}
    (hstart : SameResult (InStep n.keptRefs) start start') (fuel : Nat) (keep : Option String) :
    SameWork (n.evaluate fuel start keep) (n'.evaluate fuel start' keep) := by
  cases hstart with
  | error f => exact ⟨rfl, h⟩
  | @ok m m' hm =>
    obtain ⟨hr, hk, hs⟩ := h.finish hm fuel
    simp only [Notebook.evaluate]
    generalize n.finish fuel m = x, n'.finish fuel m' = y at hr hk hs
    obtain ⟨n₁, r⟩ := x
    obtain ⟨n₂, _⟩ := y
    cases hr
    cases r with
    | none => exact ⟨rfl, hs.rest⟩
    | some r =>
      cases r with
      | value v =>
        obtain ⟨ho, hkept, hs⟩ := hs.display (List.subset_append_left _ _) fuel
        simp only []
        generalize n₁.display fuel v = x, n₂.display fuel v = y at ho hkept hs
        obtain ⟨n₃, o⟩ := x
        obtain ⟨n₄, _⟩ := y
        cases ho
        cases keep with
        | none => exact ⟨rfl, hs.rest⟩
        | some name =>
          refine ⟨rfl, hs.atRest.mono fun r hr => ?_, hs.desk, ?_, List.Subset.refl _⟩
          · rcases mem_mapRefs_put (mem_valueRefs_values.1 hr) with hr | hr
            · rw [hkept] at hr
              exact List.mem_append_right _ (mem_valueRefs_values.2 hr)
            · exact List.mem_append_left _ hr
          · exact congrArg (·.put name v) hs.kept
      | _ => exact ⟨rfl, hs.rest⟩

theorem work (h : SameNotes n.keptRefs n n') (fuel : Nat) (t : Task) :
    SameWork (n.work fuel t) (n'.work fuel t) := by
  cases t with
  | run source file keep =>
    simp only [Notebook.work, h.keptRefs]
    exact h.evaluate (h.atRest.start source file) fuel keep
  | session source file keep =>
    simp only [Notebook.work, h.keptRefs]
    exact h.evaluate (h.atRest.startSession source file) fuel keep
  | «show» name =>
    simp only [Notebook.work, h.kept]
    have hv : ((n.kept.get? name).getD .nil).refs ⊆ n.keptRefs := by
      cases hg : n.kept.get? name with
      | none => exact List.nil_subset _
      | some v => exact fun r hr => mem_valueRefs_values.2 (mem_mapRefs.2 ⟨name, v, hg, hr⟩)
    obtain ⟨ho, _, hs⟩ := h.display hv fuel
    exact ⟨ho, hs.rest⟩
  | drop name =>
    refine ⟨rfl, h.atRest.mono fun r hr => ?_, h.desk, congrArg (·.drop name) h.kept,
      List.Subset.refl _⟩
    exact mem_valueRefs_values.2 (mem_mapRefs_drop (mem_valueRefs_values.1 hr))
  | write path content =>
    exact ⟨rfl, (h.atDesk fun d => { d with files := d.files.write path content }).rest⟩
  | remove path =>
    exact ⟨rfl, (h.atDesk fun d => { d with files := d.files.remove path }).rest⟩

theorem perform (h : SameNotes n.keptRefs n n') (fuel : Nat) (t : Task) :
    (n'.perform fuel t).2.answer = (n.perform fuel t).2.answer ∧
      SameNotes (n.perform fuel t).1.keptRefs (n.perform fuel t).1 (n'.perform fuel t).1 := by
  obtain ⟨ho, hs⟩ := (h.atDesk Desk.cleared).rest.work fuel t
  refine ⟨?_, hs⟩
  simp only [Notebook.perform, Report.answer]
  rw [ho, hs.desk]

theorem performAll (h : SameNotes n.keptRefs n n') (fuel : Nat) (tasks : List Task) :
    (n'.performAll fuel tasks).map Report.answer = (n.performAll fuel tasks).map Report.answer ∧
      SameNotes (n.after fuel tasks).keptRefs (n.after fuel tasks) (n'.after fuel tasks) := by
  induction tasks generalizing n n' with
  | nil => exact ⟨rfl, h⟩
  | cons t tasks ih =>
    obtain ⟨ha, hs⟩ := h.perform fuel t
    obtain ⟨hall, hend⟩ := ih hs
    exact ⟨congrArg₂ List.cons ha hall, hend⟩

end SameNotes

/-- A created notebook and one that keeps everything. -/
theorem sameNotes_create {libraries : List Library} {maxDepth : Nat} {files : Files}
    {answers : List String} (h : Notebook.create libraries maxDepth files answers = .ok n) :
    SameNotes n.keptRefs n n.keeping := by
  simp only [Notebook.create] at h
  cases hi : Interpreter.create libraries maxDepth with
  | error e =>
    rw [hi] at h
    cases h
  | ok i =>
    rw [hi] at h
    cases h
    exact ⟨atRest_create hi, rfl, rfl, List.Subset.refl _⟩

namespace Notebook

/-- Freeing scopes cannot be seen. Whatever the libraries, the files, the answers to prompts and the
    depth of calls, a notebook that frees scopes and one that keeps them all answer every task
    alike, and the latter has freed none. The functions of libraries may look into what they are
    given, compare it, change it as a script does, keep it and give other things for it
    (`HostCode`). They see no scopes and do not count references, for those are not alike. -/
theorem reports_of_keeping {libraries : List Library} {maxDepth : Nat} {files : Files}
    {answers : List String} {n : Notebook}
    (h : Notebook.create libraries maxDepth files answers = .ok n) (fuel : Nat)
    (tasks : List Task) :
    (n.keeping.performAll fuel tasks).map Report.answer =
        (n.performAll fuel tasks).map Report.answer ∧
      (n.keeping.after fuel tasks).interpreter.store.free = [] := by
  obtain ⟨hreports, hend⟩ := (sameNotes_create h).performAll fuel tasks
  obtain ⟨_, hrest⟩ := hend.atRest
  exact ⟨hreports, hrest.tracks.free⟩

/-- The host keeps an array. One function puts something into it, another one looks into it and
    gives what was put there last. -/
def shelf : Library :=
  ⟨"shelf", [("put", .function (some 1) fun _ => .change (.append 0 1) fun _ => .give 1),
    ("last", .function (some 0) fun _ => .look 0 fun
      | .array (n + 1) => .give (n + 1)
      | _ => .fail "The shelf is empty")]⟩

/-- The scope of a call binds a function that was made in it, so that it keeps itself. An array of
    it is on the shelf as well. -/
def tasksThatFree : List Task :=
  [.run "func f() \x7b let a = ['x']; a.add(a); shelf.put(a); func g() a; return g; \x7d f();" "a"
      (some "g"),
    .drop "g", .run "shelf.last();" "b" none]

/-- The scope of the call is retained after the first task and free after the last one, which gives
    the array that was bound there. -/
theorem reports_while_scopes_are_freed :
    ∃ n, Notebook.create [shelf] 4 ⟨[], []⟩ [] = .ok n ∧
      2 ∈ (n.after 60 (tasksThatFree.take 1)).interpreter.store.retained ∧
      2 ∈ (n.after 60 tasksThatFree).interpreter.store.free ∧
      ((n.performAll 60 tasksThatFree).getLast?.any
        (·.outcome matches .shown "Array" "['x', [...]]")) = true ∧
      (n.keeping.performAll 60 tasksThatFree).map Report.answer =
        (n.performAll 60 tasksThatFree).map Report.answer ∧
      (n.keeping.after 60 tasksThatFree).interpreter.store.free = [] := by
  have hruns : ((Notebook.create [shelf] 4 ⟨[], []⟩ []).toOption.any fun n =>
      decide (2 ∈ (n.after 60 (tasksThatFree.take 1)).interpreter.store.retained) &&
      decide (2 ∈ (n.after 60 tasksThatFree).interpreter.store.free) &&
      (n.performAll 60 tasksThatFree).getLast?.any
        (·.outcome matches .shown "Array" "['x', [...]]")) = true := by
    decide +kernel
  obtain ⟨n, hn, hruns⟩ := exists_ok_of_any hruns
  simp only [Bool.and_eq_true, decide_eq_true_eq] at hruns
  obtain ⟨⟨hretained, hfree⟩, hshown⟩ := hruns
  exact ⟨n, hn, hretained, hfree, hshown, reports_of_keeping hn 60 _⟩

end Notebook

end TinyScript

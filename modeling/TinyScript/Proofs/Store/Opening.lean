/-
  TinyScript.Proofs.Store.Opening — which scopes are open.

  A scope is open from when it is pushed until it is released. Its place is filed then, among the
  retained scopes or the free places, and filed places are distinct and not open (`Filed`). This is
  all that is needed to know what each operation does to the open scopes: pushing opens one that
  was not open (`Filed.push`), releasing closes just the scope it is about (`Filed.release`), and
  everything else, collections included, leaves them as they are (`SameOpen`). No cell, lease or
  chain plays a part in it.
-/

import TinyScript.Machine.Builtin
import TinyScript.Machine.Import
import TinyScript.Proofs.Store.Releasing

namespace TinyScript.Store

variable {s t u : Store} {held : List Ref} {i : ScopeId}

def isOpen (s : Store) (i : ScopeId) : Bool := !(s.scope i).released

def filed (s : Store) : List ScopeId := s.retained.toList ++ s.free

structure Filed (s : Store) : Prop where
  nodup : s.filed.Nodup
  lt_size : ∀ i ∈ s.filed, i < s.scopes.size
  closed : ∀ i ∈ s.filed, s.isOpen i = false

theorem Places.filed (h : Places s) : Filed s := by
  refine ⟨List.nodup_append.2 ⟨h.retainedNodup, h.freeNodup, ?_⟩, fun i hi => ?_, fun i hi => ?_⟩
  · rintro i hr _ hf rfl
    exact ((h.mem_retained i).1 (Array.mem_toList_iff.1 hr)).2.2 hf
  · rcases List.mem_append.1 hi with hr | hf
    · exact ((h.mem_retained i).1 (Array.mem_toList_iff.1 hr)).1
    · exact h.freeLt i hf
  · rcases List.mem_append.1 hi with hr | hf
    · rw [isOpen, ((h.mem_retained i).1 (Array.mem_toList_iff.1 hr)).2.1]
      rfl
    · rw [isOpen, h.vacant i hf]
      rfl

/-! ## Operations that open and close nothing -/

structure SameOpen (s t : Store) : Prop where
  size : t.scopes.size = s.scopes.size
  filed : t.filed.Perm s.filed
  isOpen : t.isOpen = s.isOpen

namespace SameOpen

theorem refl (s : Store) : SameOpen s s := ⟨rfl, .refl _, rfl⟩

theorem trans (h : SameOpen s t) (k : SameOpen t u) : SameOpen s u :=
  ⟨k.size.trans h.size, k.filed.trans h.filed, k.isOpen.trans h.isOpen⟩

end SameOpen

theorem Filed.sameOpen (h : Filed s) (hs : SameOpen s t) : Filed t := by
  refine ⟨hs.filed.nodup_iff.2 h.nodup, fun i hi => ?_, fun i hi => ?_⟩
  · rw [hs.size]
    exact h.lt_size i (hs.filed.mem_iff.1 hi)
  · rw [hs.isOpen]
    exact h.closed i (hs.filed.mem_iff.1 hi)

theorem SameScopes.sameOpen (h : SameScopes s t) : SameOpen s t := by
  refine ⟨h.size, ?_, funext fun i => ?_⟩
  · rw [filed, filed, h.free, h.retained]
  · rw [isOpen, isOpen, h.scope]

theorem ChangesScope.sameOpen {f : Scope → Scope} (h : ChangesScope s t i f)
    (hf : (f (s.scope i)).released = (s.scope i).released) : SameOpen s t := by
  refine ⟨h.size, ?_, funext fun j => ?_⟩
  · rw [filed, filed, h.free, h.retained]
  · rw [isOpen, isOpen, h.scope]
    split
    next hj => rw [hf, hj]
    next => rfl

theorem sameOpen_alloc (s : Store) (c : Cell) : SameOpen s (s.alloc c).2 := ⟨rfl, .refl _, rfl⟩

theorem sameOpen_insertCell (s : Store) (r : Ref) (c : Cell) : SameOpen s (s.insertCell r c) :=
  (sameScopes_insertCell s r c).sameOpen

theorem sameOpen_bind (s : Store) (i : ScopeId) (name : String) (b : Binding) :
    SameOpen s (s.bind i name b) := by
  by_cases hi : i < s.scopes.size
  · exact (changesScope_bind s name b hi).sameOpen rfl
  · simp only [Store.bind, changeScope, hi, dite_false]
    exact .refl s

theorem sameOpen_apply (s : Store) (c : Change) : SameOpen s (s.apply c) := by
  cases c with
  | bind i name b => exact sameOpen_bind s i name b
  | setField x name v => exact (changesCell_setField s x name v).same.sameOpen
  | setItem x place v => exact (changesCell_setItem s x place v).same.sameOpen
  | append x v => exact (changesCell_append s x v).same.sameOpen
  | dropLast x => exact (changesCell_dropLast s x).same.sameOpen

theorem sameOpen_markLease (s : Store) (i : ScopeId) (lease : Ref) : SameOpen s
    (s.markScope i (fun scope => { scope with lease := some lease }) fun _ => rfl) := by
  by_cases hi : i < s.scopes.size
  · exact (changesScope_markScope s (fun scope => { scope with lease := some lease })
      (fun _ => rfl) hi).sameOpen rfl
  · simp only [markScope, changeScope, hi, dite_false]
    exact .refl s

theorem sameOpen_newLease (s : Store) (i : ScopeId) (above : Option Ref) :
    SameOpen s (s.newLease i above).2 := by
  unfold newLease
  split
  · exact sameOpen_insertCell s _ _
  · exact (sameOpen_alloc s (.lease i above)).trans (sameOpen_markLease _ i _)

theorem sameOpen_leaseFrom (s : Store) (n : Nat) (i : ScopeId) :
    SameOpen s (s.leaseFrom n i).2 := by
  induction n generalizing i with
  | zero =>
    unfold leaseFrom
    split
    · exact .refl s
    · exact sameOpen_newLease s i none
  | succ n ih =>
    unfold leaseFrom
    split
    · exact .refl s
    · split
      next n' parent he _ =>
        cases he
        exact (ih parent).trans (sameOpen_newLease _ i _)
      next => exact sameOpen_newLease s i none

theorem sameOpen_capture (s : Store) (i : ScopeId) : SameOpen s (s.capture i).2 :=
  sameOpen_leaseFrom s _ i

/-! ## Collections -/

theorem isOpen_vacated (s : Store) (i : ScopeId) : (vacated (s.scope i)).released = true := rfl

/-- Freeing filed scopes opens and closes nothing. -/
theorem FreesAll.isOpen {ids : List ScopeId} (h : FreesAll s t ids)
    (hids : ∀ i ∈ ids, s.isOpen i = false) : t.isOpen = s.isOpen := by
  funext i
  rw [Store.isOpen, h.scope]
  by_cases hi : i ∈ ids
  · rw [if_pos hi, isOpen_vacated, hids i hi]
    rfl
  · rw [if_neg hi]
    rfl

/-- A collection moves retained scopes to the free places and does nothing else to scopes. -/
theorem Filed.collect (h : Filed s) (held : List Ref) : SameOpen s (s.collect held) := by
  have hsettle := (sameScopes_settle s held).sameOpen
  refine hsettle.trans ?_
  have hfiled := h.sameOpen hsettle
  rw [collect_eq]
  generalize s.settle held = s at *
  generalize hv : (s.forsaken.foldl freeScope s).judge _ s.candidates = v
  obtain ⟨stays, hkept, hlost⟩ : ∃ stays : ScopeId → Bool,
      v.kept = s.candidates.filter stays ∧ v.lost = s.candidates.filter fun i => !stays i :=
    ⟨_, congrArg Verdict.kept hv.symm, congrArg Verdict.lost hv.symm⟩
  have hmem : ∀ i ∈ s.forsaken ++ v.lost, i ∈ s.filed := by
    intro i hi
    rcases List.mem_append.1 hi with hi | hi
    · exact List.mem_append_left _ (Array.mem_toList_iff.2 (mem_forsaken.1 hi).1)
    · rw [hlost] at hi
      exact List.mem_append_left _
        (Array.mem_toList_iff.2 (mem_candidates.1 (List.mem_of_mem_filter hi)).1)
  have hfree : FreesAll s (v.lost.foldl freeScope (s.forsaken.foldl freeScope s))
      (s.forsaken ++ v.lost) := by
    rw [← List.foldl_append]
    exact freesAll_foldl s _ fun i hi => hfiled.lt_size i (hmem i hi)
  have hempty := (emptiesAll_foldl (v.lost.foldl freeScope (s.forsaken.foldl freeScope s))
    v.unreached).same
  refine ⟨hempty.size.trans hfree.size, ?_, ?_⟩
  · -- What is retained is forsaken or a candidate, and a candidate is kept or lost.
    have hretained : (v.kept ++ (s.forsaken ++ v.lost)).Perm s.retained.toList := by
      have hc : (v.kept ++ v.lost).Perm s.candidates := by
        rw [hkept, hlost]
        exact List.filter_append_perm _ _
      have hr : (s.candidates ++ s.forsaken).Perm s.retained.toList :=
        List.filter_append_perm _ _
      refine .trans ?_ hr
      refine .trans (List.perm_append_comm.append_left _) ?_
      rw [← List.append_assoc]
      exact hc.append_right _
    have hplaces : ((s.forsaken.foldl freeScope s).carryOut v).free =
        (s.forsaken ++ v.lost).reverse ++ s.free := hempty.free.trans hfree.free
    rw [filed, hplaces, ← List.append_assoc]
    exact (((List.reverse_perm _).append_left _).trans hretained).append_right _
  · refine .trans (funext fun i => ?_) (hfree.isOpen fun i hi => hfiled.closed i (hmem i hi))
    exact congrArg (fun scope : Scope => !scope.released) (hempty.scope i)

/-! ## Opening and closing -/

def openBut (opened : ScopeId → Bool) (i : ScopeId) : ScopeId → Bool :=
  fun j => opened j && decide (j ≠ i)

/-- Closing what was not open before it was opened gives the scopes that were open. -/
theorem openBut_eq {opened before : ScopeId → Bool} (hi : before i = false)
    (h : ∀ j, j ≠ i → opened j = before j) : openBut opened i = before := by
  funext j
  by_cases hj : j = i
  · simp [openBut, hj, hi]
  · simp [openBut, hj, h j hj]

theorem openBut_of_not {opened : ScopeId → Bool} (hi : opened i = false) :
    openBut opened i = opened :=
  openBut_eq hi fun _ _ => rfl

theorem Filed.not_mem_of_open (h : Filed s) (hi : s.isOpen i = true) : i ∉ s.filed := by
  intro hm
  rw [h.closed i hm] at hi
  cases hi

theorem lt_size_of_open (hi : s.isOpen i = true) : i < s.scopes.size := by
  by_contra hlt
  rw [isOpen, scope_of_ge (Nat.not_lt.1 hlt)] at hi
  cases hi

/-- A scope that is pushed was not open, and becomes so. -/
theorem Filed.push (h : Filed s) (parent : ScopeId) (kind : ScopeKind) :
    Filed (s.push parent kind).2 ∧ s.isOpen (s.push parent kind).1 = false ∧
      (s.push parent kind).2.isOpen (s.push parent kind).1 = true ∧
      ∀ j, j ≠ (s.push parent kind).1 → (s.push parent kind).2.isOpen j = s.isOpen j := by
  have hp := pushes_push s parent kind fun i hi => h.lt_size i (List.mem_append_right _ hi)
  generalize (s.push parent kind).1 = i at *
  generalize (s.push parent kind).2 = t at *
  have hother : ∀ j, j ≠ i → t.isOpen j = s.isOpen j := by
    intro j hj
    rw [isOpen, hp.scope_of_ne hj]
    rfl
  have hself : t.isOpen i = true := by
    rw [isOpen, hp.scope_self]
    rfl
  rcases hp.place with ⟨hfree, hsize⟩ | ⟨hfree, hfree', rfl, hsize⟩
  · have hfiled : s.filed.Perm (i :: t.filed) := by
      rw [filed, hfree, filed, hp.retained]
      exact List.perm_middle
    have hd := List.nodup_cons.1 (hfiled.nodup_iff.1 h.nodup)
    refine ⟨⟨hd.2, fun j hj => ?_, fun j hj => ?_⟩, ?_, hself, hother⟩
    · rw [hsize]
      exact h.lt_size j (hfiled.mem_iff.2 (List.mem_cons_of_mem _ hj))
    · rw [hother j fun e => hd.1 (e ▸ hj)]
      exact h.closed j (hfiled.mem_iff.2 (List.mem_cons_of_mem _ hj))
    · exact h.closed i (hfiled.mem_iff.2 (List.mem_cons_self ..))
  · have hfiled : t.filed = s.filed := by rw [filed, filed, hfree, hfree', hp.retained]
    refine ⟨⟨hfiled ▸ h.nodup, fun j hj => ?_, fun j hj => ?_⟩, ?_, hself, hother⟩
    · rw [hsize]
      exact Nat.lt_succ_of_lt (h.lt_size j (hfiled ▸ hj))
    · rw [hother j (Nat.ne_of_lt (h.lt_size j (hfiled ▸ hj)))]
      exact h.closed j (hfiled ▸ hj)
    · rw [isOpen, scope_of_ge (Nat.le_refl _)]
      rfl

/-- Filing the place of an open scope closes it. -/
theorem Filed.close (h : Filed s) (hi : s.isOpen i = true) (hsize : t.scopes.size = s.scopes.size)
    (hfiled : t.filed.Perm (i :: s.filed)) (hopen : t.isOpen = openBut s.isOpen i) : Filed t := by
  refine ⟨hfiled.nodup_iff.2 (List.nodup_cons.2 ⟨h.not_mem_of_open hi, h.nodup⟩), ?_, ?_⟩
  · intro j hj
    rw [hsize]
    rcases List.mem_cons.1 (hfiled.mem_iff.1 hj) with rfl | hj
    · exact lt_size_of_open hi
    · exact h.lt_size j hj
  · intro j hj
    rw [hopen]
    rcases List.mem_cons.1 (hfiled.mem_iff.1 hj) with rfl | hj
    · simp [openBut]
    · simp [openBut, h.closed j hj]

theorem Frees.closes (hf : Frees s t i) (h : Filed s) (hi : s.isOpen i = true) :
    Filed t ∧ t.isOpen = openBut s.isOpen i := by
  have hopen : t.isOpen = openBut s.isOpen i := by
    funext j
    rw [isOpen, hf.scope]
    by_cases hj : j = i
    · simp [hj, openBut, isOpen_vacated]
    · simp [hj, openBut, isOpen]
  refine ⟨h.close hi hf.size ?_ hopen, hopen⟩
  rw [filed, hf.free, hf.retained]
  exact List.perm_middle

theorem Retires.closes (hr : Retires s t i) (h : Filed s) (hi : s.isOpen i = true) :
    Filed t ∧ t.isOpen = openBut s.isOpen i := by
  have hopen : t.isOpen = openBut s.isOpen i := by
    funext j
    rw [isOpen, hr.scope]
    by_cases hj : j = i
    · simp [hj, openBut]
    · simp [hj, openBut, isOpen]
  refine ⟨h.close hi hr.size ?_ hopen, hopen⟩
  rw [filed, hr.free, hr.retained, Array.toList_push, List.append_assoc]
  exact List.perm_middle

theorem release_of_not_isOpen (held : List Ref) (hi : ¬ s.isOpen i = true) :
    s.release held i = s :=
  release_of_released held (by simpa [isOpen] using hi)

/-- Releasing closes the scope, and no other. -/
theorem Filed.release (h : Filed s) (held : List Ref) (i : ScopeId) :
    Filed (s.release held i) ∧ (s.release held i).isOpen = openBut s.isOpen i := by
  by_cases hi : s.isOpen i = true
  · have hsame := (sameScopes_settle s held).sameOpen
    have hs := h.sameOpen hsame
    have hi' : (s.settle held).isOpen i = true := by rw [hsame.isOpen, hi]
    rcases release_cases held (by simpa [isOpen] using hi) (lt_size_of_open hi) with
      ⟨_, hf⟩ | ⟨_, hf⟩ | ⟨_, t, ht, ⟨_, he⟩ | he⟩
    · exact hf.closes h hi
    · exact hsame.isOpen ▸ hf.closes hs hi'
    · exact he ▸ hsame.isOpen ▸ ht.closes hs hi'
    · have hc := ht.closes hs hi'
      rw [he, (hc.1.collect held).isOpen]
      exact ⟨hc.1.sameOpen (hc.1.collect held), hsame.isOpen ▸ hc.2⟩
  · rw [release_of_not_isOpen held hi, openBut_of_not (Bool.not_eq_true _ ▸ hi)]
    exact ⟨h, rfl⟩

end TinyScript.Store

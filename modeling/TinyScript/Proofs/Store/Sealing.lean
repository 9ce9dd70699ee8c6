/-
  TinyScript.Proofs.Store.Sealing — what cannot change in the global scope.

  All names of the global scope are constants, and no block lies right under it (`Sealed`). So
  nothing that is done in another scope binds a name there: a declaration binds in the scope
  itself, a variable goes no further up than the first scope that is not a block, and what is
  assigned to is no constant. The other operations change no binding, except of scopes that they
  free (`Thins`).
-/

import TinyScript.Proofs.Property.Typing
import TinyScript.Proofs.Store.Opening

namespace TinyScript

open TinyScript.Text

variable {c : Change}

/-! ## Scopes that stay or are freed -/

/-- The scope binds the same and lies under the same one, or it is not open and lies under none. It
    is not opened. -/
structure Scope.Thins (a b : Scope) : Prop where
  opens : b.released = false → a.released = false
  kind : b.kind = a.kind
  rest : b.bindings = a.bindings ∧ b.parent = a.parent ∨ b.released = true ∧ b.parent = none

namespace Scope.Thins

theorem refl (a : Scope) : a.Thins a := ⟨id, rfl, .inl ⟨rfl, rfl⟩⟩

theorem trans {a b c : Scope} (h : a.Thins b) (k : b.Thins c) : a.Thins c := by
  refine ⟨fun hc => h.opens (k.opens hc), k.kind.trans h.kind, ?_⟩
  rcases k.rest with ⟨hb, hp⟩ | hgone
  · rcases h.rest with ⟨hb', hp'⟩ | ⟨hclosed, hp'⟩
    · exact .inl ⟨hb.trans hb', hp.trans hp'⟩
    · refine .inr ⟨?_, hp.trans hp'⟩
      cases hc : c.released with
      | true => rfl
      | false => exact (k.opens hc).symm.trans hclosed
  · exact .inr hgone

theorem vacated (a : Scope) : a.Thins (Store.vacated a) := ⟨nofun, rfl, .inr ⟨rfl, rfl⟩⟩

end Scope.Thins

namespace Store

variable {s t u : Store} {held : List Ref} {i j : ScopeId} {names : Table Binding}

def Thins (s t : Store) : Prop := ∀ j, (s.scope j).Thins (t.scope j)

theorem Thins.trans (h : Thins s t) (k : Thins t u) : Thins s u := fun j => (h j).trans (k j)

theorem SameScopes.thins (h : SameScopes s t) : Thins s t := by
  intro j
  rw [h.scope]
  exact .refl _

theorem ChangesScope.thins {f : Scope → Scope} (h : ChangesScope s t i f)
    (hf : (s.scope i).Thins (f (s.scope i))) : Thins s t := by
  intro j
  rw [h.scope]
  split
  next hj => rwa [hj]
  next => exact .refl _

theorem FreesAll.thins {ids : List ScopeId} (h : FreesAll s t ids) : Thins s t := by
  intro j
  rw [h.scope]
  split
  · exact .vacated _
  · exact .refl _

theorem Frees.thins (h : Frees s t i) : Thins s t := by
  intro j
  rw [h.scope]
  split
  next hj =>
    rw [hj]
    exact .vacated _
  next => exact .refl _

theorem Retires.thins (h : Retires s t i) : Thins s t := by
  intro j
  rw [h.scope]
  split
  next hj =>
    rw [hj]
    exact ⟨nofun, rfl, .inl ⟨rfl, rfl⟩⟩
  next => exact .refl _

theorem thins_markLease (s : Store) (i : ScopeId) (lease : Ref) : Thins s
    (s.markScope i (fun scope => { scope with lease := some lease }) fun _ => rfl) := by
  by_cases hi : i < s.scopes.size
  · exact (changesScope_markScope s (fun scope => { scope with lease := some lease })
      (fun _ => rfl) hi).thins ⟨id, rfl, .inl ⟨rfl, rfl⟩⟩
  · simp only [markScope, changeScope, hi, dite_false]
    exact fun j => .refl _

theorem thins_newLease (s : Store) (i : ScopeId) (above : Option Ref) :
    Thins s (s.newLease i above).2 := by
  unfold newLease
  split
  · exact (sameScopes_insertCell s _ _).thins
  · have halloc : Thins s (s.alloc (.lease i above)).2 := fun j => .refl _
    exact halloc.trans (thins_markLease _ i _)

theorem thins_leaseFrom (s : Store) (n : Nat) (i : ScopeId) : Thins s (s.leaseFrom n i).2 := by
  induction n generalizing i with
  | zero =>
    unfold leaseFrom
    split
    · exact fun j => .refl _
    · exact thins_newLease s i none
  | succ n ih =>
    unfold leaseFrom
    split
    · exact fun j => .refl _
    · split
      next n' parent he _ =>
        cases he
        exact (ih parent).trans (thins_newLease _ i _)
      next => exact thins_newLease s i none

/-- A collection frees scopes, in two rounds, and then empties cells. -/
theorem Filed.collect_frees (h : Filed s) (held : List Ref) : ∃ t u gone lost, ∃ cells : List Ref,
    FreesAll (s.settle held) t gone ∧ FreesAll t u lost ∧
    (∀ j, (s.collect held).scope j = u.scope j) ∧
    ∀ r, (s.collect held).cell? r =
      if r ∈ cells then (u.cell? r).map Cell.emptied else u.cell? r := by
  have hfiled := h.sameOpen (sameScopes_settle s held).sameOpen
  rw [collect_eq]
  generalize s.settle held = s at *
  generalize hv : (s.forsaken.foldl freeScope s).judge _ s.candidates = v
  have hlost : ∀ i ∈ v.lost, i ∈ s.retained := by
    intro i hi
    rw [← hv] at hi
    exact (mem_candidates.1 (List.mem_of_mem_filter hi)).1
  have hlt : ∀ i ∈ s.retained, i < s.scopes.size := fun i hi =>
    hfiled.lt_size i (List.mem_append_left _ (Array.mem_toList_iff.2 hi))
  have hgone := freesAll_foldl s s.forsaken fun i hi => hlt i (mem_forsaken.1 hi).1
  have hfreed := freesAll_foldl (s.forsaken.foldl freeScope s) v.lost fun i hi =>
    hgone.size ▸ hlt i (hlost i hi)
  have hempty := emptiesAll_foldl (v.lost.foldl freeScope (s.forsaken.foldl freeScope s))
    v.unreached
  exact ⟨_, _, _, _, _, hgone, hfreed, hempty.same.scope, hempty.cell?⟩

theorem Filed.thins_collect (h : Filed s) (held : List Ref) : Thins s (s.collect held) := by
  obtain ⟨_, _, _, _, _, hgone, hlost, hscope, _⟩ := h.collect_frees held
  intro j
  rw [hscope]
  exact (((sameScopes_settle s held).thins.trans hgone.thins).trans hlost.thins) j

theorem Filed.thins_release (h : Filed s) (held : List Ref) (i : ScopeId) :
    Thins s (s.release held i) := by
  by_cases hi : s.isOpen i = true
  · have hsame := sameScopes_settle s held
    have hs := h.sameOpen hsame.sameOpen
    rcases release_cases held (by simpa [isOpen] using hi) (lt_size_of_open hi) with
      ⟨_, hf⟩ | ⟨_, hf⟩ | ⟨_, t, ht, ⟨_, he⟩ | he⟩
    · exact hf.thins
    · exact hsame.thins.trans hf.thins
    · exact he ▸ hsame.thins.trans ht.thins
    · have hi' : (s.settle held).isOpen i = true := by rw [hsame.sameOpen.isOpen, hi]
      rw [he]
      exact (hsame.thins.trans ht.thins).trans ((ht.closes hs hi').1.thins_collect held)
  · rw [release_of_not_isOpen held hi]
    exact fun j => .refl _

/-! ## The global scope -/

/-- The global scope binds just these names, all of them for good, and no block lies right under
    it. -/
structure Sealed (names : Table Binding) (s : Store) : Prop where
  filed : Filed s
  opened : s.isOpen global = true
  bindings : (s.scope global).bindings = names
  constant : ∀ name b, names.get? name = some b → b.constant = true
  block : ∀ i, (s.scope i).kind = .block → (s.scope i).parent ≠ some global

namespace Sealed

theorem thins (h : Sealed names s) (ht : Thins s t) (hf : Filed t) (ho : t.isOpen global = true) :
    Sealed names t := by
  refine ⟨hf, ho, ?_, h.constant, fun i hi => ?_⟩
  · rcases (ht global).rest with hsame | hgone
    · exact hsame.1.trans h.bindings
    · simp [isOpen, hgone.1] at ho
  · rw [(ht i).kind] at hi
    rcases (ht i).rest with hsame | hgone
    · rw [hsame.2]
      exact h.block i hi
    · simp [hgone.2]

theorem sameOpen (h : Sealed names s) (ht : Thins s t) (hs : SameOpen s t) : Sealed names t :=
  h.thins ht (h.filed.sameOpen hs) (hs.isOpen ▸ h.opened)

theorem sameScopes (h : Sealed names s) (hs : SameScopes s t) : Sealed names t :=
  h.sameOpen hs.thins hs.sameOpen

theorem capture (h : Sealed names s) (i : ScopeId) : Sealed names (s.capture i).2 :=
  h.sameOpen (thins_leaseFrom s _ i) (sameOpen_capture s i)

theorem collect (h : Sealed names s) (held : List Ref) : Sealed names (s.collect held) :=
  h.sameOpen (h.filed.thins_collect held) (h.filed.collect held)

theorem release (h : Sealed names s) (held : List Ref) (hi : i ≠ global) :
    Sealed names (s.release held i) := by
  obtain ⟨hf, ho⟩ := h.filed.release held i
  refine h.thins (h.filed.thins_release held i) hf ?_
  rw [ho]
  simp [openBut, h.opened, hi.symm]

/-- A scope that is pushed is not the global one. -/
theorem push (h : Sealed names s) (parent : ScopeId) (kind : ScopeKind)
    (hp : kind = .block → parent ≠ global) :
    Sealed names (s.push parent kind).2 ∧ (s.push parent kind).1 ≠ global := by
  obtain ⟨hf, hclosed, _, hother⟩ := h.filed.push parent kind
  have hpush := pushes_push s parent kind fun i hi =>
    h.filed.lt_size i (List.mem_append_right _ hi)
  have hne : (s.push parent kind).1 ≠ global := by
    intro he
    rw [he, h.opened] at hclosed
    cases hclosed
  refine ⟨⟨hf, ?_, ?_, h.constant, fun i hi => ?_⟩, hne⟩
  · rw [hother _ hne.symm, h.opened]
  · rw [hpush.scope_of_ne hne.symm, h.bindings]
  · rw [hpush.scope] at hi ⊢
    split at hi
    next he =>
      rw [if_pos he]
      intro hparent
      exact hp hi (Option.some.inj hparent)
    next hne =>
      rw [if_neg hne]
      exact h.block i hi

theorem bind (h : Sealed names s) (hi : i ≠ global) (name : String) (b : Binding) :
    Sealed names (s.bind i name b) := by
  by_cases hlt : i < s.scopes.size
  · have hc := changesScope_bind s name b hlt
    have ho := sameOpen_bind s i name b
    refine ⟨h.filed.sameOpen ho, ho.isOpen ▸ h.opened, ?_, h.constant, fun j hj => ?_⟩
    · rw [hc.scope, if_neg hi.symm, h.bindings]
    · rw [hc.scope] at hj ⊢
      split at hj
      next he =>
        rw [if_pos he]
        exact h.block i hj
      next hne =>
        rw [if_neg hne]
        exact h.block j hj
  · simp only [Store.bind, changeScope, hlt, dite_false]
    exact h

/-! ## Changes that a script makes -/

/-- Up from another scope, the global one comes after one that is not a block. -/
theorem chainFrom_ne (h : Sealed names s) (n : Nat) (hi : i ≠ global) :
    (∀ j, (s.chainFrom n (some i)).find? (fun i => (s.scope i).kind ≠ .block) = some j →
      j ≠ global) ∧
    ((s.chainFrom n (some i)).find? (fun i => (s.scope i).kind ≠ .block) = none →
      ∀ j ∈ s.chainFrom n (some i), j ≠ global) := by
  induction n generalizing i with
  | zero => simp [chainFrom]
  | succ n ih =>
    rw [chainFrom]
    by_cases hk : (s.scope i).kind = .block
    · rw [List.find?_cons_of_neg (by simp [hk])]
      cases hp : (s.scope i).parent with
      | none =>
        have hnil : s.chainFrom n none = [] := by cases n <;> rfl
        simp [hnil, hi]
      | some p =>
        have hpne : p ≠ global := fun he => h.block i hk (hp.trans (congrArg some he))
        obtain ⟨hfound, hnone⟩ := ih hpne
        refine ⟨hfound, fun hn j hj => ?_⟩
        rcases List.mem_cons.1 hj with rfl | hj
        · exact hi
        · exact hnone hn j hj
    · rw [List.find?_cons_of_pos (by simp [hk])]
      refine ⟨fun j hj => ?_, by simp⟩
      cases hj
      exact hi

theorem hoistTarget_ne (h : Sealed names s) (hi : i ≠ global) : s.hoistTarget i ≠ global := by
  obtain ⟨hfound, hnone⟩ := h.chainFrom_ne s.scopes.size hi
  unfold hoistTarget
  change ((((s.chain i).find? _).orElse fun _ => (s.chain i).getLast?).getD i) ≠ global
  cases hf : (s.chain i).find? fun i => (s.scope i).kind ≠ .block with
  | some j => exact hfound j hf
  | none =>
    cases hl : (s.chain i).getLast? with
    | none => exact hi
    | some j => exact hnone hf j (List.mem_of_getLast? hl)

theorem declare (h : Sealed names s) (hi : i ≠ global) {name : String} {v : Value} {constant : Bool}
    (hc : s.declare i name v constant = .ok c) :
    Sealed names (s.apply c) := by
  unfold Store.declare at hc
  split at hc
  · cases hc
  · cases hc
    exact h.bind hi _ _

/-- A name of the global scope is a constant, so it is not assigned to. -/
theorem assign (h : Sealed names s) {name : String} {v : Value} (hc : s.assign i name v = .ok c) :
    Sealed names (s.apply c) := by
  unfold Store.assign at hc
  split at hc
  · cases hc
  next j hj =>
    have hhas := List.find?_some hj
    split at hc
    · cases hc
    next hopen =>
      cases hc
      refine h.bind ?_ _ _
      rintro rfl
      rw [h.bindings] at hhas hopen
      obtain ⟨⟨w, constant⟩, hb⟩ : ∃ b, names.get? name = some b :=
        Option.isSome_iff_exists.1 (by simpa [Table.get?, Table.has] using hhas)
      cases h.constant name _ hb
      exact hopen w hb

theorem setMember (h : Sealed names s) {owner v : Value} {name : String} {pos : Position}
    (hc : s.setMember owner name v pos = .ok c) : Sealed names (s.apply c) := by
  obtain ⟨r, rfl, rfl, _⟩ := eq_of_setMember hc
  exact h.sameScopes (changesCell_setField s r name v).same

theorem setElement (h : Sealed names s) {owner key v : Value} {pos : Position}
    (hc : s.setElement owner key v pos = .ok c) : Sealed names (s.apply c) := by
  unfold Store.setElement at hc
  split at hc
  next r _ =>
    dsimp only at hc
    split at hc
    next place _ =>
      split at hc
      · cases hc
        exact h.sameScopes (changesCell_setItem s r place v).same
      · split at hc
        · cases hc
          exact h.sameScopes (changesCell_append s r v).same
        · cases hc
    next => cases hc
  next => exact h.setMember hc
  next => cases hc

/-- No change that a script comes to in another scope is one of the global scope. -/
theorem permits (h : Sealed names s) (hi : i ≠ global) (hc : s.Permits i c) :
    Sealed names (s.apply c) := by
  cases hc with
  | declare hc => exact h.declare hi hc
  | declareVar hc => exact h.declare (h.hoistTarget_ne hi) hc
  | assign hc => exact h.assign hc
  | member hc => exact h.setMember hc
  | element hc => exact h.setElement hc
  | append r v => exact h.sameScopes (changesCell_append s r v).same
  | dropLast r => exact h.sameScopes (changesCell_dropLast s r).same

end Sealed

end Store

end TinyScript

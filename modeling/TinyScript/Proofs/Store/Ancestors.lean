/-
  TinyScript.Proofs.Store.Ancestors — scopes above those that run.

  Here a store is in anyone's hands: each operation names a scope that is open or retained, and
  that is all (`Use`). Parents may be freed before what is under them then, and chains may break or
  even close to circles. Still places are filed once (`Filed`), and no two scopes have the same
  lease (`Labelled`). A collection walks up from each scope that runs, and comes to an end if all of
  these walks do (`WalksEnd`): a scope that is pushed under another, and gets the place that the
  parent of that one had, is above itself. Where it ends, all scopes above one that runs stay as
  they are up to the first whose lease nothing keeps (`collect_keeps_leased_ancestors`).

  A retained scope whose lease nothing keeps is freed whatever runs under it, because that is done
  before the scopes above those that run are looked for (`a_scope_above_a_running_one_is_freed`).
-/

import TinyScript.Proofs.Store.Numbering
import TinyScript.Proofs.Store.Opening
import TinyScript.Proofs.Store.Unreachable

namespace TinyScript

namespace Store

variable {s t : Store} {i j : ScopeId} {gone : List ScopeId}

/-! ## Leases told apart -/

structure Labelled (s : Store) : Prop where
  lt_next : ∀ i r, (s.scope i).lease = some r → r < s.next
  distinct : ∀ i j r, (s.scope i).lease = some r → (s.scope j).lease = some r → i = j

namespace Labelled

/-- No scope gets another lease. -/
theorem keep (h : Labelled s) (hnext : s.next ≤ t.next)
    (hlease : ∀ i r, (t.scope i).lease = some r → (s.scope i).lease = some r) : Labelled t where
  lt_next i r hr := Nat.lt_of_lt_of_le (h.lt_next i r (hlease i r hr)) hnext
  distinct i j r hi hj := h.distinct i j r (hlease i r hi) (hlease j r hj)

/-- The scope that is changed has its lease, or one that no scope had. -/
theorem changeScope (h : Labelled s) (i : ScopeId) {f : Scope → Scope} {added removed : List Ref}
    (hx : Exchange (s.scope i).refs (f (s.scope i)).refs added removed)
    (hf : ∀ r, (f (s.scope i)).lease = some r → (s.scope i).lease = some r ∨
      r < s.next ∧ ∀ j, (s.scope j).lease ≠ some r) :
    Labelled (s.changeScope i f added removed hx) := by
  have hlease : ∀ j r, ((s.changeScope i f added removed hx).scope j).lease = some r →
      (s.scope j).lease = some r ∨ j = i ∧ r < s.next ∧ ∀ k, (s.scope k).lease ≠ some r := by
    intro j r hr
    by_cases hj : j = i
    · subst hj
      rcases scope_changeScope_cases s j f added removed hx j with he | he
      · exact .inl (he ▸ hr)
      · exact (hf r (he ▸ hr)).imp_right fun hnew => ⟨rfl, hnew⟩
    · exact .inl (scope_changeScope_of_ne s f added removed hx hj ▸ hr)
  refine ⟨fun j r hr => ?_, fun j k r hj hk => ?_⟩
  · rw [changeScope_next]
    rcases hlease j r hr with hold | ⟨_, hlt, _⟩
    · exact h.lt_next j r hold
    · exact hlt
  · rcases hlease j r hj with hj | ⟨rfl, _, hnone⟩
    · rcases hlease k r hk with hk | ⟨_, _, hnone⟩
      · exact h.distinct j k r hj hk
      · exact absurd hj (hnone j)
    · rcases hlease k r hk with hk | ⟨rfl, _⟩
      · exact absurd hk (hnone k)
      · rfl

theorem markScope (h : Labelled s) (i : ScopeId) {f : Scope → Scope}
    (hrefs : ∀ scope, (f scope).refs = scope.refs)
    (hf : ∀ r, (f (s.scope i)).lease = some r → (s.scope i).lease = some r ∨
      r < s.next ∧ ∀ j, (s.scope j).lease ≠ some r) : Labelled (s.markScope i f hrefs) :=
  h.changeScope i _ hf

theorem bind (h : Labelled s) (i : ScopeId) (name : String) (b : Binding) :
    Labelled (s.bind i name b) :=
  h.changeScope i _ fun _ hr => .inl hr

theorem sameScopes (h : Labelled s) (hs : SameScopes s t) (hnext : s.next ≤ t.next) :
    Labelled t :=
  h.keep hnext fun i _ hr => hs.scope i ▸ hr

theorem settle (h : Labelled s) (held : List Ref) : Labelled (s.settle held) :=
  h.sameScopes (sameScopes_settle s held) (Nat.le_of_eq (settle_next s held).symm)

theorem alloc (h : Labelled s) (c : Cell) : Labelled (s.alloc c).2 :=
  h.keep (Nat.le_succ _) fun _ _ => id

/-- A scope that is pushed gets the next lease. -/
theorem push (h : Labelled s) (hf : Filed s) (p : ScopeId) (kind : ScopeKind) :
    Labelled (s.push p kind).2 := by
  have hp := pushes_push s p kind fun i hi => hf.lt_size i (List.mem_append_right _ hi)
  have hlease : ∀ j r, ((s.push p kind).2.scope j).lease = some r →
      j = (s.push p kind).1 ∧ r = s.next ∨ (s.scope j).lease = some r := by
    intro j r hr
    by_cases hj : j = (s.push p kind).1
    · rw [hj, hp.scope_self] at hr
      cases hr
      exact .inl ⟨hj, rfl⟩
    · exact .inr (hp.scope_of_ne hj ▸ hr)
  refine ⟨fun j r hr => ?_, fun j k r hj hk => ?_⟩
  · rw [hp.next]
    rcases hlease j r hr with ⟨_, rfl⟩ | hold
    · exact Nat.lt_succ_self _
    · exact Nat.lt_succ_of_lt (h.lt_next j r hold)
  · rcases hlease j r hj with ⟨rfl, rfl⟩ | hj
    · rcases hlease k _ hk with ⟨rfl, _⟩ | hk
      · rfl
      · exact absurd (h.lt_next k _ hk) (Nat.lt_irrefl _)
    · rcases hlease k r hk with ⟨_, rfl⟩ | hk
      · exact absurd (h.lt_next j _ hj) (Nat.lt_irrefl _)
      · exact h.distinct j k r hj hk

theorem newLease (h : Labelled s) (i : ScopeId) (above : Option Ref) :
    Labelled (s.newLease i above).2 := by
  unfold Store.newLease
  split
  · exact h.sameScopes (sameScopes_insertCell s _ _) (Nat.le_refl _)
  · refine (h.alloc (.lease i above)).markScope i
      (f := fun scope => { scope with lease := some s.next }) (fun _ => rfl) fun r hr => .inr ?_
    cases hr
    exact ⟨Nat.lt_succ_self _, fun j hj => absurd (h.lt_next j _ hj) (Nat.lt_irrefl _)⟩

theorem leaseFrom (h : Labelled s) (n : Nat) (i : ScopeId) : Labelled (s.leaseFrom n i).2 := by
  induction n generalizing i with
  | zero =>
    unfold Store.leaseFrom
    split
    · exact h
    · exact h.newLease i none
  | succ n ih =>
    unfold Store.leaseFrom
    split
    · exact h
    · split
      next n' parent he _ =>
        cases he
        exact (ih parent).newLease i _
      next => exact h.newLease i none

theorem apply (h : Labelled s) (c : Change) : Labelled (s.apply c) := by
  have hcell : ∀ {x : Ref} {f : Cell → Cell} {t : Store}, ChangesCell s t x f → Labelled t :=
    fun hc => h.sameScopes hc.same (Nat.le_of_eq hc.next.symm)
  cases c with
  | bind i name b => exact h.bind i name b
  | setField x name v => exact hcell (changesCell_setField s x name v)
  | setItem x place v => exact hcell (changesCell_setItem s x place v)
  | append x v => exact hcell (changesCell_append s x v)
  | dropLast x => exact hcell (changesCell_dropLast s x)

end Labelled

/-! ## What a collection frees -/

structure Discards (s t : Store) (gone : List ScopeId) : Prop where
  size : t.scopes.size = s.scopes.size
  next : t.next = s.next
  free : t.free = gone.reverse ++ s.free
  scope : ∀ j, t.scope j = if j ∈ gone then vacated (s.scope j) else s.scope j

theorem Discards.labelled (h : Discards s t gone) (hl : Labelled s) : Labelled t := by
  refine hl.keep (Nat.le_of_eq h.next.symm) fun j r hr => ?_
  rw [h.scope] at hr
  split at hr
  · cases hr
  · exact hr

def cleared (s : Store) : Store := s.forsaken.foldl freeScope s

theorem Filed.lt_of_retained (h : Filed s) (hi : i ∈ s.retained) : i < s.scopes.size :=
  h.lt_size i (List.mem_append_left _ (Array.mem_toList_iff.2 hi))

theorem Filed.freesAll_cleared (h : Filed s) : FreesAll s s.cleared s.forsaken :=
  freesAll_foldl s _ fun _ hi => h.lt_of_retained (mem_forsaken.1 hi).1

/-- A candidate above a scope that runs is not lost. -/
theorem Filed.not_lost (h : Filed s) (count : Ref → Nat)
    (hi : i ∈ s.cleared.ancestors) : i ∉ (s.cleared.judge count s.candidates).lost := by
  have hfrees := h.freesAll_cleared
  have hlive : ∀ i ∈ s.candidates, (s.cleared.liveLease? i).isSome := by
    intro i hi
    rw [hfrees.liveLease?_of_candidate hi]
    exact (mem_candidates.1 hi).2
  obtain ⟨nodes, reached, _, hreached, _, hlost, _⟩ := judge_walks s.cleared s.candidates count
  intro hm
  rw [hlost, List.mem_filter] at hm
  obtain ⟨r, hr⟩ := Option.isSome_iff_exists.1 (hlive i hm.1)
  have hmem : r ∈ reached := (hreached r).2 ⟨r, .inr ⟨i, hm.1, hi, hr⟩, .refl⟩
  simp [hr, Std.TreeSet.contains_iff_mem.2 hmem] at hm

/-- A collection frees the retained scopes whose lease nothing keeps, and of the others none that
    is then above a scope that runs. -/
theorem Filed.discards_collect (h : Filed s) (held : List Ref) :
    ∃ gone, Discards s (s.collect held) gone ∧ (∀ i ∈ (s.settle held).forsaken, i ∈ gone) ∧
      ∀ i ∈ gone, i ∈ (s.settle held).forsaken ∨
        i ∈ s.retained ∧ i ∉ (s.settle held).cleared.ancestors := by
  have hsame := sameScopes_settle s held
  have hfiled := h.sameOpen hsame.sameOpen
  rw [collect_eq]
  generalize hcount : (fun r => (s.settle held).counts.of r +
    ((s.settle held).globalLease :: held).count r) = count
  have hnot := fun i => hfiled.not_lost (i := i) count
  change ∃ gone, Discards s ((s.settle held).cleared.carryOut
    ((s.settle held).cleared.judge count (s.settle held).candidates)) gone ∧ _
  have hlost : ∀ i ∈ ((s.settle held).cleared.judge count (s.settle held).candidates).lost,
      i ∈ s.retained := by
    intro i hi
    rw [← hsame.retained]
    exact (mem_candidates.1 (List.mem_of_mem_filter hi)).1
  generalize (s.settle held).cleared.judge count (s.settle held).candidates = v at *
  have hfree : FreesAll (s.settle held) (v.lost.foldl freeScope (s.settle held).cleared)
      ((s.settle held).forsaken ++ v.lost) := by
    rw [cleared, ← List.foldl_append]
    refine freesAll_foldl _ _ fun i hi => ?_
    rcases List.mem_append.1 hi with hi | hi
    · exact hfiled.lt_of_retained (mem_forsaken.1 hi).1
    · exact hfiled.lt_of_retained (hsame.retained ▸ hlost i hi)
  have hempty := emptiesAll_foldl (v.lost.foldl freeScope (s.settle held).cleared) v.unreached
  refine ⟨(s.settle held).forsaken ++ v.lost, ⟨?_, ?_, ?_, fun j => ?_⟩,
    fun i hi => List.mem_append_left _ hi, fun i hi => ?_⟩
  · exact hempty.same.size.trans (hfree.size.trans hsame.size)
  · exact hempty.next.trans (hfree.next.trans (settle_next s held))
  · rw [← hsame.free]
    exact hempty.same.free.trans hfree.free
  · rw [← hsame.scope]
    exact (hempty.same.scope j).trans (hfree.scope j)
  · rcases List.mem_append.1 hi with hi | hi
    · exact .inl hi
    · exact .inr ⟨hlost i hi, fun ha => hnot i ha hi⟩

theorem Labelled.collect (h : Labelled s) (hf : Filed s) (held : List Ref) :
    Labelled (s.collect held) := by
  obtain ⟨gone, hd, _⟩ := hf.discards_collect held
  exact hd.labelled h

theorem Labelled.release (h : Labelled s) (hf : Filed s) (held : List Ref) (i : ScopeId) :
    Labelled (s.release held i) := by
  have hfrees : ∀ {s t : Store}, Labelled s → Frees s t i → Labelled t := by
    intro s t h hfree
    refine h.keep (Nat.le_of_eq hfree.next.symm) fun j r hr => ?_
    rw [hfree.scope] at hr
    split at hr
    · cases hr
    · exact hr
  by_cases hi : s.isOpen i = true
  · have hsame := (sameScopes_settle s held).sameOpen
    have hopen : (s.settle held).isOpen i = true := hsame.isOpen ▸ hi
    rcases release_cases held (by simpa [isOpen] using hi) (lt_size_of_open hi) with
      ⟨_, hfree⟩ | ⟨_, hfree⟩ | ⟨_, t, ht, he⟩
    · exact hfrees h hfree
    · exact hfrees (h.settle held) hfree
    · have hlabels : Labelled t :=
        (h.settle held).keep (Nat.le_of_eq ht.next.symm) fun j r hr => ht.lease j ▸ hr
      rcases he with ⟨_, he⟩ | he
      · exact he ▸ hlabels
      · exact he ▸ hlabels.collect (ht.closes (hf.sameOpen hsame) hopen).1 held
  · rwa [release_of_not_isOpen held hi]

/-! ## The walk up from a scope -/

/-- A place where there is no scope has no parent, so that a chain leaves the scopes at its last
    place at most. -/
theorem Chain.length_le_succ {chain : List ScopeId} (h : Chain s i chain) :
    chain.length ≤ s.scopes.size + 1 := by
  have hparent : ∀ {j p}, (s.scope j).parent = some p → j < s.scopes.size := by
    intro j p hp
    by_contra hlt
    rw [scope_of_ge (Nat.not_lt.1 hlt)] at hp
    cases hp
  have hlt : ∀ j ∈ chain.dropLast, j < s.scopes.size := by
    induction h with
    | top => simp
    | @under i p chain hp hc ih =>
      cases hc with
      | top => simpa using hparent hp
      | under hq _ =>
        intro j hj
        rcases List.mem_cons.1 hj with rfl | hj
        · exact hparent hp
        · exact ih j hj
  have hlength := length_le_size (h.nodup.sublist (List.dropLast_sublist _)) hlt
  rw [List.length_dropLast] at hlength
  omega

/-- A walk that has come to a scope without a parent has gone through the whole chain. -/
theorem chain_chainFrom {n : Nat}
    (h : (s.chainFrom n (some i)).getLast?.any fun top => (s.scope top).parent = none) :
    Chain s i (s.chainFrom n (some i)) := by
  induction n generalizing i with
  | zero => simp [chainFrom] at h
  | succ n ih =>
    cases hp : (s.scope i).parent with
    | none =>
      rw [chainFrom, hp]
      cases n <;> exact .top hp
    | some p =>
      rw [chainFrom, hp] at h ⊢
      refine .under hp (ih ?_)
      cases n with
      | zero => simp [chainFrom, hp] at h
      | succ n => simpa [chainFrom] using h

/-- What lies above an open scope is among the ancestors if the walk up from it ends. -/
theorem mem_ancestors_of_below {chain : List ScopeId} (ho : (s.scope i).released = false)
    (hc : Chain s i chain) (h : s.Below i j) : j ∈ s.ancestors := by
  have hlength := hc.length_le_succ
  cases hc with
  | top hp =>
    obtain ⟨p, hq, _⟩ := Relation.TransGen.head'_iff.1 h
    rw [hp] at hq
    cases hq
  | @under _ p chain hp hc =>
    have hmem : j ∈ chain := by
      induction h with
      | single hq =>
        cases hp.symm.trans hq
        exact hc.head_mem
      | tail _ hq ih => exact hc.parent_mem ih hq
    refine mem_ancestors.2 ⟨i, ho, ?_⟩
    rw [hp, hc.chainFrom_eq (by simpa using hlength)]
    exact hmem

end Store

namespace Holding

variable {h k : Holding} {i a : ScopeId}

open Store

/-! ## Stores in anyone's hands -/

/-- What a user does who names only scopes that are open or retained. -/
inductive Use : Holding → Holding → Prop
  | push (h : Holding) (p : ScopeId) (kind : ScopeKind) : h.Live p →
    Use h ⟨(h.store.push p kind).2, h.held⟩
  | capture (h : Holding) (i : ScopeId) : h.Live i →
    Use h ⟨((h.store.settle h.held).capture i).2, ((h.store.settle h.held).capture i).1 :: h.held⟩
  /-- Makes a value of others that are held. -/
  | make (h : Holding) (c : Cell) : (∀ r ∈ c.refs, r ∈ h.held) →
    Use h ⟨(h.store.alloc c).2, (h.store.alloc c).1 :: h.held⟩
  /-- Holds something once more that is still there. -/
  | hold (h : Holding) (r : Ref) : r ∈ (h.store.settle h.held).cells → Use h ⟨h.store, r :: h.held⟩
  /-- Lets go of a handle or a value. -/
  | drop (h : Holding) (r : Ref) : Use h ⟨h.store, h.held.erase r⟩
  | declare (h : Holding) (i : ScopeId) (name : String) (v : Value) (constant : Bool) (c : Change) :
    h.Live i → (∀ r ∈ v.refs, r ∈ h.held) → h.store.declare i name v constant = .ok c →
    Use h ⟨h.store.apply c, h.held⟩
  | declareVar (h : Holding) (i : ScopeId) (name : String) (v : Value) (c : Change) :
    h.Live i → (∀ r ∈ v.refs, r ∈ h.held) → h.store.declareVar i name v = .ok c →
    Use h ⟨h.store.apply c, h.held⟩
  | assign (h : Holding) (i : ScopeId) (name : String) (v : Value) (c : Change) :
    h.Live i → (∀ r ∈ v.refs, r ∈ h.held) → h.store.assign i name v = .ok c →
    Use h ⟨h.store.apply c, h.held⟩
  /-- Changes an array or an object. -/
  | change (h : Holding) (c : Change) : (∀ i name b, c ≠ .bind i name b) →
    (∀ r ∈ putBy c, r ∈ h.held) → Use h ⟨h.store.apply c, h.held⟩
  | release (h : Holding) (i : ScopeId) : h.Live i → Use h ⟨h.store.release h.held i, h.held⟩
  | collect (h : Holding) : Use h ⟨h.store.collect h.held, h.held⟩

inductive Used : Holding → Prop
  | init : Used empty
  | step {h k : Holding} : Used h → Use h k → Used k

theorem Use.keeps (hu : Use h k) (hf : Filed h.store) (hl : Labelled h.store) :
    Filed k.store ∧ Labelled k.store := by
  cases hu with
  | push p kind => exact ⟨(hf.push p kind).1, hl.push hf p kind⟩
  | capture i =>
    have hsettled := (sameScopes_settle h.store h.held).sameOpen
    exact ⟨hf.sameOpen (hsettled.trans (sameOpen_capture _ i)), (hl.settle h.held).leaseFrom _ i⟩
  | make c => exact ⟨hf.sameOpen (sameOpen_alloc _ c), hl.alloc c⟩
  | hold | drop => exact ⟨hf, hl⟩
  | declare _ _ _ _ c | declareVar _ _ _ c | assign _ _ _ c | change c =>
    exact ⟨hf.sameOpen (sameOpen_apply _ c), hl.apply c⟩
  | release i => exact ⟨(hf.release h.held i).1, hl.release hf h.held i⟩
  | collect => exact ⟨hf.sameOpen (hf.collect h.held), hl.collect hf h.held⟩

theorem Used.filed (hu : Used h) : Filed h.store ∧ Labelled h.store := by
  induction hu with
  | init =>
    exact ⟨orderly_empty.places.filed, orderly_empty.leases.leaseLt, orderly_empty.leases.distinct⟩
  | step _ hstep ih => exact hstep.keeps ih.1 ih.2

/-! ## Collections above a scope that runs -/

def Leans (h : Holding) (i p : ScopeId) : Prop := (h.store.scope i).parent = some p ∧ h.Kept p

theorem Kept.not_mem_forsaken (hf : Filed h.store) (hk : h.Kept i) :
    i ∉ (h.store.settle h.held).forsaken := by
  have hsame := sameScopes_settle h.store h.held
  intro hm
  obtain ⟨hr, hl⟩ := mem_forsaken.1 hm
  rcases hk with ho | hk
  · refine (hf.sameOpen hsame.sameOpen).not_mem_of_open (i := i) (by simp [isOpen, ho]) ?_
    exact List.mem_append_left _ (Array.mem_toList_iff.2 hr)
  · simp [hl] at hk

/-- The walk up from each scope that runs comes to an end after the retained scopes whose lease
    nothing keeps were freed. Where one goes round in a circle, a collection does not end. -/
def WalksEnd (h : Holding) : Prop :=
  ∀ i, (h.store.scope i).released = false → ∃ chain, Chain (h.store.settle h.held).cleared i chain

theorem walksEnd_of_forall (h : Holding)
    (hwalks : ∀ i < (h.store.settle h.held).cleared.scopes.size,
      ((h.store.settle h.held).cleared.chain i).getLast?.any fun top =>
        ((h.store.settle h.held).cleared.scope top).parent = none) : h.WalksEnd := by
  intro i _
  by_cases hi : i < (h.store.settle h.held).cleared.scopes.size
  · exact ⟨_, chain_chainFrom (hwalks i hi)⟩
  · exact ⟨_, .top (by rw [scope_of_ge (Nat.not_lt.1 hi)]; rfl)⟩

/-- In any hands, a collection that comes to an end changes no scope above one that runs if it and
    all between them are open or have a lease that something keeps. A retained scope whose lease
    nothing keeps is freed, whatever runs under it. -/
theorem collect_keeps_leased_ancestors (hu : Used h) (hends : h.WalksEnd)
    (ho : (h.store.scope i).released = false) :
    (∀ a, h.Live a → Relation.TransGen h.Leans i a →
      Live ⟨h.store.collect h.held, h.held⟩ a ∧
        (h.store.collect h.held).scope a = h.store.scope a) ∧
    ∀ a ∈ h.store.retained, ¬ h.Kept a → a ∈ (h.store.collect h.held).free := by
  obtain ⟨hf, _⟩ := hu.filed
  have hsame := sameScopes_settle h.store h.held
  have hcleared := (hf.sameOpen hsame.sameOpen).freesAll_cleared
  obtain ⟨gone, hd, hforsaken, hgone⟩ := hf.discards_collect h.held
  have hscope : ∀ {j}, h.Kept j →
      (h.store.settle h.held).cleared.scope j = h.store.scope j := by
    intro j hj
    rw [hcleared.scope, if_neg (hj.not_mem_forsaken hf), hsame.scope]
  have hi : h.Kept i := .inl (by rw [hsame.scope, ho])
  refine ⟨fun a ha hp => ?_, fun a ha hk => ?_⟩
  · -- The way up is still there when the scopes above those that run are looked for.
    have hway : (h.store.settle h.held).cleared.Below i a ∧ h.Kept a := by
      clear ha
      induction hp with
      | single hp => exact ⟨.single ((congrArg Scope.parent (hscope hi)).trans hp.1), hp.2⟩
      | tail _ hp ih => exact ⟨.tail ih.1 ((congrArg Scope.parent (hscope ih.2)).trans hp.1), hp.2⟩
    obtain ⟨chain, hchain⟩ := hends i ho
    have hanc : a ∈ (h.store.settle h.held).cleared.ancestors :=
      mem_ancestors_of_below ((congrArg Scope.released (hscope hi)).trans ho) hchain hway.1
    have hstays : a ∉ gone := by
      intro hm
      rcases hgone a hm with hm | ⟨_, hm⟩
      · exact hway.2.not_mem_forsaken hf hm
      · exact hm hanc
    have hlt : a < (h.store.collect h.held).scopes.size := by
      rw [hd.size]
      exact ha.1
    have hfree : a ∉ (h.store.collect h.held).free := by
      rw [hd.free, List.mem_append, List.mem_reverse]
      exact fun hm => hm.elim hstays ha.2
    exact ⟨⟨hlt, hfree⟩, by rw [hd.scope, if_neg hstays]⟩
  · have hm : a ∈ (h.store.settle h.held).forsaken := by
      refine mem_forsaken.2 ⟨hsame.retained ▸ ha, ?_⟩
      cases hlease : (h.store.settle h.held).liveLease? a with
      | none => rfl
      | some r => exact absurd (.inr (by simp [hlease])) hk
    rw [hd.free, List.mem_append, List.mem_reverse]
    exact .inl (hforsaken a hm)

/-- A scope that only a class bound in it keeps stays while a block runs in it. -/
theorem collect_keeps_the_scope_of_a_block : ∃ h : Holding, Used h ∧ h.WalksEnd ∧ h.held = [] ∧
    (h.store.scope 2).released = false ∧ (h.store.scope 2).parent = some 1 ∧
    1 ∈ h.store.retained ∧ 1 ∉ (h.store.collect h.held).free ∧
    (h.store.collect h.held).scope 1 = h.store.scope 1 := by
  have h1 : Used _ := .step .init (.push _ 0 .function (by decide +kernel))
  have h2 := h1.step (.capture _ 1 (by decide +kernel))
  have h3 := h2.step (.make _ (keeper 1) (by decide +kernel))
  have h4 := h3.step (.declare _ 1 "k" (.type (.classRef 2)) false _ (by decide +kernel)
    (by decide +kernel) rfl)
  have h5 := h4.step (.drop _ 2)
  have h6 := h5.step (.drop _ 1)
  have h7 := h6.step (.release _ 1 (by decide +kernel))
  have h8 := h7.step (.push _ 1 .block (by decide +kernel))
  have hkeeps := (collect_keeps_leased_ancestors (i := 2) h8
    (walksEnd_of_forall _ (by decide +kernel)) (by decide +kernel)).1 1 (by decide +kernel)
    (.single ⟨by decide +kernel, by decide +kernel⟩)
  exact ⟨_, h8, walksEnd_of_forall _ (by decide +kernel), by decide +kernel, by decide +kernel,
    by decide +kernel, by decide +kernel, hkeeps.1.2, hkeeps.2⟩

/-- A block is pushed under a retained scope, and the handle to that scope is dropped. A collection
    frees the scope while the block still runs. -/
theorem a_scope_above_a_running_one_is_freed : ∃ h : Holding, Used h ∧ h.WalksEnd ∧
    (h.store.scope 2).released = false ∧ h.store.Below 2 1 ∧ h.Live 1 ∧
    ¬ Live ⟨h.store.collect h.held, h.held⟩ 1 := by
  have h1 : Used _ := .step .init (.push _ 0 .function (by decide +kernel))
  have h2 := h1.step (.capture _ 1 (by decide +kernel))
  have h3 := h2.step (.release _ 1 (by decide +kernel))
  have h4 := h3.step (.push _ 1 .block (by decide +kernel))
  have h5 := h4.step (.drop _ 1)
  exact ⟨_, h5, walksEnd_of_forall _ (by decide +kernel), by decide +kernel,
    .single (by decide +kernel), by decide +kernel, by decide +kernel⟩

end Holding

end TinyScript

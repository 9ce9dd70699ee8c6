/-
  TinyScript.Proofs.Twin.Tracking — a store next to one that frees nothing.

  Two stores go through the same operations, but only the first one frees scopes and takes cells
  away. Cells have the same identities in both. Places differ, so scopes are matched by the
  identity that was set aside for their lease (`Twin`). Cells are compared where it matters: the
  good ones are at least those that the program may still come to, and all that they refer to is
  good as well.

  While the first store tracks the second (`Tracks`), chains match scope by scope, so a name means
  the same in both (`Tracks.binding?`), and declarations and assignments come to the same changes.
-/

import TinyScript.Proofs.Store.Leasing
import TinyScript.Proofs.Store.Releasing

namespace TinyScript

def Cell.handles : Cell → List Ref
  | function f => [f.closure]
  | classDef c => mapRefs (fun f => [f.closure]) c.methods ++ c.scope.toList
  | _ => []

theorem Cell.mem_refs_of_handles {c : Cell} {r : Ref} (h : r ∈ c.handles) : r ∈ c.refs := by
  cases c with
  | function f =>
    cases List.mem_singleton.1 h
    exact List.mem_cons_self
  | classDef c =>
    rcases List.mem_append.1 h with h | h
    · obtain ⟨name, f, hf, hr⟩ := mem_mapRefs.1 h
      cases List.mem_singleton.1 hr
      exact List.mem_append_left _ (mem_mapRefs.2 ⟨name, f, hf, List.mem_cons_self⟩)
    · exact List.mem_append_right _ h
  | _ => cases h

namespace Store

variable {G : Ref → Prop} {s t : Store} {r : Ref} {i j k p : ScopeId} {name : String}

def Good (G : Ref → Prop) (refs : List Ref) : Prop := ∀ r ∈ refs, G r

@[simp] theorem good_nil : Good G [] := fun _ hr => nomatch hr

@[simp] theorem good_cons {refs : List Ref} : Good G (r :: refs) ↔ G r ∧ Good G refs :=
  List.forall_mem_cons

@[simp] theorem good_append {refs others : List Ref} :
    Good G (refs ++ others) ↔ Good G refs ∧ Good G others :=
  List.forall_mem_append

@[simp] theorem good_values_nil : Good G (valueRefs []) := good_nil

@[simp] theorem good_values_cons {v : Value} {vs : List Value} :
    Good G (valueRefs (v :: vs)) ↔ Good G v.refs ∧ Good G (valueRefs vs) := by
  rw [valueRefs_cons, good_append]

/-- Some of these values. -/
theorem Good.values_mono {vs ws : List Value} (h : Good G (valueRefs ws)) (hsub : vs ⊆ ws) :
    Good G (valueRefs vs) := by
  intro r hr
  obtain ⟨v, hv, hr⟩ := mem_valueRefs.1 hr
  exact h r (mem_valueRefs.2 ⟨v, hsub hv, hr⟩)

theorem Good.getD {vs : List Value} (h : Good G (valueRefs vs)) (place : Nat) :
    Good G (vs.getD place .nil).refs := by
  rw [List.getD_eq_getElem?_getD]
  cases hv : vs[place]? with
  | none => exact good_nil
  | some v => exact fun r hr => h r (mem_valueRefs.2 ⟨v, List.mem_of_getElem? hv, hr⟩)

theorem Good.of_ref {v : Value} (h : Good G v.refs) (hr : v.ref? = some r) : G r :=
  h r (Value.mem_refs.2 hr)

/-- One scope in both stores. It is open, or its lease is good. -/
def Twin (G : Ref → Prop) (s t : Store) (i j : ScopeId) : Prop :=
  ∃ r, (s.scope i).lease = some r ∧ (t.scope j).lease = some r ∧
    ((s.scope i).released = false ∨ G r)

def IsLease (s : Store) (r : Ref) : Prop := ∃ i above, s.cell? r = some (.lease i above)

/-- A cell in both stores. Leases say different places, but of one scope. -/
inductive SameCell (s t : Store) (r : Ref) : Cell → Cell → Prop
  | same {c : Cell} : (∀ i above, c ≠ .lease i above) → SameCell s t r c c
  | lease {i j : ScopeId} (above : Option Ref) : (s.scope i).lease = some r →
    (t.scope j).lease = some r → SameCell s t r (.lease i above) (.lease j above)

structure SameScope (G : Ref → Prop) (s t : Store) (i j : ScopeId) : Prop where
  bindings : (t.scope j).bindings = (s.scope i).bindings
  kind : (t.scope j).kind = (s.scope i).kind
  good : Good G (s.scope i).refs
  parent : Option.Rel (Twin G s t) (s.scope i).parent (t.scope j).parent

/-- The first store tracks the second, which has freed nothing. -/
structure Tracks (G : Ref → Prop) (s t : Store) : Prop where
  orderly : Orderly s
  linked : Linked s
  limits : Limits s
  /-- A scope that is in use has a younger identity than the one above it. -/
  older : ∀ i p a b, s.InUse i → (s.scope i).parent = some p → (s.scope i).lease = some a →
    (s.scope p).lease = some b → b < a
  leases : Leases t
  free : t.free = []
  next : t.next = s.next
  globalLease : t.globalLease = s.globalLease
  global : G s.globalLease
  cell : ∀ r, G r → ∃ c d, s.cell? r = some c ∧ t.cell? r = some d ∧ SameCell s t r c d
  closed : ∀ r c, G r → s.cell? r = some c → Good G c.refs
  handles : ∀ r c, G r → s.cell? r = some c → ∀ q ∈ c.handles, IsLease s q
  scope : ∀ i j, Twin G s t i j → SameScope G s t i j
  met : ∀ i, (s.scope i).released = false → ∃ j, Twin G s t i j

/-! ## Lists that match -/

section

variable {α β γ : Type} {R : α → β → Prop} {l : List α} {m : List β}

theorem exists_right_of_forall₂ (h : List.Forall₂ R l m) {a : α} (ha : a ∈ l) : ∃ b ∈ m, R a b := by
  induction h with
  | nil => cases ha
  | cons hab _ ih =>
    rcases List.mem_cons.1 ha with rfl | ha
    · exact ⟨_, List.mem_cons_self, hab⟩
    · obtain ⟨b, hb, hab⟩ := ih ha
      exact ⟨b, List.mem_cons_of_mem _ hb, hab⟩

theorem exists_left_of_forall₂ (h : List.Forall₂ R l m) {b : β} (hb : b ∈ m) : ∃ a ∈ l, R a b :=
  exists_right_of_forall₂ (R := flip R) h.flip hb

theorem findSome?_eq_of_forall₂ {f : α → Option γ} {g : β → Option γ} (h : List.Forall₂ R l m)
    (hf : ∀ a b, R a b → g b = f a) : m.findSome? g = l.findSome? f := by
  induction h with
  | nil => rfl
  | cons hab _ ih => simp only [List.findSome?_cons, hf _ _ hab, ih]

theorem find?_rel_of_forall₂ {f : α → Bool} {g : β → Bool} (h : List.Forall₂ R l m)
    (hf : ∀ a b, R a b → g b = f a) : Option.Rel R (l.find? f) (m.find? g) := by
  induction h with
  | nil => exact .none
  | @cons a b _ _ hab _ ih =>
    rw [List.find?_cons, List.find?_cons, hf a b hab]
    cases f a with
    | true => exact .some hab
    | false => exact ih

theorem getLast?_rel_of_forall₂ (h : List.Forall₂ R l m) : Option.Rel R l.getLast? m.getLast? := by
  induction h with
  | nil => exact .none
  | cons hab hlm ih =>
    cases hlm with
    | nil => exact .some hab
    | cons => simpa using ih

end

/-! ## Twins -/

/-- Only a place of the store has a lease. -/
theorem lt_of_lease (h : (s.scope i).lease = some r) : i < s.scopes.size := by
  by_contra hlt
  rw [scope_of_ge (Nat.not_lt.1 hlt)] at h
  cases h

theorem Twin.lt (h : Twin G s t i j) : j < t.scopes.size := by
  obtain ⟨r, _, hr, _⟩ := h
  exact lt_of_lease hr

theorem Twin.of_lease (hi : (s.scope i).lease = some r) (hj : (t.scope j).lease = some r)
    (h : G r) : Twin G s t i j :=
  ⟨r, hi, hj, .inr h⟩

namespace Tracks

variable (h : Tracks G s t)
include h

theorem mem_cells (hr : G r) : r ∈ s.cells := by
  obtain ⟨c, _, hc, _⟩ := h.cell r hr
  exact Store.mem_cells.2 ⟨c, hc⟩

theorem inUse (hij : Twin G s t i j) : s.InUse i := by
  obtain ⟨r, hr, _, ho | hg⟩ := hij
  · exact .inl ho
  · exact .inr (liveLease?_isSome.2 ⟨r, hr, h.mem_cells hg⟩)

theorem lt_size (hij : Twin G s t i j) : i < s.scopes.size ∧ i ∉ s.free :=
  h.orderly.places.lt_of_inUse (h.inUse hij)

theorem twin_right (hij : Twin G s t i j) (hik : Twin G s t i k) : j = k := by
  obtain ⟨r, hi, hj, _⟩ := hij
  obtain ⟨q, hi', hk, _⟩ := hik
  cases hi.symm.trans hi'
  exact h.leases.distinct j k r hj hk

theorem twin_left (hik : Twin G s t i k) (hjk : Twin G s t j k) : i = j := by
  obtain ⟨r, hi, hk, _⟩ := hik
  obtain ⟨q, hj, hk', _⟩ := hjk
  cases hk.symm.trans hk'
  exact h.orderly.leases.distinct i j r hi hj

theorem twin_global : Twin G s t Store.global Store.global := by
  obtain ⟨hs, _⟩ := liveLease?_eq_some.1 h.orderly.leases.globalLease
  obtain ⟨ht, _⟩ := liveLease?_eq_some.1 h.leases.globalLease
  rw [h.globalLease] at ht
  exact .of_lease hs ht h.global

/-- A good lease is that of one scope in both stores. -/
theorem twin_of_lease (hr : G r) {above : Option Ref} (hc : s.cell? r = some (.lease i above)) :
    ∃ j, t.cell? r = some (.lease j above) ∧ Twin G s t i j := by
  obtain ⟨c, d, hc', hd, hsame⟩ := h.cell r hr
  cases hc.symm.trans hc'
  cases hsame with
  | same hno => exact absurd rfl (hno i above)
  | lease _ hi hj => exact ⟨_, hd, .of_lease hi hj hr⟩

/-- A scope whose lease is good has a twin. -/
theorem twin_of_good (hr : G r) (hi : (s.scope i).lease = some r) : ∃ j, Twin G s t i j := by
  have hc := h.orderly.leases.isLease i r (liveLease?_eq_some.2 ⟨hi, h.mem_cells hr⟩)
  obtain ⟨j, _, hj⟩ := h.twin_of_lease hr hc
  exact ⟨j, hj⟩

/-! ## Chains -/

theorem chain_of {chain : List ScopeId} (hc : Chain s i chain) (hij : Twin G s t i j) :
    ∃ other, Chain t j other ∧ List.Forall₂ (Twin G s t) chain other := by
  induction hc generalizing j with
  | top hp =>
    have hq := (h.scope _ j hij).parent
    rw [hp] at hq
    cases hq' : (t.scope j).parent with
    | none => exact ⟨[j], .top hq', .cons hij .nil⟩
    | some q => simp [hq'] at hq
  | under hp _ ih =>
    have hq := (h.scope _ j hij).parent
    rw [hp] at hq
    cases hq' : (t.scope j).parent with
    | none => simp [hq'] at hq
    | some q =>
      rw [hq'] at hq
      obtain ⟨other, hother, hall⟩ := ih (Option.rel_some_some.1 hq)
      exact ⟨j :: other, .under hq' hother, .cons hij hall⟩

/-- The chains of twins match scope by scope. -/
theorem chain (hij : Twin G s t i j) : Chain s i (s.chain i) ∧ Chain t j (t.chain j) ∧
    List.Forall₂ (Twin G s t) (s.chain i) (t.chain j) := by
  have hc := h.orderly.chain_eq (h.inUse hij)
  obtain ⟨other, hother, hall⟩ := h.chain_of hc hij
  have hlt : ∀ k ∈ other, k < t.scopes.size := by
    intro k hk
    obtain ⟨_, _, hk⟩ := exists_left_of_forall₂ hall hk
    exact hk.lt
  rw [hother.chain_eq hlt]
  exact ⟨hc, hother, hall⟩

end Tracks

/-! ## Names -/

inductive SameResult {ε α β : Type} (R : α → β → Prop) : Except ε α → Except ε β → Prop
  | ok {a : α} {b : β} : R a b → SameResult R (.ok a) (.ok b)
  | error (e : ε) : SameResult R (.error e) (.error e)

theorem SameResult.imp {ε α β : Type} {R Q : α → β → Prop} {a : Except ε α} {b : Except ε β}
    (h : SameResult R a b) (hRQ : ∀ x y, R x y → Q x y) : SameResult Q a b := by
  cases h with
  | ok h => exact .ok (hRQ _ _ h)
  | error e => exact .error e

/-- The same result, of which something is known. -/
theorem SameResult.of_eq {ε α : Type} {r : Except ε α} {P : α → Prop} (h : ∀ a, r = .ok a → P a) :
    SameResult (fun a b => a = b ∧ P a) r r := by
  cases r with
  | ok a => exact .ok ⟨rfl, h a rfl⟩
  | error e => exact .error e

inductive SameChange (G : Ref → Prop) (s t : Store) : Change → Change → Prop
  | bind {i j : ScopeId} (name : String) {b : Binding} : Twin G s t i j →
    Good G b.value.refs → SameChange G s t (.bind i name b) (.bind j name b)
  | container {c : Change} : (∀ i name b, c ≠ .bind i name b) → Good G (putBy c) →
    SameChange G s t c c

namespace Tracks

variable {v : Value} (h : Tracks G s t) (hij : Twin G s t i j)
include h hij

theorem get? (name : String) :
    (t.scope j).bindings.get? name = (s.scope i).bindings.get? name := by
  rw [(h.scope i j hij).bindings]

theorem good_of_bound {b : Binding} (hb : (s.scope i).bindings.get? name = some b) :
    Good G b.value.refs := by
  intro r hr
  exact (h.scope i j hij).good r (mem_mapRefs.2 ⟨name, b, hb, hr⟩)

theorem binding? (name : String) : t.binding? j name = s.binding? i name := by
  exact findSome?_eq_of_forall₂ (h.chain hij).2.2 fun _ _ hk => h.get? hk name

/-- What a name stands for is good. -/
theorem good_of_binding? {b : Binding} (hb : s.binding? i name = some b) :
    Good G b.value.refs := by
  have hall := (h.chain hij).2.2
  unfold Store.binding? at hb
  generalize s.chain i = chain at hall hb
  generalize t.chain j = other at hall
  induction hall with
  | nil => cases hb
  | @cons k _ _ _ hk _ ih =>
    rw [List.findSome?_cons] at hb
    cases hc : (s.scope k).bindings.get? name with
    | none => exact ih (by simpa [hc] using hb)
    | some c =>
      cases (by simpa [hc] using hb : c = b)
      exact h.good_of_bound hk hc

theorem lookup? (name : String) : t.lookup? j name = s.lookup? i name := by
  rw [Store.lookup?, Store.lookup?, h.binding? hij]

theorem good_of_lookup? (hv : s.lookup? i name = some v) : Good G v.refs := by
  obtain ⟨b, hb, rfl⟩ := Option.map_eq_some_iff.1 hv
  exact h.good_of_binding? hij hb

theorem binder? (name : String) :
    Option.Rel (Twin G s t) (s.binder? i name) (t.binder? j name) := by
  refine find?_rel_of_forall₂ (h.chain hij).2.2 fun _ _ hk => ?_
  rw [(h.scope _ _ hk).bindings]

theorem hoistTarget : Twin G s t (s.hoistTarget i) (t.hoistTarget j) := by
  have hall := (h.chain hij).2.2
  have hfind := find?_rel_of_forall₂ (f := fun i => decide ((s.scope i).kind ≠ .block))
    (g := fun j => decide ((t.scope j).kind ≠ .block)) hall fun _ _ hk => by
      rw [(h.scope _ _ hk).kind]
  have hlast := getLast?_rel_of_forall₂ hall
  simp only [Store.hoistTarget]
  generalize (s.chain i).find? _ = a, (t.chain j).find? _ = b at hfind
  generalize (s.chain i).getLast? = c, (t.chain j).getLast? = d at hlast
  cases hfind with
  | some hk => exact hk
  | none =>
    cases hlast with
    | some hk => exact hk
    | none => exact hij

theorem declare (hv : Good G v.refs) (name : String) (constant : Bool) :
    SameResult (SameChange G s t) (s.declare i name v constant) (t.declare j name v constant) := by
  unfold Store.declare
  rw [h.get? hij]
  split
  · exact .error _
  · exact .ok (.bind name hij hv)

theorem declareVar (hv : Good G v.refs) (name : String) :
    SameResult (SameChange G s t) (s.declareVar i name v) (t.declareVar j name v) :=
  h.declare (h.hoistTarget hij) hv name false

theorem assign (hv : Good G v.refs) (name : String) :
    SameResult (SameChange G s t) (s.assign i name v) (t.assign j name v) := by
  have hb := h.binder? hij name
  unfold Store.assign
  generalize s.binder? i name = a, t.binder? j name = b at hb
  cases hb with
  | none => exact .error _
  | some hk =>
    simp only [h.get? hk]
    split
    · exact .error _
    · exact .ok (.bind name hk hv)

end Tracks

end Store

end TinyScript

/-
  TinyScript.Proofs.Store.Resolving — reading, assigning and declaring mean the same name.

  A name stands for the binding in the nearest scope that has one (`Resolves`), and a name that is
  hoisted goes to the nearest scope that is no block (`Hoists`). Both are said over the parents of
  scopes (`Nearest`), while the store walks a list that it cuts off after as many scopes as there
  are places. In disciplined hands nothing is ever cut off (`Grounded`), also above a retained scope
  that nobody holds and whose parents were freed since, with other scopes in their places.

  What an operation leaves of a scope, it leaves with all that is bound in it (`Spares`). So a
  constant has its value until its scope is freed.
-/

import Mathlib.Logic.Relation
import TinyScript.Proofs.Store.Discipline
import TinyScript.Store.Bench

namespace TinyScript

namespace Store

variable {s t u : Store} {i j k p : ScopeId} {name other : String} {b c : Binding} {v : Value}
  {q : Scope → Bool} {chain : List ScopeId} {change : Change}

/-! ## The nearest scope -/

/-- From scope `i` upwards, `j` is the first that meets the condition. -/
inductive Nearest (s : Store) (q : Scope → Bool) : ScopeId → ScopeId → Prop
  | here {i : ScopeId} : q (s.scope i) = true → Nearest s q i i
  | above {i p j : ScopeId} : q (s.scope i) = false → (s.scope i).parent = some p →
    Nearest s q p j → Nearest s q i j

namespace Nearest

theorem meets (h : s.Nearest q i j) : q (s.scope j) = true := by
  induction h with
  | here hq => exact hq
  | above _ _ _ ih => exact ih

theorem unique (h : s.Nearest q i j) (h' : s.Nearest q i k) : j = k := by
  induction h with
  | here hq =>
    cases h' with
    | here => rfl
    | above hn _ _ => simp [hq] at hn
  | above hn hp _ ih =>
    cases h' with
    | here hq => simp [hn] at hq
    | above _ hp' h' =>
      cases hp.symm.trans hp'
      exact ih h'

/-- Nothing else counts than the parents and who meets the condition. -/
theorem congr (h : s.Nearest q i j) (hp : ∀ k, (t.scope k).parent = (s.scope k).parent)
    (hq : ∀ k, q (t.scope k) = q (s.scope k)) : t.Nearest q i j := by
  induction h with
  | here h => exact .here ((hq _).trans h)
  | above hn hu _ ih => exact .above ((hq _).trans hn) ((hp _).trans hu) ih

end Nearest

/-- The first scope of the chain that meets the condition is the nearest one. -/
theorem Chain.find?_iff (h : Chain s i chain) :
    chain.find? (fun k => q (s.scope k)) = some j ↔ s.Nearest q i j := by
  induction h with
  | @top i hp =>
    cases hq : q (s.scope i) with
    | true =>
      simp only [List.find?_cons, hq, Option.some.injEq]
      exact ⟨fun e => e ▸ .here hq, (Nearest.here hq).unique⟩
    | false =>
      simp only [List.find?_cons, hq, List.find?_nil, reduceCtorEq, false_iff]
      intro hj
      cases hj with
      | here h => simp [hq] at h
      | above _ h _ => simp [hp] at h
  | @under i p chain hp _ ih =>
    cases hq : q (s.scope i) with
    | true =>
      simp only [List.find?_cons, hq, Option.some.injEq]
      exact ⟨fun e => e ▸ .here hq, (Nearest.here hq).unique⟩
    | false =>
      simp only [List.find?_cons, hq, ih]
      refine ⟨.above hq hp, fun hj => ?_⟩
      cases hj with
      | here h => simp [hq] at h
      | above _ h hj =>
        cases hp.symm.trans h
        exact hj

def Resolves (s : Store) (name : String) (i j : ScopeId) (b : Binding) : Prop :=
  s.Nearest (·.bindings.has name) i j ∧ (s.scope j).bindings.get? name = some b

def Hoists (s : Store) (i j : ScopeId) : Prop := s.Nearest (·.kind != .block) i j

theorem Resolves.unique (h : s.Resolves name i j b) (h' : s.Resolves name i k c) :
    j = k ∧ b = c := by
  obtain rfl := h.1.unique h'.1
  exact ⟨rfl, Option.some.inj (h.2.symm.trans h'.2)⟩

theorem Resolves.exists_constant_iff (h : s.Resolves name i j b) {constant : Bool} :
    (∃ k c, s.Resolves name i k c ∧ c.constant = constant) ↔ b.constant = constant := by
  constructor
  · rintro ⟨k, c, hc, rfl⟩
    rw [(h.unique hc).2]
  · exact fun hb => ⟨j, b, h, hb⟩

/-- The nearest scope that has the name binds it. -/
theorem Nearest.resolves (h : s.Nearest (·.bindings.has name) i j) :
    ∃ b, s.Resolves name i j b := by
  have hb := h.meets
  rw [Table.has_eq] at hb
  obtain ⟨b, hb⟩ := Option.isSome_iff_exists.1 hb
  exact ⟨b, h, hb⟩

theorem binding?_eq (s : Store) (i : ScopeId) (name : String) : s.binding? i name =
    (s.binder? i name).bind fun j => (s.scope j).bindings.get? name := by
  unfold binding? binder?
  induction s.chain i with
  | nil => rfl
  | cons j chain ih =>
    rw [List.findSome?_cons, List.find?_cons, Table.has_eq]
    cases hb : (s.scope j).bindings.get? name with
    | none => exact ih
    | some b => exact hb.symm

section Whole

variable (hc : Chain s i (s.chain i))
include hc

theorem binder?_iff : s.binder? i name = some j ↔ s.Nearest (·.bindings.has name) i j :=
  hc.find?_iff (q := (·.bindings.has name))

theorem binding?_iff : s.binding? i name = some b ↔ ∃ j, s.Resolves name i j b := by
  rw [binding?_eq, Option.bind_eq_some_iff]
  refine exists_congr fun j => ?_
  rw [binder?_iff hc]
  rfl

theorem hoistTarget_eq (h : s.Hoists i j) : s.hoistTarget i = j := by
  have hf : (s.chain i).find? (fun k => (s.scope k).kind ≠ .block) = some j := by
    rw [← hc.find?_iff.2 h]
    congr 1
    funext k
    cases (s.scope k).kind <;> rfl
  show (((s.chain i).find? fun j => (s.scope j).kind ≠ .block).orElse fun _ =>
    (s.chain i).getLast?).getD i = j
  rw [hf]
  rfl

/-! ## Assigning -/

theorem assign_of_resolves (h : s.Resolves name i j b) (v : Value) : s.assign i name v =
    if b.constant then .error (.assignToConstant name) else .ok (.bind j name ⟨v, false⟩) := by
  unfold assign
  rw [(binder?_iff hc).2 h.1]
  obtain ⟨w, constant⟩ := b
  cases constant <;> simp [h.2]

theorem assign_of_unbound (h : ∀ j b, ¬ s.Resolves name i j b) (v : Value) :
    s.assign i name v = .error (.undefinedName name) := by
  unfold assign
  cases hb : s.binder? i name with
  | none => rfl
  | some j =>
    obtain ⟨b, hr⟩ := ((binder?_iff hc).1 hb).resolves
    exact absurd hr (h j b)

end Whole

/-! ## One binding set -/

/-- The second store differs from the first in what scope `j` binds to the name, and in nothing else
    that names go by. -/
structure Sets (s t : Store) (j : ScopeId) (name : String) (b : Binding) : Prop where
  bound : (t.scope j).bindings.get? name = some b
  others : ∀ k other, k ≠ j ∨ other ≠ name →
    (t.scope k).bindings.get? other = (s.scope k).bindings.get? other
  parent : ∀ k, (t.scope k).parent = (s.scope k).parent
  kind : ∀ k, (t.scope k).kind = (s.scope k).kind
  size : t.scopes.size = s.scopes.size
  cells : t.cells = s.cells

theorem sets_bind (name : String) (b : Binding) (hj : j < s.scopes.size) :
    Sets s (s.bind j name b) j name b := by
  have h := changesScope_bind s name b hj
  refine ⟨?_, fun k other hk => ?_, fun k => ?_, fun k => ?_, h.size, h.cells⟩
  · rw [h.scope, if_pos rfl]
    exact Table.get?_put_self _ _ _
  · rw [h.scope]
    split
    next hkj =>
      subst hkj
      exact Table.get?_put_of_ne _ _ (hk.resolve_left fun hne => hne rfl)
    next => rfl
  · rw [h.scope]
    split
    next hkj => rw [hkj]; rfl
    next => rfl
  · rw [h.scope]
    split
    next hkj => rw [hkj]; rfl
    next => rfl

namespace Sets

variable (h : Sets s t j name b)
include h

/-- Where the name was bound before, names are found in the same scopes as before. -/
theorem nearest (hb : (s.scope j).bindings.get? name = some c) :
    t.Nearest (·.bindings.has other) i k ↔ s.Nearest (·.bindings.has other) i k := by
  have hhas : ∀ k, (t.scope k).bindings.has other = (s.scope k).bindings.has other := by
    intro k
    rw [Table.has_eq, Table.has_eq]
    by_cases hk : k = j ∧ other = name
    · obtain ⟨rfl, rfl⟩ := hk
      rw [h.bound, hb]
      rfl
    · rw [h.others k other (not_and_or.1 hk)]
  exact ⟨fun hn => hn.congr (fun k => (h.parent k).symm) fun k => (hhas k).symm,
    fun hn => hn.congr h.parent hhas⟩

theorem resolves_iff (hb : (s.scope j).bindings.get? name = some c)
    (hother : ¬ (other = name ∧ s.Nearest (·.bindings.has name) i j)) {d : Binding} :
    t.Resolves other i k d ↔ s.Resolves other i k d := by
  unfold Resolves
  rw [h.nearest hb]
  refine and_congr_right fun hn => ?_
  rw [h.others k other (not_and_or.1 ?_)]
  rintro ⟨rfl, rfl⟩
  exact hother ⟨rfl, hn⟩

end Sets

/-! ## Chains that come to an end -/

/-- From every place the parents come to an end, and no name is hoisted out of the global scope. -/
structure Grounded (s : Store) : Prop where
  chain : ∀ i, ∃ chain, Chain s i chain
  parentLt : ∀ i p, (s.scope i).parent = some p → p < s.scopes.size
  globalLt : global < s.scopes.size
  globalKind : (s.scope global).kind = .global

namespace Grounded

variable (h : Grounded s)
include h

/-- Names are looked up along the whole chain. -/
theorem whole (i : ScopeId) : Chain s i (s.chain i) := by
  obtain ⟨chain, hc⟩ := h.chain i
  by_cases hi : i < s.scopes.size
  · have hlt := hc.forall_mem (P := (· < s.scopes.size)) (fun i p _ hp => h.parentLt i p hp) hi
    rwa [hc.chain_eq hlt]
  · have hp : (s.scope i).parent = none := by rw [scope_of_ge (Nat.not_lt.1 hi)]; rfl
    have htop := Chain.top hp
    have hlen : [i].length ≤ s.scopes.size := Nat.lt_of_le_of_lt (Nat.zero_le _) h.globalLt
    rwa [Store.chain, htop.chainFrom_eq hlen]

/-- Parents still come to an end where some scopes lost theirs. -/
theorem of_parents (hsize : t.scopes.size = s.scopes.size)
    (hp : ∀ i, (t.scope i).parent = none ∨ (t.scope i).parent = (s.scope i).parent)
    (hk : (t.scope global).kind = (s.scope global).kind) : Grounded t := by
  refine ⟨fun i => ?_, fun i p hi => ?_, hsize ▸ h.globalLt, hk.trans h.globalKind⟩
  · obtain ⟨chain, hc⟩ := h.chain i
    induction hc with
    | @top i hn => exact ⟨[i], .top ((hp i).elim id (·.trans hn))⟩
    | @under i q _ hu _ ih =>
      rcases hp i with hn | he
      · exact ⟨[i], .top hn⟩
      · obtain ⟨chain, hc⟩ := ih
        exact ⟨i :: chain, .under (he.trans hu) hc⟩
  · rcases hp i with hn | he
    · simp [hn] at hi
    · rw [hsize]
      exact h.parentLt i p (he.symm.trans hi)

/-- A scope that is pushed under one in use may fill a place that others name as their parent. -/
theorem push {kind : ScopeKind} (hpush : Pushes s t i p kind) (ho : Orderly s) (hp : s.InUse p) :
    Grounded t := by
  have hvacant : (s.scope i).parent = none := by
    rcases hpush.place with ⟨he, _⟩ | ⟨_, _, rfl, _⟩
    · rw [ho.places.vacant i (by simp [he])]
      rfl
    · rw [scope_of_ge (Nat.le_refl _)]
      rfl
  have hsize : s.scopes.size ≤ t.scopes.size := by
    rcases hpush.place with ⟨_, he⟩ | ⟨_, _, _, he⟩ <;> omega
  have hglobal := hpush.ne_of_inUse ho.places ho.leases.inUse_global
  refine ⟨fun j => ?_, fun j q hj => ?_, Nat.lt_of_lt_of_le h.globalLt hsize, ?_⟩
  · obtain ⟨above, habove⟩ := ho.rooted p hp
    have hnew : Chain t i (i :: above) :=
      .under (by rw [hpush.scope_self]; rfl) (hpush.chain_of ho hp habove)
    obtain ⟨chain, hc⟩ := h.chain j
    -- the place had no parent, so a chain through it ended there
    induction hc with
    | @top j hn =>
      by_cases hj : j = i
      · exact ⟨_, hj ▸ hnew⟩
      · exact ⟨[j], .top (by rw [hpush.scope_of_ne hj, hn])⟩
    | @under j q _ hu _ ih =>
      have hj : j ≠ i := by
        rintro rfl
        simp [hvacant] at hu
      obtain ⟨chain, hc⟩ := ih
      exact ⟨j :: chain, .under (by rw [hpush.scope_of_ne hj, hu]) hc⟩
  · by_cases hji : j = i
    · rw [hji, hpush.scope_self] at hj
      cases hj
      exact Nat.lt_of_lt_of_le (ho.places.lt_of_inUse hp).1 hsize
    · rw [hpush.scope_of_ne hji] at hj
      exact Nat.lt_of_lt_of_le (h.parentLt j q hj) hsize
  · rw [hpush.scope_of_ne hglobal, h.globalKind]

/-- Where all scopes above are there, names are hoisted somewhere, at the latest into the global
    scope. -/
theorem exists_hoists (hp : Places s) {chain : List ScopeId} (hc : Chain s i chain)
    (hlive : ∀ k ∈ chain, k < s.scopes.size ∧ k ∉ s.free) :
    ∃ j, s.Hoists i j ∧ j < s.scopes.size := by
  induction hc with
  | @top i hn =>
    obtain ⟨hlt, hf⟩ := hlive i (by simp)
    have hg : i = global := (hp.top i hlt hf).1 hn
    refine ⟨i, .here ?_, hlt⟩
    rw [hg, h.globalKind]
    rfl
  | @under i q _ hup _ ih =>
    by_cases hk : (s.scope i).kind = .block
    · obtain ⟨j, hj, hlt⟩ := ih fun k hk => hlive k (List.mem_cons_of_mem _ hk)
      exact ⟨j, .above (by simp [hk]) hup hj, hlt⟩
    · exact ⟨i, .here (by simp [hk]), (hlive i List.mem_cons_self).1⟩

end Grounded

theorem grounded_empty : Grounded empty := by
  refine ⟨fun i => ⟨[i], .top (parent_empty i)⟩, fun i p hp => ?_, by decide, rfl⟩
  rw [parent_empty] at hp
  cases hp

theorem Sets.grounded (h : Sets s t j name b) (hg : Grounded s) : Grounded t :=
  hg.of_parents h.size (fun i => .inr (h.parent i)) (h.kind global)

/-! ## Who sees what was assigned -/

/-- What assigning to a name from scope `i` comes to. It depends on the nearest binding alone, and
    those who see the new value are those from where the name means that binding. -/
structure Assigns (s : Store) (i : ScopeId) (name : String) (v : Value) : Prop where
  ok_iff : (∃ change, s.assign i name v = .ok change) ↔
    ∃ j b, s.Resolves name i j b ∧ b.constant = false
  constant_iff : s.assign i name v = .error (.assignToConstant name) ↔
    ∃ j b, s.Resolves name i j b ∧ b.constant = true
  undefined_iff : s.assign i name v = .error (.undefinedName name) ↔ ∀ j b, ¬ s.Resolves name i j b
  after : ∀ change, s.assign i name v = .ok change → ∃ j b, s.Resolves name i j b ∧
    Sets s (s.apply change) j name ⟨v, b.constant⟩ ∧ ∀ k other,
      (other = name ∧ s.Nearest (·.bindings.has name) k j →
        (s.apply change).binding? k other = some ⟨v, b.constant⟩) ∧
      (¬ (other = name ∧ s.Nearest (·.bindings.has name) k j) →
        (s.apply change).binding? k other = s.binding? k other)

theorem lt_of_bound (hb : (s.scope j).bindings.get? name = some b) : j < s.scopes.size := by
  by_contra hlt
  rw [scope_of_ge (Nat.not_lt.1 hlt)] at hb
  cases hb

theorem Sets.after (h : Sets s t j name ⟨v, b.constant⟩) (hr : s.Resolves name i j b)
    (hg : Grounded s) (k : ScopeId) (other : String) :
    (other = name ∧ s.Nearest (·.bindings.has name) k j →
      t.binding? k other = some ⟨v, b.constant⟩) ∧
    (¬ (other = name ∧ s.Nearest (·.bindings.has name) k j) →
      t.binding? k other = s.binding? k other) := by
  have hc := (h.grounded hg).whole k
  constructor
  · rintro ⟨rfl, hk⟩
    exact (binding?_iff hc).2 ⟨j, (h.nearest hr.2).2 hk, h.bound⟩
  · intro hk
    ext d
    rw [binding?_iff hc, binding?_iff (hg.whole k)]
    exact exists_congr fun l => h.resolves_iff hr.2 hk

theorem Grounded.assigns (hg : Grounded s) (i : ScopeId) (name : String) (v : Value) :
    Assigns s i name v := by
  by_cases hr : ∃ j b, s.Resolves name i j b
  · obtain ⟨j, b, hr⟩ := hr
    have heq := assign_of_resolves (hg.whole i) hr v
    refine ⟨?_, ?_, ?_, fun change hk => ?_⟩
    · rw [heq, hr.exists_constant_iff]
      cases b.constant <;> simp
    · rw [heq, hr.exists_constant_iff]
      cases b.constant <;> simp
    · rw [heq]
      refine ⟨fun h => ?_, fun h => absurd hr (h j b)⟩
      cases hb : b.constant <;> simp [hb] at h
    · cases hb : b.constant with
      | true => simp [heq, hb] at hk
      | false =>
        simp only [heq, hb, Bool.false_eq_true, if_false, Except.ok.injEq] at hk
        have hsets : Sets s (s.apply change) j name ⟨v, b.constant⟩ := by
          rw [← hk, hb]
          exact sets_bind name ⟨v, false⟩ (lt_of_bound hr.2)
        exact ⟨j, b, hr, hsets, hsets.after hr hg⟩
  · have hn : ∀ j b, ¬ s.Resolves name i j b := fun j b h => hr ⟨j, b, h⟩
    have heq := assign_of_unbound (hg.whole i) hn v
    refine ⟨?_, ?_, ⟨fun _ => hn, fun _ => heq⟩, fun change hk => ?_⟩
    · simp [heq, hn]
    · simp [heq, hn]
    · simp [heq] at hk

/-! ## What scopes keep -/

structure Spares (s t : Store) : Prop where
  size : t.scopes.size = s.scopes.size
  free : ∀ i ∈ s.free, i ∈ t.free
  kind : ∀ i, (t.scope i).kind = (s.scope i).kind
  parent : ∀ i, (t.scope i).parent = none ∨ (t.scope i).parent = (s.scope i).parent
  constant : ∀ i name v, (s.scope i).bindings.get? name = some ⟨v, true⟩ →
    i ∈ t.free ∨ (t.scope i).bindings.get? name = some ⟨v, true⟩

namespace Spares

theorem trans (h : Spares s t) (h' : Spares t u) : Spares s u := by
  refine ⟨h'.size.trans h.size, fun i hi => h'.free i (h.free i hi),
    fun i => (h'.kind i).trans (h.kind i), fun i => ?_, fun i name v hb => ?_⟩
  · rcases h'.parent i with hn | he
    · exact .inl hn
    · rw [he]
      exact h.parent i
  · rcases h.constant i name v hb with hf | hb
    · exact .inl (h'.free i hf)
    · exact h'.constant i name v hb

theorem grounded (h : Spares s t) (hg : Grounded s) : Grounded t :=
  hg.of_parents h.size h.parent (h.kind global)

end Spares

theorem SameScopes.spares (h : SameScopes s t) : Spares s t := by
  refine ⟨h.size, fun i hi => h.free ▸ hi, fun i => ?_, fun i => .inr ?_,
    fun i name v hb => .inr ?_⟩
  · rw [h.scope]
  · rw [h.scope]
  · rw [h.scope, hb]

/-- Binding a name is no harm to constants if the scope has it as no constant. -/
theorem spares_bind (b : Binding) (hj : j < s.scopes.size)
    (hc : ∀ v, (s.scope j).bindings.get? name ≠ some ⟨v, true⟩) : Spares s (s.bind j name b) := by
  have h := sets_bind name b hj
  refine ⟨h.size, fun i hi => (changesScope_bind s name b hj).free ▸ hi, h.kind,
    fun i => .inr (h.parent i), fun i other v hb => .inr ?_⟩
  refine (h.others i other (not_and_or.1 ?_)).trans hb
  rintro ⟨rfl, rfl⟩
  exact hc v hb

theorem Frees.spares (h : Frees s t i) : Spares s t := by
  refine ⟨h.size, fun j hj => ?_, fun j => ?_, fun j => ?_, fun j name v hb => ?_⟩
  · rw [h.free]
    exact List.mem_cons_of_mem _ hj
  all_goals by_cases hj : j = i
  · rw [h.scope, if_pos hj, hj]
    rfl
  · rw [h.scope_of_ne hj]
  · rw [h.scope, if_pos hj]
    exact .inl rfl
  · rw [h.scope_of_ne hj]
    exact .inr rfl
  · rw [h.free, hj]
    exact .inl List.mem_cons_self
  · rw [h.scope_of_ne hj]
    exact .inr hb

theorem Retires.spares (h : Retires s t i) : Spares s t := by
  have hsame : ∀ j, (t.scope j).kind = (s.scope j).kind ∧
      (t.scope j).bindings = (s.scope j).bindings := by
    intro j
    rw [h.scope]
    split
    next hj => rw [hj]; exact ⟨rfl, rfl⟩
    next => exact ⟨rfl, rfl⟩
  refine ⟨h.size, fun j hj => h.free ▸ hj, fun j => (hsame j).1, fun j => .inr (h.parent j),
    fun j name v hb => .inr ?_⟩
  rw [(hsame j).2, hb]

theorem Collects.spares {held : List Ref} (h : Collects s held t) : Spares s t := by
  refine ⟨h.size, fun i hi => h.mem_free.2 (.inl hi), fun i => ?_, fun i => ?_,
    fun i name v hb => ?_⟩
  all_goals rcases h.scope_cases i with ⟨hr, hs, he⟩ | ⟨_, he⟩
  · rw [he]; rfl
  · rw [he]
  · rw [he]; exact .inl rfl
  · rw [he]; exact .inr rfl
  · exact .inl (h.mem_free.2 (.inr ⟨hr, hs⟩))
  · rw [he]; exact .inr hb

theorem spares_collect {held : List Ref} (h : Orderly (s.settle held)) :
    Spares s (s.collect held) :=
  (sameScopes_settle s held).spares.trans (collects_collect h).spares

theorem spares_release {held : List Ref} (hs : Orderly (s.settle held)) (hl : Linked s) :
    Spares s (s.release held i) :=
  hs.release_rel hl (fun s => (sameScopes_settle s held).spares) (SameScopes.refl s).spares
    .trans Frees.spares (fun ht _ => ht.spares) Collects.spares

/-- Names are declared where no constant of that name is. -/
theorem not_constant_of_declare {constant : Bool} (h : s.declare i name v constant = .ok change)
    (w : Value) :
    (s.scope i).bindings.get? name ≠ some ⟨w, true⟩ := by
  intro hb
  simp [declare, hb] at h

theorem spares_declare {constant : Bool} (h : s.declare i name v constant = .ok change)
    (hi : i < s.scopes.size) :
    Spares s (s.apply change) := by
  cases Holding.declare_eq h
  exact spares_bind _ hi (not_constant_of_declare h)

theorem Grounded.spares_assign (hg : Grounded s) (h : s.assign i name v = .ok change) :
    Spares s (s.apply change) := by
  obtain ⟨j, b, hr, hb⟩ := (hg.assigns i name v).ok_iff.1 ⟨change, h⟩
  rw [assign_of_resolves (hg.whole i) hr, hb] at h
  cases h
  refine spares_bind _ (lt_of_bound hr.2) fun w hw => ?_
  cases hr.2.symm.trans hw
  cases hb

theorem sameScopes_apply (h : ∀ i name b, change ≠ .bind i name b) :
    SameScopes s (s.apply change) := by
  cases change with
  | bind i name b => exact absurd rfl (h i name b)
  | setField x name v => exact (changesCell_setField s x name v).same
  | setItem x place v => exact (changesCell_setItem s x place v).same
  | append x v => exact (changesCell_append s x v).same
  | dropLast x => exact (changesCell_dropLast s x).same

end Store

/-- Where a name cannot be bound, nothing is done but making the value. -/
theorem Bench.storeBy_failed {b : Bench} {value : Recipe}
    {use : Store → Value → Except Failure Change} {failure : Failure}
    (h : (b.storeBy value use).2 = .failed failure) :
    (b.storeBy value use).1 = { b with store := (b.build b.held b.store value).2 } := by
  unfold Bench.storeBy at h ⊢
  cases hu : use (b.build b.held b.store value).2 (b.build b.held b.store value).1 with
  | ok change => simp [hu] at h
  | error f => simp [hu]

/-! ## Disciplined use -/

namespace Holding

open Store

variable {h k : Holding} {i : ScopeId} {name : String} {v : Value}

theorem Attached.hoists (ha : h.Attached i) (hi : Inv h) (hg : Grounded h.store) :
    ∃ j, h.store.Hoists i j ∧ h.store.hoistTarget i = j ∧ j < h.store.scopes.size := by
  obtain ⟨chain, hc, hlive⟩ := ha.exists_chain hi
  obtain ⟨j, hj, hlt⟩ := hg.exists_hoists hi.orderly.places hc hlive
  exact ⟨j, hj, hoistTarget_eq (hg.whole i) hj, hlt⟩

/-- A step pushes a scope under one in use, or it leaves scopes their parents and constants until it
    frees them. -/
theorem Step.cases (hs : Step true h k) (hi : Inv h) (hg : Grounded h.store) :
    (∃ i p kind, Pushes h.store k.store i p kind ∧ h.store.InUse p) ∨ Spares h.store k.store := by
  cases hs with
  | push p kind _ hh =>
    exact .inl ⟨_, p, kind, pushes_push h.store p kind hi.orderly.places.freeLt,
      hi.inUse_of_pushed hh⟩
  | capture i _ hk =>
    obtain ⟨_, _, _, hgives⟩ := (hk rfl).capture_gives hi
    exact .inr ((sameScopes_settle h.store h.held).trans hgives.same).spares
  | make c _ => exact .inr (SameScopes.spares ⟨rfl, rfl, rfl, rfl, rfl⟩)
  | hold r _ => exact .inr (SameScopes.refl h.store).spares
  | drop r _ => exact .inr (SameScopes.refl h.store).spares
  | declare i name v constant c hlive _ hc => exact .inr (spares_declare hc hlive.1)
  | declareVar i name v c _ hk _ hc =>
    obtain ⟨j, _, htarget, hlt⟩ := (hk rfl).hoists hi hg
    exact .inr (spares_declare hc (htarget ▸ hlt))
  | assign i name v c _ _ hc => exact .inr (hg.spares_assign hc)
  | change c hc _ => exact .inr (sameScopes_apply hc).spares
  | release i _ _ => exact .inr (spares_release hi.settled hi.linked)
  | collect => exact .inr (spares_collect hi.settled)

theorem step_grounded (hs : Step true h k) (hi : Inv h) (hg : Grounded h.store) :
    Grounded k.store := by
  rcases hs.cases hi hg with ⟨i, p, kind, hpush, hp⟩ | hspares
  · exact hg.push hpush hi.orderly hp
  · exact hspares.grounded hg

theorem reach_grounded (hr : Reach true h) : Grounded h.store := by
  induction hr with
  | init => exact grounded_empty
  | step hr hs ih => exact step_grounded hs (reach_inv hr) ih

theorem step_constant (hs : Step true h k) (hi : Inv h) (hg : Grounded h.store)
    (hb : (h.store.scope i).bindings.get? name = some ⟨v, true⟩) :
    i ∈ k.store.free ∨ (k.store.scope i).bindings.get? name = some ⟨v, true⟩ := by
  rcases hs.cases hi hg with ⟨j, p, kind, hpush, _⟩ | hspares
  · -- the place of the new scope had no bindings
    have hj : i ≠ j := by
      rintro rfl
      rcases hpush.place with ⟨he, _⟩ | ⟨_, _, rfl, _⟩
      · rw [hi.orderly.places.vacant i (by simp [he])] at hb
        cases hb
      · exact Nat.lt_irrefl _ (lt_of_bound hb)
    rw [hpush.scope_of_ne hj]
    exact .inr hb
  · exact hspares.constant i name v hb

/-- A constant has its value as long as its scope is not freed. -/
theorem steps_constant (hr : Reach true h) (hs : Relation.ReflTransGen (Step true) h k)
    (hb : (h.store.scope i).bindings.get? name = some ⟨v, true⟩) :
    (k.store.scope i).bindings.get? name = some ⟨v, true⟩ ∨
      ∃ m, Relation.ReflTransGen (Step true) h m ∧ Relation.ReflTransGen (Step true) m k ∧
        i ∈ m.store.free := by
  have hreach : ∀ {m}, Relation.ReflTransGen (Step true) h m → Reach true m := by
    intro m hm
    induction hm with
    | refl => exact hr
    | tail _ hs ih => exact ih.step hs
  induction hs with
  | refl => exact .inl hb
  | @tail l k hl hs ih =>
    rcases ih with hb | ⟨m, hm, hml, hf⟩
    · have hrl := hreach hl
      rcases step_constant hs (reach_inv hrl) (reach_grounded hrl) hb with hf | hb
      · exact .inr ⟨k, hl.tail hs, .refl, hf⟩
      · exact .inl hb
    · exact .inr ⟨m, hm, hml.tail hs, hf⟩

/-- In disciplined hands a name means the nearest binding of it, for reading and for assigning. Who
    assigns sets that binding, who declares sets the one of the scope itself, and who hoists sets
    the one of the nearest scope that is no block; nothing else changes, and nothing at all if the
    operation fails. Constants keep their values until their scopes are freed. -/
theorem names_mean_nearest_bindings (hr : Reach true h) :
    (∀ i name b, h.store.binding? i name = some b ↔ ∃ j, h.store.Resolves name i j b) ∧
    (∀ i name v, Assigns h.store i name v) ∧
    (∀ i name v constant change, h.Live i → h.store.declare i name v constant = .ok change →
      Sets h.store (h.store.apply change) i name ⟨v, constant⟩) ∧
    (∀ i name v change, h.Attached i → h.store.declareVar i name v = .ok change →
      ∃ j, h.store.Hoists i j ∧ Sets h.store (h.store.apply change) j name ⟨v, false⟩) ∧
    (∀ (b : Bench) scope name value constant op failure,
      op ∈ [.assign scope name value, .declare scope name value constant,
        .declareVar scope name value] → (b.perform op).2 = .failed failure →
      (b.perform op).1 = { b with store := (b.build b.held b.store value).2 }) ∧
    ∀ k i name v, Relation.ReflTransGen (Step true) h k →
      (h.store.scope i).bindings.get? name = some ⟨v, true⟩ →
      (k.store.scope i).bindings.get? name = some ⟨v, true⟩ ∨
        ∃ m, Relation.ReflTransGen (Step true) h m ∧ Relation.ReflTransGen (Step true) m k ∧
          i ∈ m.store.free := by
  have hi := reach_inv hr
  have hg := reach_grounded hr
  refine ⟨fun i name b => binding?_iff (hg.whole i), hg.assigns, ?_, ?_, ?_,
    fun k i name v => steps_constant hr⟩
  · intro i name v constant change hlive hd
    cases declare_eq hd
    exact sets_bind name ⟨v, constant⟩ hlive.1
  · intro i name v change ha hd
    obtain ⟨j, hj, htarget, hlt⟩ := ha.hoists hi hg
    cases declare_eq hd
    exact ⟨j, hj, htarget ▸ sets_bind name ⟨v, false⟩ (htarget ▸ hlt)⟩
  · intro b scope name value constant op failure hop hf
    simp only [List.mem_cons, List.not_mem_nil, or_false] at hop
    rcases hop with rfl | rfl | rfl <;> exact Bench.storeBy_failed hf

/-- A block in a function that has a variable of the same name as a constant outside of it. -/
theorem exists_shadowed_constant : ∃ h : Holding, Reach true h ∧
    h.store.Resolves "x" 0 0 ⟨.boolean false, true⟩ ∧ h.store.Resolves "x" 2 1 ⟨.nil, false⟩ ∧
    h.store.binding? 2 "y" = none := by
  have h1 : Reach true _ := .step .init (.declare _ 0 "x" (.boolean false) true
    (.bind 0 "x" ⟨.boolean false, true⟩) (by decide +kernel) (by simp [Value.refs, Value.ref?]) rfl)
  have h2 := h1.step (.push _ 0 .function (by decide +kernel) (by decide +kernel))
  have h3 := h2.step (.declare _ 1 "x" .nil false (.bind 1 "x" ⟨.nil, false⟩) (by decide +kernel)
    (by simp [Value.refs, Value.ref?]) rfl)
  have h4 := h3.step (.push _ 1 .block (by decide +kernel) (by decide +kernel))
  refine ⟨_, h4, ⟨.here (by decide +kernel), rfl⟩, ⟨.above ?_ ?_ (.here ?_), rfl⟩, rfl⟩
  · decide +kernel
  · decide +kernel
  · decide +kernel

/-- The variable is given a value from within the block, the constant keeps its own, and a name that
    is bound nowhere is told apart from both. -/
theorem names_in_a_block : ∃ h : Holding, Reach true h ∧
    (∃ change, h.store.assign 2 "x" (.boolean true) = .ok change ∧
      (h.store.apply change).binding? 2 "x" = some ⟨.boolean true, false⟩ ∧
      (h.store.apply change).binding? 0 "x" = some ⟨.boolean false, true⟩) ∧
    h.store.assign 0 "x" .nil = .error (.assignToConstant "x") ∧
    h.store.assign 2 "y" .nil = .error (.undefinedName "y") := by
  obtain ⟨h, hr, hconst, hvar, hy⟩ := exists_shadowed_constant
  obtain ⟨hread, hassign, _⟩ := names_mean_nearest_bindings hr
  obtain ⟨change, hc⟩ := (hassign 2 "x" (.boolean true)).ok_iff.2 ⟨1, _, hvar, rfl⟩
  obtain ⟨j, b, hj, _, hafter⟩ := (hassign 2 "x" (.boolean true)).after change hc
  obtain ⟨rfl, rfl⟩ := hvar.unique hj
  refine ⟨h, hr, ⟨change, hc, (hafter 2 "x").1 ⟨rfl, hvar.1⟩, ?_⟩, ?_, ?_⟩
  · rw [(hafter 0 "x").2 fun ⟨_, h0⟩ => absurd (hconst.1.unique h0) (by decide)]
    exact (hread 0 "x" _).2 ⟨0, hconst⟩
  · exact (hassign 0 "x" .nil).constant_iff.2 ⟨0, _, hconst, rfl⟩
  · refine (hassign 2 "y" .nil).undefined_iff.2 fun j b hb => ?_
    rw [(hread 2 "y" b).2 ⟨j, hb⟩] at hy
    cases hy

/-- Without the last rule a name is hoisted from a block into a block: the one above it was freed,
    and with it the way up to a scope that is none. -/
theorem a_name_is_hoisted_into_a_block : ∃ (h : Holding) (change : Change), Reach false h ∧
    h.Live 2 ∧ h.store.declareVar 2 "x" .nil = .ok change ∧ ¬ h.store.Hoists 2 1 ∧
    (h.store.scope 1).bindings.get? "x" = none ∧
    ((h.store.apply change).scope 1).bindings.get? "x" = some ⟨.nil, false⟩ := by
  obtain ⟨h, hr, hlive, _, hvar, hnone, hkind, hlt⟩ := exists_orphaned_block
  refine ⟨h, _, hr, hlive, hvar, fun hh => ?_, hnone, (sets_bind "x" _ hlt).bound⟩
  have hmeets := hh.meets
  simp [hkind] at hmeets

end Holding

end TinyScript

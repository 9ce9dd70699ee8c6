/-
  TinyScript.Proofs.Store.Effects — what each operation of the store leaves alone.

  Operations on cells leave the scopes, the free places and the retained scopes as they are
  (`SameScopes`), and operations on scopes leave the cells. The facts about one operation stand
  here once, so that no later proof has to look into it.
-/

import TinyScript.Store.Change
import TinyScript.Store.Collect

namespace TinyScript

variable {name : String}

/-! ## References -/

theorem Value.mem_refs {v : Value} {r : Ref} : r ∈ v.refs ↔ v.ref? = some r := by
  simp [Value.refs]

theorem mem_valueRefs {vs : List Value} {r : Ref} : r ∈ valueRefs vs ↔ ∃ v ∈ vs, r ∈ v.refs := by
  simp [valueRefs, Value.mem_refs]

theorem mem_refs_native {n : Native} {r : Ref} :
    r ∈ (Cell.native n).refs ↔ ∃ v, n.held? = some v ∧ v.ref? = some r := by
  simp [Cell.refs, Option.bind_eq_some_iff]

theorem mem_mapRefs {β : Type} {f : β → List Ref} {t : Table β} {r : Ref} :
    r ∈ mapRefs f t ↔ ∃ name b, t.get? name = some b ∧ r ∈ f b := by
  simp only [mapRefs, List.mem_flatMap, Prod.exists]
  refine exists_congr fun name => exists_congr fun b => ?_
  rw [Std.TreeMap.mem_toList_iff_getElem?_eq_some]
  rfl

theorem Table.mem_values {β : Type} {t : Table β} {b : β} :
    b ∈ t.values ↔ ∃ name, t.get? name = some b := by
  have hvalues : t.values = t.toList.map (·.2) := by
    show t.inner.inner.values = (Std.DTreeMap.Internal.Impl.Const.toList t.inner.inner).map (·.2)
    rw [Std.DTreeMap.Internal.Impl.values_eq_map_snd,
      Std.DTreeMap.Internal.Impl.Const.toList_eq_toListModel_map, List.map_map]
    rfl
  rw [hvalues, List.mem_map]
  constructor
  · rintro ⟨⟨name, _⟩, hb, rfl⟩
    exact ⟨name, Std.TreeMap.mem_toList_iff_getElem?_eq_some.1 hb⟩
  · rintro ⟨name, hb⟩
    exact ⟨(name, b), Std.TreeMap.mem_toList_iff_getElem?_eq_some.2 hb, rfl⟩

theorem mem_valueRefs_values {t : Table Value} {r : Ref} :
    r ∈ valueRefs t.values ↔ r ∈ mapRefs Value.refs t := by
  simp only [mem_valueRefs, mem_mapRefs, Table.mem_values]
  constructor
  · rintro ⟨v, ⟨name, hv⟩, hr⟩
    exact ⟨name, v, hv, hr⟩
  · rintro ⟨name, v, hv, hr⟩
    exact ⟨v, ⟨name, hv⟩, hr⟩

/-- Putting an entry into a table adds no references but its own. -/
theorem mem_mapRefs_put {β : Type} {f : β → List Ref} {t : Table β} {b : β} {r : Ref}
    (h : r ∈ mapRefs f (t.put name b)) : r ∈ mapRefs f t ∨ r ∈ f b := by
  obtain ⟨other, c, hc, hr⟩ := mem_mapRefs.1 h
  by_cases hn : other = name
  · rw [hn, Table.get?_put_self] at hc
    cases hc
    exact .inr hr
  · rw [Table.get?_put_of_ne t b hn] at hc
    exact .inl (mem_mapRefs.2 ⟨other, c, hc, hr⟩)

theorem mem_mapRefs_drop {β : Type} {f : β → List Ref} {t : Table β} {r : Ref}
    (h : r ∈ mapRefs f (t.drop name)) : r ∈ mapRefs f t := by
  obtain ⟨other, c, hc, hr⟩ := mem_mapRefs.1 h
  simp only [Table.drop, Table.get?, Std.TreeMap.getElem?_erase] at hc
  split at hc
  · cases hc
  · exact mem_mapRefs.2 ⟨other, c, hc, hr⟩

namespace Cell

variable {c : Cell} {v : Value} {r : Ref}

/-- What is put into an object adds no references but its own. -/
theorem mem_refs_setField (h : r ∈ (c.setField name v).refs) :
    r ∈ c.refs ∨ r ∈ v.refs := by
  cases c with
  | object classRef fields =>
    rcases List.mem_cons.1 h with h | h
    · exact .inl (List.mem_cons.2 (.inl h))
    · exact (mem_mapRefs_put h).imp_left (List.mem_cons_of_mem _)
  | _ => exact .inl h

theorem mem_refs_setItem {place : Nat} (h : r ∈ (c.setItem place v).refs) :
    r ∈ c.refs ∨ r ∈ v.refs := by
  cases c with
  | array items =>
    rw [setItem, refs_array, mem_valueRefs] at h
    rw [refs_array, mem_valueRefs]
    obtain ⟨w, hw, hr⟩ := h
    rw [Array.mem_toList_iff] at hw
    rcases Array.mem_or_eq_of_mem_setIfInBounds hw with hw | rfl
    · exact .inl ⟨w, Array.mem_toList_iff.2 hw, hr⟩
    · exact .inr hr
  | _ => exact .inl h

theorem mem_refs_append (h : r ∈ (c.append v).refs) : r ∈ c.refs ∨ r ∈ v.refs := by
  cases c with
  | array items =>
    rw [refs_array]
    simpa [append, refs_array] using h
  | _ => exact .inl h

theorem mem_refs_dropLast (h : r ∈ c.dropLast.refs) : r ∈ c.refs := by
  cases c with
  | array items =>
    rw [dropLast, refs_array, mem_valueRefs, Array.toList_pop] at h
    rw [refs_array, mem_valueRefs]
    obtain ⟨w, hw, hr⟩ := h
    exact ⟨w, (List.dropLast_sublist _).subset hw, hr⟩
  | _ => exact h

end Cell

/-- A new binding adds no references but its own. -/
theorem Scope.mem_refs_bind {scope : Scope} {b : Binding} {r : Ref}
    (h : r ∈ (scope.bind name b).refs) : r ∈ scope.refs ∨ r ∈ b.value.refs :=
  mem_mapRefs_put h

namespace Store

variable {s t u : Store} {r x : Ref} {i j : ScopeId}

/-! ## Cells and leases -/

theorem mem_cells : r ∈ s.cells ↔ ∃ c, s.cell? r = some c := by
  rw [← Std.TreeMap.isSome_getElem?_iff_mem]
  exact Option.isSome_iff_exists

theorem cell?_eq_none : s.cell? r = none ↔ r ∉ s.cells := by
  rw [mem_cells]
  cases h : s.cell? r <;> simp

theorem liveLease?_eq_some :
    s.liveLease? i = some r ↔ (s.scope i).lease = some r ∧ r ∈ s.cells := by
  simp [liveLease?, Option.filter_eq_some_iff]

theorem liveLease?_isSome :
    (s.liveLease? i).isSome ↔ ∃ r, (s.scope i).lease = some r ∧ r ∈ s.cells := by
  rw [Option.isSome_iff_exists]
  simp only [liveLease?_eq_some]

/-- Beyond the last place there is no scope. -/
theorem scope_of_ge (h : s.scopes.size ≤ i) : s.scope i = .vacant := by
  simp [scope, Array.getD, Nat.not_lt.2 h]

/-! ## Operations on cells -/

structure SameScopes (s t : Store) : Prop where
  scopes : t.scopes = s.scopes
  free : t.free = s.free
  retained : t.retained = s.retained
  limit : t.limit = s.limit
  globalLease : t.globalLease = s.globalLease

namespace SameScopes

theorem refl (s : Store) : SameScopes s s := ⟨rfl, rfl, rfl, rfl, rfl⟩

theorem trans (h : SameScopes s t) (k : SameScopes t u) : SameScopes s u :=
  ⟨k.scopes.trans h.scopes, k.free.trans h.free, k.retained.trans h.retained,
    k.limit.trans h.limit, k.globalLease.trans h.globalLease⟩

theorem scope (h : SameScopes s t) (i : ScopeId) : t.scope i = s.scope i := by
  simp only [Store.scope, h.scopes]

theorem size (h : SameScopes s t) : t.scopes.size = s.scopes.size := by rw [h.scopes]

end SameScopes

theorem sameScopes_insertCell (s : Store) (r : Ref) (c : Cell) :
    SameScopes s (s.insertCell r c) := ⟨rfl, rfl, rfl, rfl, rfl⟩

theorem sameScopes_eraseCell (s : Store) (r : Ref) : SameScopes s (s.eraseCell r).2 :=
  ⟨rfl, rfl, rfl, rfl, rfl⟩

theorem sameScopes_tidy (s : Store) : SameScopes s s.tidy := ⟨rfl, rfl, rfl, rfl, rfl⟩

theorem sameScopes_changeCell (s : Store) (r : Ref) (f : Cell → Cell) (added removed : List Ref)
    (h : ∀ c, s.cell? r = some c → Exchange c.refs (f c).refs added removed) :
    SameScopes s (s.changeCell r f added removed h) := by
  unfold changeCell
  split <;> exact ⟨rfl, rfl, rfl, rfl, rfl⟩

@[simp] theorem alloc_fst (s : Store) (c : Cell) : (s.alloc c).1 = s.next := rfl

@[simp] theorem alloc_next (s : Store) (c : Cell) : (s.alloc c).2.next = s.next + 1 := rfl

@[simp] theorem changeCell_next (s : Store) (r : Ref) (f : Cell → Cell) (added removed : List Ref)
    (h : ∀ c, s.cell? r = some c → Exchange c.refs (f c).refs added removed) :
    (s.changeCell r f added removed h).next = s.next := by
  unfold changeCell
  split <;> rfl

theorem cell?_alloc (s : Store) (c : Cell) (r : Ref) :
    (s.alloc c).2.cell? r = if r = s.next then some c else s.cell? r :=
  cell?_insertCell s.reserve s.next c r

theorem cell?_eraseCell (s : Store) (x r : Ref) :
    (s.eraseCell x).2.cell? r = if r = x then none else s.cell? r := by
  by_cases h : r = x
  · simp [eraseCell, cell?, h]
  · have hx : ¬ x = r := fun e => h e.symm
    simp [eraseCell, cell?, Std.TreeMap.getElem?_erase, h, hx]

theorem cell?_changeCell (s : Store) (x r : Ref) (f : Cell → Cell) (added removed : List Ref)
    (h : ∀ c, s.cell? x = some c → Exchange c.refs (f c).refs added removed) :
    (s.changeCell x f added removed h).cell? r =
      if r = x then (s.cell? x).map f else s.cell? r := by
  by_cases hr : r = x
  · subst hr
    simp [cell?_changeCell_self]
  · simp [hr, cell?_changeCell_of_ne s f added removed h hr]

/-! ## Changes of containers -/

structure ChangesCell (s t : Store) (x : Ref) (f : Cell → Cell) : Prop where
  same : SameScopes s t
  next : t.next = s.next
  cell? : ∀ r, t.cell? r = if r = x then (s.cell? x).map f else s.cell? r

theorem ChangesCell.mem_cells_iff {f : Cell → Cell} (h : ChangesCell s t x f) :
    r ∈ t.cells ↔ r ∈ s.cells := by
  rw [mem_cells, mem_cells, h.cell?]
  split
  next hr => cases hc : s.cell? x <;> simp [hr, hc]
  next => rfl

theorem changesCell_refl {f : Cell → Cell} (h : (s.cell? x).map f = s.cell? x) :
    ChangesCell s s x f := by
  refine ⟨.refl s, rfl, fun r => ?_⟩
  split
  next hr => rw [h, hr]
  next => rfl

theorem changesCell_changeCell (s : Store) (x : Ref) (f : Cell → Cell) (added removed : List Ref)
    (h : ∀ c, s.cell? x = some c → Exchange c.refs (f c).refs added removed) :
    ChangesCell s (s.changeCell x f added removed h) x f :=
  ⟨sameScopes_changeCell s x f added removed h, changeCell_next s x f added removed h,
    fun r => cell?_changeCell s x r f added removed h⟩

theorem changesCell_setField (s : Store) (x : Ref) (name : String) (v : Value) :
    ChangesCell s (s.setField x name v) x (Cell.setField name v) := by
  unfold setField
  split
  next => exact changesCell_changeCell ..
  next hno =>
    apply changesCell_refl
    cases h : s.cell? x with
    | none => rfl
    | some c =>
      cases c with
      | object c fields => exact absurd h (hno c fields)
      | _ => rfl

theorem changesCell_setItem (s : Store) (x : Ref) (place : Nat) (v : Value) :
    ChangesCell s (s.setItem x place v) x (Cell.setItem place v) := by
  unfold setItem
  split
  next items h =>
    split
    next => exact changesCell_changeCell ..
    next hp =>
      apply changesCell_refl
      simp [h, Cell.setItem, Array.setIfInBounds, hp]
  next hno =>
    apply changesCell_refl
    cases h : s.cell? x with
    | none => rfl
    | some c =>
      cases c with
      | array items => exact absurd h (hno items)
      | _ => rfl

theorem changesCell_append (s : Store) (x : Ref) (v : Value) :
    ChangesCell s (s.append x v) x (Cell.append v) := by
  unfold append
  split
  next => exact changesCell_changeCell ..
  next hno =>
    apply changesCell_refl
    cases h : s.cell? x with
    | none => rfl
    | some c =>
      cases c with
      | array items => exact absurd h (hno items)
      | _ => rfl

theorem changesCell_dropLast (s : Store) (x : Ref) :
    ChangesCell s (s.dropLast x) x Cell.dropLast := by
  unfold dropLast
  split
  next => exact changesCell_changeCell ..
  next hno =>
    apply changesCell_refl
    cases h : s.cell? x with
    | none => rfl
    | some c =>
      cases c with
      | array items => exact absurd h (hno items)
      | _ => rfl

theorem changesCell_emptyCell (s : Store) (x : Ref) :
    ChangesCell s (s.emptyCell x) x Cell.emptied := by
  unfold emptyCell
  split
  next => exact changesCell_changeCell ..
  next h =>
    apply changesCell_refl
    simp [h]

/-! ## Operations on scopes -/

theorem scope_changeScope (s : Store) (f : Scope → Scope) (added removed : List Ref)
    (h : Exchange (s.scope i).refs (f (s.scope i)).refs added removed) (hi : i < s.scopes.size)
    (j : ScopeId) :
    (s.changeScope i f added removed h).scope j = if j = i then f (s.scope i) else s.scope j := by
  by_cases hj : j = i
  · subst hj
    simp [scope_changeScope_self s f added removed h hi]
  · simp [hj, scope_changeScope_of_ne s f added removed h hj]

structure ChangesScope (s t : Store) (i : ScopeId) (f : Scope → Scope) : Prop where
  cells : t.cells = s.cells
  free : t.free = s.free
  retained : t.retained = s.retained
  limit : t.limit = s.limit
  globalLease : t.globalLease = s.globalLease
  next : t.next = s.next
  size : t.scopes.size = s.scopes.size
  scope : ∀ j, t.scope j = if j = i then f (s.scope i) else s.scope j

theorem ChangesScope.cell? {f : Scope → Scope} (h : ChangesScope s t i f) (r : Ref) :
    t.cell? r = s.cell? r := by
  simp only [Store.cell?, h.cells]

theorem changesScope_changeScope (s : Store) (f : Scope → Scope) (added removed : List Ref)
    (h : Exchange (s.scope i).refs (f (s.scope i)).refs added removed) (hi : i < s.scopes.size) :
    ChangesScope s (s.changeScope i f added removed h) i f := by
  refine ⟨by simp, ?_, ?_, ?_, ?_, ?_, by simp, scope_changeScope s f added removed h hi⟩
  all_goals
    unfold changeScope
    split <;> rfl

theorem changesScope_bind (s : Store) (name : String) (b : Binding) (hi : i < s.scopes.size) :
    ChangesScope s (s.bind i name b) i (·.bind name b) :=
  changesScope_changeScope s _ _ _ _ hi

theorem changesScope_markScope (s : Store) (f : Scope → Scope)
    (h : ∀ scope, (f scope).refs = scope.refs) (hi : i < s.scopes.size) :
    ChangesScope s (s.markScope i f h) i f :=
  changesScope_changeScope s f _ _ _ hi

theorem changesScope_setScope (s : Store) (scope : Scope) (hi : i < s.scopes.size) :
    ChangesScope s (s.setScope i scope) i fun _ => scope :=
  changesScope_changeScope s _ _ _ _ hi

/-- A change takes no cell away and makes no new one. -/
theorem mem_cells_apply (s : Store) (c : Change) : r ∈ (s.apply c).cells ↔ r ∈ s.cells := by
  cases c with
  | bind i name b => rw [apply, bind, changeScope_cells]
  | setField x name v => exact (changesCell_setField s x name v).mem_cells_iff
  | setItem x place v => exact (changesCell_setItem s x place v).mem_cells_iff
  | append x v => exact (changesCell_append s x v).mem_cells_iff
  | dropLast x => exact (changesCell_dropLast s x).mem_cells_iff

def vacated (scope : Scope) : Scope := { Scope.vacant with kind := scope.kind }

structure Frees (s t : Store) (i : ScopeId) : Prop where
  cells : t.cells = s.cells
  free : t.free = i :: s.free
  retained : t.retained = s.retained
  limit : t.limit = s.limit
  globalLease : t.globalLease = s.globalLease
  next : t.next = s.next
  size : t.scopes.size = s.scopes.size
  scope : ∀ j, t.scope j = if j = i then vacated (s.scope i) else s.scope j

theorem frees_freeScope (s : Store) (hi : i < s.scopes.size) :
    Frees s (s.freeScope i) i := by
  have h := changesScope_changeScope s (fun scope => { Scope.vacant with kind := scope.kind }) []
    (s.scope i).refs (.replace _ []) hi
  exact ⟨h.cells, congrArg (i :: ·) h.free, h.retained, h.limit, h.globalLease, h.next, h.size,
    h.scope⟩

structure Retires (s t : Store) (i : ScopeId) : Prop where
  cells : t.cells = s.cells
  free : t.free = s.free
  retained : t.retained = s.retained.push i
  limit : t.limit = s.limit
  globalLease : t.globalLease = s.globalLease
  next : t.next = s.next
  size : t.scopes.size = s.scopes.size
  scope : ∀ j, t.scope j = if j = i then { s.scope i with released := true } else s.scope j

theorem retires_retire (s : Store) (hi : i < s.scopes.size) :
    Retires s (s.retire i) i := by
  have h := changesScope_markScope s (fun scope => { scope with released := true })
    (fun _ => rfl) hi
  exact ⟨h.cells, h.free, congrArg (·.push i) h.retained, h.limit, h.globalLease, h.next, h.size,
    h.scope⟩

theorem scope_addScope (s : Store) (scope : Scope) (h : scope.refs = []) (j : Nat) :
    (s.addScope scope h).scope j = if j = s.scopes.size then scope else s.scope j := by
  show (s.scopes.push scope).getD j .vacant = if j = s.scopes.size then scope else s.scope j
  by_cases hj : j = s.scopes.size
  · simp [hj, Array.getD]
  · by_cases hlt : j < s.scopes.size
    · simp [Store.scope, Array.getD, hj, hlt, Nat.lt_succ_of_lt hlt, Array.getElem_push]
    · have : ¬ j < s.scopes.size + 1 := by omega
      simp [Store.scope, Array.getD, hj, hlt, this]

theorem push_cells (s : Store) (parent : ScopeId) (kind : ScopeKind) :
    (s.push parent kind).2.cells = s.cells := by
  unfold push
  dsimp only
  split
  · exact changeScope_cells ..
  · rfl

structure Pushes (s t : Store) (i parent : ScopeId) (kind : ScopeKind) : Prop where
  cells : t.cells = s.cells
  place : s.free = i :: t.free ∧ t.scopes.size = s.scopes.size ∨
    s.free = [] ∧ t.free = [] ∧ i = s.scopes.size ∧ t.scopes.size = s.scopes.size + 1
  retained : t.retained = s.retained
  limit : t.limit = s.limit
  globalLease : t.globalLease = s.globalLease
  next : t.next = s.next + 1
  scope : ∀ j, t.scope j = if j = i then .fresh (some parent) kind s.next else s.scope j

theorem pushes_push (s : Store) (parent : ScopeId) (kind : ScopeKind)
    (hfree : ∀ i ∈ s.free, i < s.scopes.size) :
    Pushes s (s.push parent kind).2 (s.push parent kind).1 parent kind := by
  unfold push
  match hf : s.free with
  | i :: free =>
    have hi : i < s.reserve.scopes.size := hfree i (by simp [hf])
    have h := changesScope_setScope s.reserve (.fresh (some parent) kind s.next) hi
    have hr : s.reserve.free = i :: free := hf
    simp only [hr]
    exact ⟨h.cells, .inl ⟨hf, h.size⟩, h.retained, h.limit, h.globalLease, h.next, h.scope⟩
  | [] =>
    have hr : s.reserve.free = [] := hf
    simp only [hr]
    exact ⟨rfl, .inr ⟨hf, hf, rfl, Array.size_push ..⟩, rfl, rfl, rfl, rfl,
      scope_addScope s.reserve _ _⟩

end Store

end TinyScript

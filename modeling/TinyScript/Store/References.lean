/-
  TinyScript.Store.References — all references from scopes and cells.

  A change in one scope or one cell is the change of all references together.
-/

import TinyScript.Store.Scope

namespace TinyScript

abbrev Cells := Std.TreeMap Ref Cell

/-- The references of scopes and cells. -/
def references (scopes : Array Scope) (cells : Cells) : List Ref :=
  scopes.toList.flatMap Scope.refs ++ mapRefs Cell.refs cells

/-! ## Scopes -/

/-- A scope that is changed. -/
theorem Exchange.modifyScope {scopes : Array Scope} {cells : Cells} {id : ScopeId}
    {f : Scope → Scope} {added removed : List Ref} (hid : id < scopes.size)
    (h : Exchange scopes[id].refs (f scopes[id]).refs added removed) :
    Exchange (references scopes cells) (references (scopes.modify id f) cells) added removed := by
  intro r
  have hl : id < scopes.toList.length := by simpa using hid
  have hold : scopes.toList =
      scopes.toList.take id ++ scopes[id] :: scopes.toList.drop (id + 1) := by
    rw [← Array.getElem_toList hid, List.getElem_cons_drop, List.take_append_drop]
  have hnew : (scopes.modify id f).toList =
      scopes.toList.take id ++ f scopes[id] :: scopes.toList.drop (id + 1) := by
    rw [Array.toList_modify, List.modify_eq_take_cons_drop hl]
    simp
  have := h r
  unfold references
  rw [hnew]
  conv => rhs; rw [hold]
  simp only [List.flatMap_append, List.flatMap_cons, List.count_append]
  omega

/-- A new scope without bindings. -/
theorem Exchange.pushScope (scopes : Array Scope) (cells : Cells) {scope : Scope}
    (h : scope.refs = []) :
    Exchange (references scopes cells) (references (scopes.push scope) cells) [] [] := by
  intro r
  simp [references, h]

/-! ## Cells -/

/-- Cells that are changed. -/
theorem Exchange.changeCells (scopes : Array Scope) {cells others : Cells}
    {added removed : List Ref}
    (h : Exchange (mapRefs Cell.refs cells) (mapRefs Cell.refs others) added removed) :
    Exchange (references scopes cells) (references scopes others) added removed := by
  intro r
  have := h r
  simp only [references, List.count_append]
  omega

/-! ## Elements and fields -/

theorem refs_array (items : Array Value) : (Cell.array items).refs = valueRefs items.toList := by
  simp only [Cell.refs, Cell.links, ← Array.foldr_toList]
  induction items.toList with
  | nil => rfl
  | cons v vs ih => cases h : v.ref? <;> simp [Value.refs, h, ih]

/-- An element that is put behind the others. -/
theorem Exchange.pushItem (items : Array Value) (v : Value) :
    Exchange (Cell.array items).refs (Cell.array (items.push v)).refs v.refs [] := by
  intro r
  simp [refs_array]

/-- The last element, which is taken away. -/
theorem Exchange.popItem (items : Array Value) :
    Exchange (Cell.array items).refs (Cell.array items.pop).refs []
      (valueRefs items.back?.toList) := by
  intro r
  have h : items.toList = items.pop.toList ++ items.back?.toList := by
    rw [Array.toList_pop, ← Array.getLast?_toList]
    cases hl : items.toList.getLast? with
    | none => simp [List.getLast?_eq_none_iff.1 hl]
    | some v =>
      obtain ⟨vs, hvs⟩ := List.getLast?_eq_some_iff.1 hl
      simp [hvs]
  rw [refs_array, refs_array]
  conv => rhs; rw [h]
  simp

/-- An element in place of another. -/
theorem Exchange.setItem {items : Array Value} {i : Nat} (hi : i < items.size) (v : Value) :
    Exchange (Cell.array items).refs (Cell.array (items.set i v)).refs v.refs items[i].refs := by
  intro r
  have hold : items.toList = items.toList.take i ++ items[i] :: items.toList.drop (i + 1) := by
    rw [← Array.getElem_toList hi, List.getElem_cons_drop, List.take_append_drop]
  have hnew : (items.set i v).toList = items.toList.take i ++ v :: items.toList.drop (i + 1) := by
    rw [Array.toList_set, List.set_eq_take_append_cons_drop, if_pos (by simpa using hi)]
  rw [refs_array, refs_array, hnew]
  conv => rhs; rw [hold]
  simp only [valueRefs_append, valueRefs_cons, List.count_append]
  omega

/-- A field that is set. -/
theorem Exchange.setField (c : Ref) (fields : Table Value) (name : String) (v : Value) :
    Exchange (Cell.object c fields).refs (Cell.object c (fields.put name v)).refs v.refs
      (entryRefs Value.refs fields name) := by
  intro r
  have := Exchange.insertEntry Value.refs fields name v r
  simp only [Cell.refs, Cell.links, List.count_cons, Table.put] at this ⊢
  omega

end TinyScript

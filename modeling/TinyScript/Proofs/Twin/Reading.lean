/-
  TinyScript.Proofs.Twin.Reading — good values look the same in both stores.

  Whatever is read of a good cell is the same in both stores, and good (`Tracks.cell?_cases`). So
  types, members, elements and texts of good values agree, and where something new is made of them,
  the same is made in both (`SameMade`).
-/

import TinyScript.Machine.Builtin
import TinyScript.Machine.Import
import TinyScript.Proofs.Twin.Working

namespace TinyScript.Store

open TinyScript.Text

variable {G H : Ref → Prop} {s t s' t' : Store} {r : Ref} {i j : ScopeId} {v w : Value}
  {name : String}

namespace Tracks

variable (h : Tracks G s t)
include h

/-- A good cell is the same in both stores, apart from the place of a lease. -/
theorem cell?_cases (hr : G r) : t.cell? r = s.cell? r ∨
    ∃ i j above, s.cell? r = some (.lease i above) ∧ t.cell? r = some (.lease j above) := by
  obtain ⟨c, d, hc, hd, hcd⟩ := h.cell r hr
  cases hcd with
  | same => exact .inl (hd.trans hc.symm)
  | lease above => exact .inr ⟨_, _, above, hc, hd⟩

theorem leasedScope (hr : G r) : Twin G s t (s.leasedScope r) (t.leasedScope r) := by
  obtain ⟨c, d, hc, hd, hcd⟩ := h.cell r hr
  unfold Store.leasedScope
  rw [hc, hd]
  cases hcd with
  | lease above hi hj => exact .of_lease hi hj hr
  | same hno =>
    cases c with
    | lease i above => exact absurd rfl (hno i above)
    | _ => exact h.twin_global

/-- A good lease is that of the scope that it keeps. What is no lease stands for the global scope.
    -/
theorem lease_leasedScope (hr : G r) :
    s.leasedScope r = Store.global ∨ (s.scope (s.leasedScope r)).lease = some r := by
  obtain ⟨c, _, hc, _, hcd⟩ := h.cell r hr
  unfold Store.leasedScope
  rw [hc]
  cases hcd with
  | lease _ hi => exact .inr hi
  | same hno =>
    cases c with
    | lease i above => exact absurd rfl (hno i above)
    | _ => exact .inl rfl

/-! ## Cells -/

theorem items (hr : G r) : t.items r = s.items r := by
  unfold Store.items
  rcases h.cell?_cases hr with he | ⟨i, j, above, hs, ht⟩
  · rw [he]
  · rw [hs, ht]

theorem good_items (hr : G r) : Good G (valueRefs (s.items r).toList) := by
  unfold Store.items
  split
  next items hc =>
    rw [← refs_array]
    exact h.closed r _ hr hc
  next => simp

theorem class? (hr : G r) : t.class? r = s.class? r := by
  unfold Store.class?
  rcases h.cell?_cases hr with he | ⟨i, j, above, hs, ht⟩
  · rw [he]
  · rw [hs, ht]

theorem good_class? (hr : G r) {c : Class} (hc : s.class? r = some c) : Good G c.refs :=
  h.closed r _ hr (class?_eq_some.1 hc)

theorem object? (hr : G r) : t.object? r = s.object? r := by
  unfold Store.object?
  rcases h.cell?_cases hr with he | ⟨i, j, above, hs, ht⟩
  · rw [he]
  · rw [hs, ht]

theorem good_object? (hr : G r) {o : Ref × Table Value} (ho : s.object? r = some o) :
    G o.1 ∧ Good G (mapRefs Value.refs o.2) :=
  List.forall_mem_cons.1 (h.closed r _ hr (object?_eq_some.1 ho))

theorem classOf? (hr : G r) : t.classOf? r = s.classOf? r := by
  unfold Store.classOf?
  rw [h.object? hr]
  cases ho : s.object? r with
  | none => rfl
  | some o => simp only [Option.bind_eq_bind, Option.bind_some, h.class? (h.good_object? hr ho).1]

theorem good_classOf? (hr : G r) {c : Ref × Class} (hc : s.classOf? r = some c) :
    G c.1 ∧ Good G c.2.refs := by
  obtain ⟨_, ho, hd⟩ := classOf?_eq_some.1 hc
  have hG := (h.good_object? hr ho).1
  exact ⟨hG, h.good_class? hG hd⟩

theorem fields (hr : G r) : t.fields r = s.fields r := by
  rw [Store.fields, Store.fields, h.object? hr]

theorem good_field (hr : G r) (hv : (s.fields r).get? name = some v) :
    Good G v.refs := by
  intro q hq
  unfold Store.fields at hv
  cases ho : s.object? r with
  | none =>
    rw [ho] at hv
    simp [Table.get?] at hv
  | some o =>
    rw [ho] at hv
    exact (h.good_object? hr ho).2 q (mem_mapRefs.2 ⟨name, v, hv, hq⟩)

theorem symbol? (hr : G r) : t.symbol? r = s.symbol? r := by
  unfold Store.symbol?
  rcases h.cell?_cases hr with he | ⟨i, j, above, hs, ht⟩
  · rw [he]
  · rw [hs, ht]

theorem good_symbol? (hr : G r) {x : String × Value × Bool} (hx : s.symbol? r = some x) :
    Good G x.2.1.refs := by
  unfold Store.symbol? at hx
  split at hx
  next hc =>
    cases hx
    exact h.closed r _ hr hc
  next => cases hx

theorem space (hr : G r) : t.space r = s.space r := by
  unfold Store.space
  rcases h.cell?_cases hr with he | ⟨i, j, above, hs, ht⟩
  · rw [he]
  · rw [hs, ht]

theorem good_space (hr : G r) : Good G (s.space r).2 := by
  unfold Store.space
  split
  next hc => exact h.closed r _ hr hc
  next => simp

/-! ## Types -/

theorem typeOf (hv : Good G v.refs) : t.typeOf v = s.typeOf v := by
  cases v with
  | object r =>
    simp only [Store.typeOf]
    rw [h.classOf? (hv.of_ref rfl)]
  | _ => rfl

/-- The type of a good value is good. -/
theorem good_typeOf (hv : Good G v.refs) : Good G (Value.type (s.typeOf v)).refs := by
  cases v with
  | object r =>
    simp only [Store.typeOf]
    split
    next c d hc =>
      have := (h.good_classOf? (hv.of_ref rfl) hc).1
      split <;> simp_all [Value.refs, Value.ref?]
    next => simp [Value.refs, Value.ref?]
  | _ => simp [Store.typeOf, Value.refs, Value.ref?]

theorem typeName {k : TypeValue} (hk : Good G (Value.type k).refs) :
    t.typeName k = s.typeName k := by
  cases k with
  | builtin => rfl
  | classRef c =>
    simp only [Store.typeName, className]
    rw [h.class? (hk.of_ref rfl)]

theorem shownType (hv : Good G v.refs) : t.shownType v = s.shownType v := by
  have hk := h.good_typeOf hv
  unfold Store.shownType
  rw [h.typeOf hv]
  split
  next => rfl
  next c hc =>
    rw [hc] at hk
    exact h.typeName (k := .classRef c) hk

theorem accepts (hv : Good G v.refs) (k : TypeValue) : t.accepts k v = s.accepts k v := by
  cases k with
  | builtin => rfl
  | classRef c =>
    cases v with
    | object r =>
      simp only [Store.accepts]
      rw [h.object? (hv.of_ref rfl)]
    | _ => rfl

theorem resolveType (hij : Twin G s t i j) (name : String) :
    t.resolveType j name = s.resolveType i name := by
  unfold Store.resolveType
  rw [h.lookup? hij]

theorem check (hij : Twin G s t i j) (hv : Good G v.refs) (typing : Typing) (pos : Position) :
    t.check j v typing pos = s.check i v typing pos := by
  have hresolve : t.resolveType j = s.resolveType i := funext (h.resolveType hij)
  have haccepts : (t.accepts · v) = (s.accepts · v) := funext (h.accepts hv)
  unfold Store.check
  rw [hresolve, haccepts, h.shownType hv]

theorem checkIf (hij : Twin G s t i j) (hv : Good G v.refs) (typing : Option Typing)
    (pos : Position) : t.checkIf j v typing pos = s.checkIf i v typing pos := by
  cases typing with
  | none => rfl
  | some typing => exact h.check hij hv typing pos

/-- Arguments are checked alike. -/
theorem checkArguments (hij : Twin G s t i j) (params : List Param) {args : List Value}
    (hargs : Good G (valueRefs args)) (pos : Position) :
    t.checkArguments j params args pos = s.checkArguments i params args pos := by
  unfold Store.checkArguments
  induction params generalizing args with
  | nil => rfl
  | cons p params ih =>
    cases args with
    | nil => rfl
    | cons v args =>
      rw [valueRefs_cons, good_append] at hargs
      simp only [List.zip_cons_cons, List.forM]
      rw [h.checkIf hij hargs.1, ih hargs.2]

/-! ## Members and elements -/

theorem boundMethod? (hv : Good G v.refs) (name : String) :
    t.boundMethod? v name = s.boundMethod? v name := by
  cases v with
  | object r =>
    simp only [Store.boundMethod?]
    rw [h.classOf? (hv.of_ref rfl)]
  | _ => rfl

theorem good_boundMethod? (hv : Good G v.refs) {f : Function}
    (hf : s.boundMethod? v name = some f) : Good G f.refs := by
  cases v with
  | object r =>
    simp only [Store.boundMethod?, Option.bind_eq_bind, Option.bind_eq_some_iff, Option.pure_def,
      Option.some.injEq] at hf
    obtain ⟨c, hc, m, hm, rfl⟩ := hf
    have hclass := (good_append.1 (h.good_classOf? (hv.of_ref rfl) hc).2).1
    refine good_cons.2 ⟨hclass _ (mem_mapRefs.2 ⟨name, m, hm, List.mem_cons_self⟩), hv⟩
  | _ => cases hf

/-- The method of an object has a lease, because its class has. -/
theorem isLease_boundMethod? (hv : Good G v.refs) {f : Function}
    (hf : s.boundMethod? v name = some f) : IsLease s f.closure := by
  cases v with
  | object r =>
    simp only [Store.boundMethod?, Option.bind_eq_bind, Option.bind_eq_some_iff, Option.pure_def,
      Option.some.injEq] at hf
    obtain ⟨c, hc, m, hm, rfl⟩ := hf
    obtain ⟨_, _, hclass⟩ := classOf?_eq_some.1 hc
    exact h.handles c.1 _ (h.good_classOf? (hv.of_ref rfl) hc).1 (class?_eq_some.1 hclass) _
      (List.mem_append_left _ (mem_mapRefs.2 ⟨name, m, hm, List.mem_cons_self⟩))
  | _ => cases hf

theorem export? (hr : G r) (name : String) : t.export? r name = s.export? r name := by
  have hgood := h.good_space hr
  unfold Store.export?
  rw [h.space hr]
  generalize (s.space r).2 = symbols at hgood
  induction symbols with
  | nil => rfl
  | cons q symbols ih =>
    rw [good_cons] at hgood
    simp only [List.findSome?_cons, h.symbol? hgood.1, ih hgood.2]

theorem good_export? (hr : G r) (hv : s.export? r name = some v) :
    Good G v.refs := by
  obtain ⟨q, hq, he⟩ := List.exists_of_findSome?_eq_some hv
  split at he
  next identifier value constant hs =>
    split at he
    · cases he
      exact h.good_symbol? (h.good_space hr q hq) hs
    · cases he
  next => cases he

theorem invalidIndex (hv : Good G v.refs) (hw : Good G w.refs) :
    t.invalidIndex v w = s.invalidIndex v w := by
  rw [Store.invalidIndex, Store.invalidIndex, h.shownType hv, h.shownType hw]

theorem elements (hv : Good G v.refs) : t.elements v = s.elements v := by
  cases v with
  | array r => simp only [Store.elements, h.items (hv.of_ref rfl)]
  | object r => simp only [Store.elements, h.fields (hv.of_ref rfl)]
  | namespaceRef r => simp only [Store.elements, h.space (hv.of_ref rfl)]
  | string => rfl
  | _ => simp only [Store.elements, h.shownType hv]

theorem good_elements (hv : Good G v.refs) {vs : List Value} (hvs : s.elements v = .ok vs) :
    Good G (valueRefs vs) := by
  cases v with
  | array r =>
    cases hvs
    exact h.good_items (hv.of_ref rfl)
  | string text =>
    cases hvs
    intro q hq
    obtain ⟨w, hw, hq⟩ := mem_valueRefs.1 hq
    obtain ⟨c, _, rfl⟩ := List.mem_map.1 hw
    cases hq
  | object r =>
    cases hvs
    intro q hq
    obtain ⟨w, hw, hq⟩ := mem_valueRefs.1 hq
    obtain ⟨c, _, rfl⟩ := List.mem_map.1 hw
    cases hq
  | namespaceRef r =>
    cases hvs
    intro q hq
    obtain ⟨w, hw, hq⟩ := mem_valueRefs.1 hq
    obtain ⟨c, hc, rfl⟩ := List.mem_map.1 hw
    cases List.mem_singleton.1 hq
    exact h.good_space (hv.of_ref rfl) q hc
  | _ => cases hvs

theorem length? (hv : Good G v.refs) : t.length? v = s.length? v := by
  cases v with
  | array r => simp only [Store.length?, h.items (hv.of_ref rfl)]
  | object r => simp only [Store.length?, h.fields (hv.of_ref rfl)]
  | namespaceRef r => simp only [Store.length?, h.space (hv.of_ref rfl)]
  | _ => rfl

theorem exportsFor (hr : G r) (targets : List Param) :
    t.exportsFor r targets = s.exportsFor r targets := by
  unfold Store.exportsFor
  simp only [h.export? hr, h.space hr]

theorem good_exportsFor (hr : G r) {targets : List Param} {vs : List Value}
    (hvs : s.exportsFor r targets = .ok vs) : Good G (valueRefs vs) := by
  induction targets generalizing vs with
  | nil =>
    cases hvs
    exact good_nil
  | cons p targets ih =>
    simp only [Store.exportsFor, List.mapM_cons] at hvs
    cases he : s.export? r p.name with
    | none =>
      rw [he] at hvs
      cases hvs
    | some value =>
      rw [he] at hvs
      cases hrest : s.exportsFor r targets with
      | error e =>
        unfold Store.exportsFor at hrest
        simp only [hrest] at hvs
        cases hvs
      | ok rest =>
        have hgood := ih hrest
        unfold Store.exportsFor at hrest
        simp only [hrest] at hvs
        cases hvs
        rw [valueRefs_cons, good_append]
        exact ⟨h.good_export? hr he, hgood⟩

theorem good_getD_field (hr : G r) (name : String) :
    Good G (((s.fields r).get? name).getD .nil).refs := by
  cases hv : (s.fields r).get? name with
  | none => exact good_nil
  | some v => exact h.good_field hr hv

theorem parts (hv : Good G v.refs) (targets : List Param) (pos : Position) :
    t.parts v targets pos = s.parts v targets pos := by
  cases v with
  | object r => simp only [Store.parts, h.fields (hv.of_ref rfl)]
  | namespaceRef r => exact h.exportsFor (hv.of_ref rfl) targets
  | _ => simp only [Store.parts, h.elements hv]

theorem good_parts (hv : Good G v.refs) {targets : List Param} {pos : Position} {vs : List Value}
    (hvs : s.parts v targets pos = .ok vs) : Good G (valueRefs vs) := by
  unfold Store.parts at hvs
  split at hvs
  next r =>
    cases hvs
    intro q hq
    obtain ⟨w, hw, hq⟩ := mem_valueRefs.1 hq
    obtain ⟨p, _, rfl⟩ := List.mem_map.1 hw
    exact h.good_getD_field (hv.of_ref rfl) p.name q hq
  next r => exact h.good_exportsFor (hv.of_ref rfl) hvs
  next =>
    cases he : s.elements v with
    | error e =>
      rw [he] at hvs
      cases hvs
    | ok items =>
      simp only [he, located, Bind.bind, Except.bind] at hvs
      split at hvs
      · cases hvs
      · cases hvs
        intro q hq
        obtain ⟨w, hw, hq⟩ := mem_valueRefs.1 hq
        exact h.good_elements hv he q (mem_valueRefs.2 ⟨w, List.mem_of_mem_take hw, hq⟩)

/-! ## Texts -/

theorem functionName (hr : G r) : t.functionName r = s.functionName r := by
  unfold Store.functionName
  rcases h.cell?_cases hr with he | ⟨i, j, above, hs, ht⟩
  · rw [he]
  · rw [hs, ht]

theorem spaceText (hr : G r) : t.spaceText r = s.spaceText r := by
  have hgood := h.good_space hr
  unfold Store.spaceText
  rw [h.space hr]
  generalize s.space r = space at hgood
  have hsymbols : (space.2.filterMap fun symbol => (t.symbol? symbol).map (·.1)) =
      space.2.filterMap fun symbol => (s.symbol? symbol).map (·.1) := by
    apply List.filterMap_congr
    intro q hq
    rw [h.symbol? (hgood q hq)]
  simp only [hsymbols]

theorem plainText? (nested : Bool) (hv : Good G v.refs) :
    t.plainText? nested v = s.plainText? nested v := by
  cases v with
  | function r => simp only [Store.plainText?, h.functionName (hv.of_ref rfl)]
  | type k => simp only [Store.plainText?, h.typeName hv]
  | symbol r => simp only [Store.plainText?, h.symbol? (hv.of_ref rfl)]
  | namespaceRef r => simp only [Store.plainText?, h.spaceText (hv.of_ref rfl)]
  | _ => rfl

theorem labelledFields (hr : G r) : t.labelledFields r = s.labelledFields r := by
  rw [Store.labelledFields, Store.labelledFields, h.fields hr]

theorem good_labelledFields (hr : G r) :
    Good G (valueRefs ((s.labelledFields r).map (·.2))) := by
  intro q hq
  obtain ⟨v, hv, hq⟩ := mem_valueRefs.1 hq
  simp only [Store.labelledFields, List.map_map, List.mem_map, Function.comp_apply] at hv
  obtain ⟨⟨name, w⟩, hw, rfl⟩ := hv
  exact h.good_field hr (Std.TreeMap.mem_toList_iff_getElem?_eq_some.1 hw) q hq

/-! ## Changes of containers -/

theorem checkProperty {c : Class} (hc : Good G c.refs) (hv : Good G v.refs) (name : String)
    (pos : Position) : t.checkProperty c name v pos = s.checkProperty c name v pos := by
  unfold Store.checkProperty
  split
  next property lease _ hl =>
    have hlease : G lease := (good_append.1 hc).2 lease (by simp [hl])
    exact h.checkIf (h.leasedScope hlease) hv _ pos
  next => rfl

theorem setMember (hv : Good G v.refs) (hw : Good G w.refs) (name : String) (pos : Position) :
    SameResult (SameChange G s t) (s.setMember v name w pos) (t.setMember v name w pos) := by
  cases v with
  | object r =>
    have hput : SameChange G s t (.setField r name w) (.setField r name w) :=
      .container (fun _ _ _ he => nomatch he) hw
    simp only [Store.setMember]
    rw [h.classOf? (hv.of_ref rfl)]
    cases hc : s.classOf? r with
    | none => exact .ok hput
    | some c =>
      simp only [h.checkProperty (h.good_classOf? (hv.of_ref rfl) hc).2 hw]
      cases s.checkProperty c.2 name w pos with
      | error e => exact .error e
      | ok => exact .ok hput
  | _ =>
    simp only [Store.setMember, h.shownType hv]
    exact .error _

theorem setElement {key : Value} (hv : Good G v.refs) (hkey : Good G key.refs) (hw : Good G w.refs)
    (pos : Position) :
    SameResult (SameChange G s t) (s.setElement v key w pos) (t.setElement v key w pos) := by
  unfold Store.setElement
  simp only [h.invalidIndex hv hkey]
  split
  next r i =>
    rw [h.items (hv.of_ref rfl)]
    split
    next =>
      split
      · exact .ok (.container (fun _ _ _ he => nomatch he) hw)
      · split
        · exact .ok (.container (fun _ _ _ he => nomatch he) hw)
        · exact .error _
    next => exact .error _
  next => exact h.setMember hv hw _ pos
  next => exact .error _

end Tracks

end TinyScript.Store

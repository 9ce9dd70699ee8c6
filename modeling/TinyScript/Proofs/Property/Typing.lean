/-
  TinyScript.Proofs.Property.Typing — declared properties keep to their types.

  The fields of an object respect its class if each property that is declared with built-in types
  only is there, and is nil or a value of one of the types (`Class.Respected`). A new object has all
  its properties, a copy has the fields of the original, and a field is set only after its value was
  checked. So in a store that frees nothing all objects respect their classes, whatever a script
  makes or changes (`Store.Typed`).
-/

import TinyScript.Proofs.Control.Creating
import TinyScript.Proofs.Store.Numbering

namespace TinyScript

open TinyScript.Text

variable {pos : Position} {c : Change} {name : String}

def Typing.isBuiltin (t : Typing) : Bool :=
  t.names.all fun name => (BuiltinType.ofName? name).isSome

def Typing.admits (t : Typing) (v : Value) : Bool :=
  t.names.any fun name => (BuiltinType.ofName? name).any (·.accepts v)

/-- Every property that is declared with built-in types only is there, and is nil or of one of the
    types. Of properties with one name the first counts. -/
def Class.Respected (c : Class) (fields : Table Value) : Prop :=
  ∀ name property typing, c.properties.find? (·.name == name) = some property →
    property.typing = some typing → typing.isBuiltin = true →
    ∃ v, fields.get? name = some v ∧ (v = .nil ∨ typing.admits v = true)

/-! ## Checks -/

namespace Store

variable {s t : Store} {objectClass : Ref} {scope : ScopeId}

theorem exists_of_mapM {names : List String} {types : List TypeValue}
    (h : names.mapM (s.resolveType scope) = .ok types) {type : TypeValue} (ht : type ∈ types) :
    ∃ name ∈ names, s.resolveType scope name = .ok type := by
  induction names generalizing types with
  | nil =>
    cases h
    cases ht
  | cons name names ih =>
    rw [List.mapM_cons] at h
    cases hname : s.resolveType scope name with
    | error f =>
      rw [hname] at h
      cases h
    | ok first =>
      cases hrest : names.mapM (s.resolveType scope) with
      | error f =>
        rw [hname, hrest] at h
        cases h
      | ok rest =>
        rw [hname, hrest] at h
        cases h
        rcases List.mem_cons.1 ht with rfl | ht
        · exact ⟨name, .head _, hname⟩
        · obtain ⟨other, hother, htype⟩ := ih hrest ht
          exact ⟨other, .tail _ hother, htype⟩

/-- What passes a check is accepted by one of the types. -/
theorem admits_of_check {v : Value} {typing : Typing} (hb : typing.isBuiltin = true)
    (h : s.check scope v typing pos = .ok ()) :
    typing.admits v = true := by
  unfold check at h
  cases hm : typing.names.mapM (s.resolveType scope) with
  | error f =>
    rw [hm] at h
    cases h
  | ok types =>
    rw [hm] at h
    have hany : types.any (s.accepts · v) = true := by
      by_contra hno
      change (if types.any (s.accepts · v) then _ else _) = _ at h
      rw [if_neg hno] at h
      cases h
    obtain ⟨type, htype, haccepts⟩ := List.any_eq_true.1 hany
    obtain ⟨name, hname, hresolve⟩ := exists_of_mapM hm htype
    obtain ⟨builtin, hbuiltin⟩ := Option.isSome_iff_exists.1 (List.all_eq_true.1 hb name hname)
    simp only [resolveType, hbuiltin] at hresolve
    cases hresolve
    exact List.any_eq_true.2 ⟨name, hname, by rw [hbuiltin]; exact haccepts⟩

/-- A member is set by setting a field of an object, after a check if it has a class. -/
theorem eq_of_setMember {owner v : Value} (h : s.setMember owner name v pos = .ok c) :
    ∃ r, owner = .object r ∧ c = .setField r name v ∧
      ∀ k d, s.classOf? r = some (k, d) → s.checkProperty d name v pos = .ok () := by
  cases owner with
  | object r =>
    simp only [setMember] at h
    cases hclass : s.classOf? r with
    | none =>
      rw [hclass] at h
      cases h
      exact ⟨r, rfl, rfl, fun _ _ he => by cases hclass.symm.trans he⟩
    | some found =>
      rw [hclass] at h
      cases hcheck : s.checkProperty found.2 name v pos with
      | error f =>
        simp only [hcheck] at h
        cases h
      | ok =>
        simp only [hcheck] at h
        cases h
        exact ⟨r, rfl, rfl, fun k d he => by cases hclass.symm.trans he; exact hcheck⟩
  | _ => cases h

/-- An element is set in an array, or as a field. -/
theorem cases_of_setElement {owner key v : Value} (h : s.setElement owner key v pos = .ok c) :
    (∀ r name v, c ≠ .setField r name v) ∨ ∃ name, s.setMember owner name v pos = .ok c := by
  simp only [setElement] at h
  split at h
  · split at h
    · split at h
      · cases h
        exact .inl fun _ _ _ he => by cases he
      · split at h
        · cases h
          exact .inl fun _ _ _ he => by cases he
        · cases h
    · cases h
  next name => exact .inr ⟨name, h⟩
  · cases h

/-- A value that was checked for a property. -/
theorem admits_of_checkProperty {c : Class} {v : Value}
    (hscope : (∀ p ∈ c.properties, p.typing = none) ∨ c.scope.isSome = true)
    (h : s.checkProperty c name v pos = .ok ()) {property : Param}
    (hp : c.properties.find? (·.name == name) = some property) {typing : Typing}
    (ht : property.typing = some typing) (hb : typing.isBuiltin = true) :
    typing.admits v = true := by
  rcases hscope with hnone | hscope
  · rw [hnone property (List.mem_of_find?_eq_some hp)] at ht
    cases ht
  · obtain ⟨lease, hlease⟩ := Option.isSome_iff_exists.1 hscope
    simp only [checkProperty, hp, hlease, checkIf, ht] at h
    exact admits_of_check hb h

end Store

/-! ## Fields -/

namespace Class.Respected

variable {c : Class} {fields : Table Value}

theorem of_no_properties (hc : c.properties = []) (fields : Table Value) : c.Respected fields := by
  intro name property typing hp
  rw [hc] at hp
  cases hp

/-- A new object has all properties of its class, and they are nil. -/
theorem fresh (c : Class) :
    c.Respected (Table.ofList (c.properties.map fun p => (p.name, Value.nil))) := by
  intro name property typing hp _ _
  have hname : property.name = name := by simpa using List.find?_some hp
  have hmem : name ∈ (c.properties.map fun p => (p.name, Value.nil)).map Prod.fst := by
    rw [List.map_map]
    exact List.mem_map.2 ⟨property, List.mem_of_find?_eq_some hp, hname⟩
  obtain ⟨v, hv⟩ := Option.isSome_iff_exists.1 (Table.isSome_get?_ofList hmem)
  obtain ⟨_, _, he⟩ := List.mem_map.1 (Table.mem_of_get?_ofList hv)
  exact ⟨v, hv, .inl (congrArg Prod.snd he).symm⟩

theorem put (h : c.Respected fields) {v : Value}
    (hv : ∀ property typing, c.properties.find? (·.name == name) = some property →
      property.typing = some typing → typing.isBuiltin = true → typing.admits v = true) :
    c.Respected (fields.put name v) := by
  intro other property typing hp ht hb
  by_cases he : other = name
  · subst he
    exact ⟨v, Table.get?_put_self .., .inr (hv property typing hp ht hb)⟩
  · obtain ⟨u, hu, hok⟩ := h other property typing hp ht hb
    exact ⟨u, (Table.get?_put_of_ne _ _ he).trans hu, hok⟩

end Class.Respected

/-! ## Stores -/

namespace Store

/-- All objects have a class whose properties they respect, and the one of object literals declares
    nothing. -/
structure Typed (objectClass : Ref) (s : Store) : Prop where
  objects : ∀ r k fields, s.cell? r = some (.object k fields) →
    ∃ c, s.cell? k = some (.classDef c) ∧ c.Respected fields
  /-- Properties have types only where these can be looked up. -/
  checkable : ∀ r c, s.cell? r = some (.classDef c) →
    (∀ p ∈ c.properties, p.typing = none) ∨ c.scope.isSome = true
  plain : s.cell? objectClass = some (.classDef .plain)

variable {s t : Store} {objectClass : Ref} {scope : ScopeId} {r : Ref}

namespace Typed

theorem sameData (h : Typed objectClass s) (hd : SameData s t) : Typed objectClass t := by
  refine ⟨fun r k fields hr => ?_, fun r c hc => h.checkable r c ((hd r _ rfl).1 hc),
    (hd _ _ rfl).2 h.plain⟩
  obtain ⟨c, hc, hrespected⟩ := h.objects r k fields ((hd r _ rfl).1 hr)
  exact ⟨c, (hd k _ rfl).2 hc, hrespected⟩

/-- A cell is made. If it is an object it respects its class. -/
theorem alloc (h : Typed objectClass s) (hs : Numbered s) {c : Cell}
    (hobject : ∀ k fields, c = .object k fields →
      ∃ d, s.cell? k = some (.classDef d) ∧ d.Respected fields)
    (hclass : ∀ d, c = .classDef d →
      (∀ p ∈ d.properties, p.typing = none) ∨ d.scope.isSome = true) :
    Typed objectClass (s.alloc c).2 := by
  have hold : ∀ {r d}, s.cell? r = some d → (s.alloc c).2.cell? r = some d := by
    intro r d hd
    rw [cell?_alloc, if_neg (Nat.ne_of_lt (hs.cellLt r d hd)), hd]
  refine ⟨fun r k fields hr => ?_, fun r d hd => ?_, hold h.plain⟩
  · rw [cell?_alloc] at hr
    split at hr
    · obtain ⟨d, hd, hrespected⟩ := hobject k fields (Option.some.inj hr)
      exact ⟨d, hold hd, hrespected⟩
    · obtain ⟨d, hd, hrespected⟩ := h.objects r k fields hr
      exact ⟨d, hold hd, hrespected⟩
  · rw [cell?_alloc] at hd
    split at hd
    · exact hclass d (Option.some.inj hd)
    · exact h.checkable r d hd

/-- Whatever a script makes respects its class. -/
theorem makes {control : Control} {c : Cell} (h : Typed objectClass s) (hs : Numbered s)
    (hc : s.Makes control objectClass c) : Typed objectClass (s.alloc c).2 := by
  cases hc with
  | literal fields =>
    refine h.alloc hs (fun k _ he => ?_) (fun _ he => by cases he)
    cases he
    exact ⟨_, h.plain, .of_no_properties rfl _⟩
  | fresh hd =>
    refine h.alloc hs (fun k _ he => ?_) (fun _ he => by cases he)
    cases he
    exact ⟨_, class?_eq_some.1 hd, .fresh _⟩
  | copy hobject =>
    refine h.alloc hs (fun k _ he => ?_) (fun _ he => by cases he)
    cases he
    exact h.objects _ _ _ (object?_eq_some.1 hobject)
  | classDef closure hd =>
    refine h.alloc hs (fun _ _ he => by cases he) fun d he => ?_
    cases he
    exact .inr rfl
  | hosted name properties =>
    refine h.alloc hs (fun _ _ he => by cases he) fun d he => ?_
    cases he
    refine .inl fun p hp => ?_
    obtain ⟨_, _, rfl⟩ := List.mem_map.1 hp
    rfl
  | _ => exact h.alloc hs (fun _ _ he => by cases he) fun _ he => by cases he

/-- A container is changed. If it is an object it still respects its class. -/
theorem changesCell (h : Typed objectClass s) {x : Ref} {f : Cell → Cell}
    (hc : ChangesCell s t x f) (hclass : ∀ c d, f c = .classDef d ↔ c = .classDef d)
    (hobject : ∀ k fields c, s.cell? x = some c → f c = .object k fields →
      ∃ d, s.cell? k = some (.classDef d) ∧ d.Respected fields) : Typed objectClass t := by
  have hclasses : ∀ r d, t.cell? r = some (.classDef d) ↔ s.cell? r = some (.classDef d) := by
    intro r d
    rw [hc.cell?]
    split
    next hr => simp [hr, hclass]
    next => rfl
  refine ⟨fun r k fields hr => ?_, fun r d hd => h.checkable r d ((hclasses r d).1 hd),
    (hclasses _ _).2 h.plain⟩
  obtain ⟨d, hd, hrespected⟩ : ∃ d, s.cell? k = some (.classDef d) ∧ d.Respected fields := by
    rw [hc.cell?] at hr
    split at hr
    · obtain ⟨c, hcell, he⟩ := Option.map_eq_some_iff.1 hr
      exact hobject k fields c hcell he
    · exact h.objects r k fields hr
  exact ⟨d, (hclasses k d).2 hd, hrespected⟩

theorem changesArray (h : Typed objectClass s) {x : Ref} {f : Cell → Cell}
    (hc : ChangesCell s t x f) (hf : ∀ c, f c = c ∨ ∃ a b, c = .array a ∧ f c = .array b) :
    Typed objectClass t := by
  refine h.changesCell hc (fun c d => ?_) fun k fields c hcell he => ?_
  · rcases hf c with hsame | ⟨a, b, rfl, harray⟩
    · rw [hsame]
    · simp [harray]
  · rcases hf c with hsame | ⟨a, b, rfl, harray⟩
    · exact h.objects x k fields (hcell.trans (congrArg some (hsame.symm.trans he)))
    · cases harray.symm.trans he

/-- Only a field that is set can be against a declaration. -/
theorem apply (h : Typed objectClass s) (hc : ∀ r name v, c ≠ .setField r name v) :
    Typed objectClass (s.apply c) := by
  cases c with
  | bind i name b =>
    exact h.sameData (.of_cells (by rw [Store.apply, Store.bind, changeScope_cells]))
  | setField r name v => exact absurd rfl (hc r name v)
  | setItem r place v =>
    exact h.changesArray (changesCell_setItem s r place v) fun c => by
      cases c <;> simp [Cell.setItem]
  | append r v =>
    exact h.changesArray (changesCell_append s r v) fun c => by cases c <;> simp [Cell.append]
  | dropLast r =>
    exact h.changesArray (changesCell_dropLast s r) fun c => by cases c <;> simp [Cell.dropLast]

/-- A field is set to a value that was checked. -/
theorem setMember (h : Typed objectClass s) {owner v : Value}
    (hc : s.setMember owner name v pos = .ok c) : Typed objectClass (s.apply c) := by
  obtain ⟨r, rfl, rfl, hcheck⟩ := eq_of_setMember hc
  refine h.changesCell (changesCell_setField s r name v) (fun c d => ?_)
    fun k fields c hcell he => ?_
  · cases c <;> simp [Cell.setField]
  · cases c with
    | object k fields =>
      cases he
      obtain ⟨d, hd, hrespected⟩ := h.objects r k fields hcell
      have hclass : s.classOf? r = some (k, d) :=
        classOf?_eq_some.2 ⟨fields, object?_eq_some.2 hcell, class?_eq_some.2 hd⟩
      refine ⟨d, hd, hrespected.put fun property typing hp ht hb => ?_⟩
      exact admits_of_checkProperty (h.checkable k d hd) (hcheck k d hclass) hp ht hb
    | _ => cases he

/-- Whatever a script changes, objects respect their classes. -/
theorem permits (h : Typed objectClass s) (hc : s.Permits scope c) :
    Typed objectClass (s.apply c) := by
  cases hc with
  | declare hc =>
    refine h.apply fun r name v he => ?_
    unfold Store.declare at hc
    split at hc <;> cases hc
    cases he
  | declareVar hc =>
    refine h.apply fun r name v he => ?_
    unfold Store.declareVar Store.declare at hc
    split at hc <;> cases hc
    cases he
  | assign hc =>
    refine h.apply fun r name v he => ?_
    unfold Store.assign at hc
    split at hc
    · cases hc
    · split at hc <;> cases hc
      cases he
  | member hc => exact h.setMember hc
  | element hc =>
    rcases cases_of_setElement hc with hc | ⟨name, hc⟩
    · exact h.apply hc
    · exact h.setMember hc
  | append r v => exact h.apply fun _ _ _ he => by cases he
  | dropLast r => exact h.apply fun _ _ _ he => by cases he

end Typed

/-- The store of a new interpreter. -/
theorem Built.typed (h : s.Built objectClass) : Numbered s ∧ Typed objectClass s := by
  induction h with
  | plain hc =>
    subst hc
    have hempty : Numbered Store.empty := leases_empty.numbered
    refine ⟨hempty.alloc _, fun r k fields hr => ?_, fun r c hr => ?_, ?_⟩
    · rw [cell?_alloc, cell?_empty] at hr
      split at hr
      · cases hr
      · split at hr <;> cases hr
    · rw [cell?_alloc, cell?_empty] at hr
      split at hr
      · cases hr
        exact .inl fun _ hp => nomatch hp
      · split at hr <;> cases hr
    · rw [cell?_alloc, alloc_fst, if_pos rfl]
  | make _ hc ih => exact ⟨ih.1.alloc _, ih.2.makes ih.1 hc⟩
  | bind name v _ ih =>
    refine ⟨ih.1.bind .., ih.2.apply (c := .bind Store.global name ⟨v, true⟩) fun _ _ _ he => ?_⟩
    cases he

end Store

end TinyScript

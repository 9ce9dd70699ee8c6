/-
  TinyScript.Proofs.Store.Enumeration — tables gone through in any order.

  A table lists its entries in the order of the names. One that hashes the names has an order of its
  own, which nobody chose. `Listing` is such an order for all tables of a store: the bindings of
  scopes, the fields of objects and the methods of classes.

  Keys are sorted before anyone sees them, and entries are found by name. So loops, destructuring
  and texts read the same whatever the order (`elementsIn_eq`, `partsIn_eq`,
  `labelledFieldsIn_eq`).
-/

import Mathlib.Data.List.Perm.Basic
import TinyScript.Machine.Render

namespace TinyScript

open TinyScript.Text

structure Enumeration (α : Type) where
  entries : Nat → Table α → List (String × α)
  perm (place : Nat) (t : Table α) : (entries place t).Perm t.toList

namespace Enumeration

variable {α : Type} (e : Enumeration α) (place : Nat) (t : Table α)

def refs (f : α → List Ref) : List Ref := (e.entries place t).flatMap fun entry => f entry.2

theorem refs_perm (f : α → List Ref) : (e.refs place t f).Perm (mapRefs f t) :=
  (e.perm place t).flatMap_right _

def sortedNames : List String :=
  ((e.entries place t).map Prod.fst).mergeSort fun a b => (compare a b).isLE

def find? (name : String) : Option α :=
  (e.entries place t).findSome? fun entry => if entry.1 = name then some entry.2 else none

theorem names_perm : ((e.entries place t).map Prod.fst).Perm t.names := by
  have h := (e.perm place t).map Prod.fst
  rwa [Std.TreeMap.map_fst_toList_eq_keys] at h

/-- Sorting leaves nothing of the order in which the names came. -/
theorem sortedNames_eq : e.sortedNames place t = t.names := by
  have hsorted : (e.sortedNames place t).Pairwise fun a b => (compare a b).isLE := by
    refine List.pairwise_mergeSort (fun a b c => Std.TransCmp.isLE_trans) (fun a b => ?_) _
    cases h : compare a b <;> simp [Std.OrientedOrd.eq_swap (a := b), h]
  have hnames : t.names.Pairwise fun a b => (compare a b).isLE :=
    t.names_ordered.imp fun h => by rw [h]; rfl
  refine List.Perm.eq_of_pairwise (fun a b _ _ hab hba => ?_) hsorted hnames
    ((List.mergeSort_perm _ _).trans (e.names_perm place t))
  exact Std.LawfulEqOrd.eq_of_compare (Std.OrientedCmp.isLE_antisymm hab hba)

/-- No two entries have one name, so the first one that is met is the only one. -/
theorem find?_eq (name : String) : e.find? place t name = t.get? name := by
  have hmem : ∀ a, (name, a) ∈ e.entries place t ↔ t.get? name = some a := by
    intro a
    rw [(e.perm place t).mem_iff]
    exact Std.TreeMap.mem_toList_iff_getElem?_eq_some
  cases h : e.find? place t name with
  | none =>
    cases ht : t.get? name with
    | none => rfl
    | some a => simpa using List.findSome?_eq_none_iff.1 h _ ((hmem a).2 ht)
  | some a =>
    obtain ⟨⟨other, b⟩, hb, hname⟩ := List.exists_of_findSome?_eq_some h
    split at hname
    next he =>
      cases he
      cases hname
      exact ((hmem b).1 hb).symm
    next => cases hname

end Enumeration

/-- An order for all tables of a store: the bindings of scopes by their place, the fields of objects
    and the methods of classes by the reference of their cell. -/
structure Listing where
  bindings : Enumeration Binding
  fields : Enumeration Value
  methods : Enumeration Function

def Listing.backwards : Listing where
  bindings := ⟨fun _ t => t.toList.reverse, fun _ t => t.toList.reverse_perm⟩
  fields := ⟨fun _ t => t.toList.reverse, fun _ t => t.toList.reverse_perm⟩
  methods := ⟨fun _ t => t.toList.reverse, fun _ t => t.toList.reverse_perm⟩

namespace Store

variable (o : Listing) (s : Store)

def keysIn (r : Ref) : List String := o.fields.sortedNames r (s.fields r)

def fieldIn (r : Ref) (name : String) : Option Value := o.fields.find? r (s.fields r) name

def elementsIn (v : Value) : Except Failure (List Value) :=
  match v with
  | .object r => .ok ((s.keysIn o r).map .string)
  | v => s.elements v

def partsIn (v : Value) (targets : List Param) (pos : Position) : Except Fault (List Value) :=
  match v with
  | .object r => .ok (targets.map fun t => (s.fieldIn o r t.name).getD .nil)
  | v => s.parts v targets pos

def labelledFieldsIn (r : Ref) : List (String × Value) :=
  (s.keysIn o r).filterMap fun name => (s.fieldIn o r name).map fun v => (name ++ ": ", v)

theorem elementsIn_eq (v : Value) : s.elementsIn o v = s.elements v := by
  cases v with
  | object r => simp only [elementsIn, elements, keysIn, Enumeration.sortedNames_eq]
  | _ => rfl

theorem partsIn_eq (v : Value) (targets : List Param) (pos : Position) :
    s.partsIn o v targets pos = s.parts v targets pos := by
  cases v with
  | object r => simp only [partsIn, parts, fieldIn, Enumeration.find?_eq]
  | _ => rfl

theorem labelledFieldsIn_eq (r : Ref) : s.labelledFieldsIn o r = s.labelledFields r := by
  unfold labelledFieldsIn labelledFields keysIn fieldIn
  simp only [Enumeration.sortedNames_eq, Enumeration.find?_eq, Table.names]
  rw [← Std.TreeMap.map_fst_toList_eq_keys, List.filterMap_map, ← List.filterMap_eq_map]
  refine List.filterMap_congr fun entry hentry => ?_
  have hget : (s.fields r).get? entry.1 = some entry.2 :=
    Std.TreeMap.mem_toList_iff_getElem?_eq_some.1 hentry
  simp [hget]

/-- The labels stand in the order of the names. -/
theorem labels_eq (r : Ref) :
    (s.labelledFields r).map Prod.fst = (s.fields r).names.map (· ++ ": ") := by
  rw [labelledFields, Table.names, ← Std.TreeMap.map_fst_toList_eq_keys, List.map_map, List.map_map]
  rfl

end Store

end TinyScript

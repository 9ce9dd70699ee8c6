/-
  TinyScript.Proofs.Control.Creating — the store of a new interpreter.

  It has the class of plain objects. All else in it is made as a script makes it, without declaring
  anything, and bound in the global scope (`Store.Built`).
-/

import TinyScript.Library
import TinyScript.Proofs.Control.Moves

namespace TinyScript

open TinyScript.Text

inductive Store.Built (objectClass : Ref) : Store → Prop
  | plain : objectClass = (Store.empty.alloc (.classDef .plain)).1 →
    Built objectClass (Store.empty.alloc (.classDef .plain)).2
  | make {s : Store} {c : Cell} : Built objectClass s →
    s.Makes (.give (.value .nil)) objectClass c → Built objectClass (s.alloc c).2
  | bind {s : Store} (name : String) (v : Value) : Built objectClass s →
    Built objectClass (s.bindGlobal name v)

/-- The members of a library are made as a script makes them. -/
theorem Store.Grows.provideAll {control : Control} {objectClass : Ref} {s t : Store}
    (h : Grows control objectClass s t) (keeps : Value) (members : List (String × Provided))
    (fields : Table Value) :
    Grows control objectClass s (t.provideAll objectClass keeps members fields).2 := by
  induction members generalizing t fields with
  | nil => exact h
  | cons e members ih => exact ih (h.place [keeps] (e.2.made e.1)) _

namespace Store.Built

variable {objectClass : Ref} {s t : Store}

theorem foldl {α : Type} {f : Store → α → Store} {l : List α} (h : Built objectClass s)
    (hf : ∀ a s, Built objectClass s → Built objectClass (f s a)) :
    Built objectClass (l.foldl f s) := by
  induction l generalizing s with
  | nil => exact h
  | cons a l ih => exact ih (hf a s h)

theorem addBuiltins (h : Built objectClass s) : Built objectClass s.addBuiltins :=
  (h.foldl (f := Store.addNative) fun n _ h => .bind _ _ (h.make (.native n))).foldl
    fun _ _ h => .bind _ _ h

/-- What is there before the libraries. -/
theorem first : Built (Store.empty.alloc (.classDef .plain)).1
    ((Store.empty.alloc (.classDef .plain)).2.addBuiltins.newArray #[]).2 :=
  (plain rfl).addBuiltins.make (.array #[])

theorem grows (h : Built objectClass s) (ht : Grows (.give (.value .nil)) objectClass s t) :
    Built objectClass t := by
  induction ht with
  | refl => exact h
  | make _ hc ih => exact ih.make hc

theorem addLibrary {keeps : Value} {l : Library} (h : Built objectClass s)
    (ht : s.addLibrary objectClass keeps l = .ok t) : Built objectClass t := by
  unfold Store.addLibrary at ht
  split at ht
  · cases ht
  · split at ht
    · cases ht
    · cases ht
      exact .bind _ _ ((h.grows (Grows.refl.provideAll keeps l.members ∅)).make (.literal _))

theorem addLibraries {keeps : Value} {libraries : List Library} (h : Built objectClass s)
    (ht : libraries.foldlM (fun s l => s.addLibrary objectClass keeps l) s = .ok t) :
    Built objectClass t := by
  induction libraries generalizing s with
  | nil =>
    cases ht
    exact h
  | cons l libraries ih =>
    rw [List.foldlM_cons] at ht
    cases hl : s.addLibrary objectClass keeps l with
    | error e =>
      rw [hl] at ht
      cases ht
    | ok u =>
      rw [hl] at ht
      exact ih (h.addLibrary hl) ht

end Store.Built

structure Interpreter.New (i : Interpreter) : Prop where
  built : i.store.Built i.objectClass
  modules : i.modules = ∅

theorem Interpreter.new_of_create {libraries : List Library} {maxDepth : Nat} {i : Interpreter}
    (h : Interpreter.create libraries maxDepth = .ok i) : i.New := by
  simp only [Interpreter.create] at h
  have hbuilt := Store.Built.first
  generalize (Store.empty.alloc (.classDef .plain)).2.addBuiltins.newArray #[] = x at *
  cases hs : libraries.foldlM (fun (s : Store) l =>
    s.addLibrary (Store.empty.alloc (.classDef .plain)).1 x.1 l) x.2 with
  | error e =>
    rw [hs] at h
    cases h
  | ok s =>
    rw [hs] at h
    cases h
    exact ⟨hbuilt.addLibraries hs, rfl⟩

end TinyScript

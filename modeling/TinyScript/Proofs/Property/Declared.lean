/-
  TinyScript.Proofs.Property.Declared — objects within reach respect their classes.

  No step of a machine that frees nothing brings an object into the store that does not respect its
  class (`Interpreter.Typed`). An object that is emptied by a collection does not, but neither the
  script nor the host comes to it any more: what they come to is the same as where nothing is freed.
-/

import TinyScript.Proofs.Property.Typing
import TinyScript.Proofs.Twin.Following

namespace TinyScript

open Store

structure Interpreter.Typed (i : Interpreter) : Prop where
  numbered : i.store.Numbered
  typed : i.store.Typed i.objectClass

variable {w : World} {m n : Machine} {i : Interpreter} {kept : List Ref} {x y : State}

/-! ## Steps -/

namespace Interpreter.Typed

theorem moves (h : m.toInterpreter.Typed) (hm : Moves m n) : n.toInterpreter.Typed := by
  induction hm with
  | refl => exact h
  | go _ _ ih => exact ih
  | load _ _ _ _ ih => exact ih
  | push _ _ ih => exact ih
  | enterScope parent kind _ _ ih =>
    exact ⟨ih.numbered.push parent kind, ih.typed.sameData (.of_cells (push_cells ..))⟩
  | @changed _ c _ hc ih => exact ⟨ih.numbered.apply c, ih.typed.permits hc⟩
  | make _ hc ih => exact ⟨ih.numbered.alloc _, ih.typed.makes ih.numbered hc⟩
  | @capture k _ ih =>
    obtain ⟨hnumbered, hdata⟩ := ih.numbered.capture k.scope
    exact ⟨hnumbered, ih.typed.sameData hdata⟩
  | enterCall _ _ _ _ _ ih => exact ih
  | loadModule _ _ ih => exact ih
  | loadProgram _ _ _ ih => exact ih

/-- Where nothing is freed, a scope that is left is retired, and its cells stay. -/
theorem leave (h : m.toInterpreter.Typed) (hm : m.reclaims = false) (r : Result) (e : ExitFrame) :
    (m.leave r e).toInterpreter.Typed := by
  cases e with
  | scope previous =>
    simp only [Machine.leave, hm, Bool.false_eq_true, if_false]
    exact ⟨h.numbered.retire _, h.typed.sameData (.of_cells (changeScope_cells ..))⟩
  | call f held pos =>
    cases r with
    | value v =>
      simp only [Machine.leave, Machine.proceed]
      split <;> exact h
    | _ => exact h
  | module path =>
    simp only [Machine.leave]
    split <;> exact ⟨h.numbered, h.typed⟩
  | run located =>
    simp only [Machine.leave]
    split <;> simp only [hm, Bool.false_eq_true, if_false] <;> exact h
  | session previous => exact h

theorem next (h : m.toInterpreter.Typed) (hm : m.reclaims = false) (hstep : m.step = .next n) :
    n.toInterpreter.Typed := by
  cases goes_of_next hstep with
  | start hn => exact h.moves hn
  | @resume _ _ _ stack _ _ _ hn => exact moves (m := { m with stack := stack }) h hn
  | @leave r e stack _ _ => exact leave (m := { m with stack := stack }) h hm r e

theorem enterSession (h : i.Typed) (kept : List Ref) (p : Program) :
    (i.enterSession kept p).toInterpreter.Typed := by
  have hin : (i.inSession kept).toInterpreter.Typed := by
    have hpush := h.typed.sameData (.of_cells (push_cells i.store Store.global .module))
    obtain ⟨hnumbered, hdata⟩ :=
      (h.numbered.push Store.global .module).capture (i.store.push Store.global .module).1
    rcases i.inSession_store kept with hs | hs
    · refine ⟨hs ▸ h.numbered, ?_⟩
      rw [hs, i.inSession_objectClass]
      exact h.typed
    · refine ⟨hs ▸ hnumbered, ?_⟩
      rw [hs, i.inSession_objectClass]
      exact hpush.sameData hdata
  exact hin.moves (Moves.refl.program .nil p)

/-- What one transition keeps. -/
theorem leads (h : x.machine.toInterpreter.Typed) (hx : x.machine.reclaims = false)
    (hy : x.Leads w y) : y.machine.toInterpreter.Typed := by
  cases hy with
  | forget _ => exact h
  | run _ hm =>
    obtain ⟨p, _, rfl⟩ := eq_of_start hm
    exact h
  | session _ hm =>
    obtain ⟨p, _, rfl⟩ := eq_of_startSession hm
    exact enterSession h _ p
  | render _ _ => exact h
  | next hstep => exact next h hx hstep
  | ask _ hstep => exact moves h (moves_of_ask hstep _)
  | done hstep =>
    obtain ⟨rfl, _⟩ := Machine.done_iff.1 hstep
    exact h

end Interpreter.Typed

/-! ## What a script or a host comes to -/

/-- In step with a state there is one where nothing is freed and objects have what is declared. -/
theorem Reached.exists_typed {libraries : List Library} {maxDepth : Nat}
    (h : Reached libraries maxDepth x) :
    ∃ x', x.InStep x' ∧ x'.machine.toInterpreter.Typed :=
  h.exists_inStep (P := fun x => x.machine.toInterpreter.Typed)
    (fun i hi => by
      obtain ⟨hnumbered, htyped⟩ := (Interpreter.new_of_create hi).built.typed
      exact ⟨hnumbered, htyped⟩)
    fun _ _ hx hy hP => hP.leads hx hy

/-- Declared properties stay well-typed. In every state that an interpreter comes to, an object that
    the script or the host may come to has a class, and each property that the class declares with
    built-in types only is there and is nil or a value of one of the types. -/
theorem Reached.declared_properties_stay_typed {libraries : List Library} {maxDepth : Nat}
    (h : Reached libraries maxDepth x) {r classRef : Ref} {fields : Table Value}
    (hr : x.machine.Reaches r) (hobject : x.machine.store.object? r = some (classRef, fields)) :
    ∃ c, x.machine.store.class? classRef = some c ∧ c.Respected fields := by
  obtain ⟨x', hin, htyped⟩ := h.exists_typed
  obtain ⟨_, G, hm⟩ := hin.machines
  have hgood : G r := Needed.good hm.tracks hm.goodHeld (fun _ hi => hi) hr
  have hclass : G classRef :=
    hm.tracks.closed r _ hgood (object?_eq_some.1 hobject) classRef List.mem_cons_self
  -- where nothing is freed the object and its class are the same
  obtain ⟨c, hc, hrespected⟩ := htyped.typed.objects r classRef fields
    (object?_eq_some.1 ((hm.tracks.object? hgood).trans hobject))
  exact ⟨c, (hm.tracks.class? hclass).symm.trans (class?_eq_some.2 hc), hrespected⟩

/-- A copy is given of an object whose property was set in its initializer, by its name as an
    element, and from its old value. -/
theorem a_copy_keeps_to_the_declared_types : ∃ m r classRef fields c property typing v,
    Reached [] 4 (.running m) ∧ m.Reaches r ∧ m.store.object? r = some (classRef, fields) ∧
    m.store.class? classRef = some c ∧ c.properties.find? (·.name == "x") = some property ∧
    property.typing = some typing ∧ typing.isBuiltin = true ∧ fields.get? "x" = some v ∧
    (v = .nil ∨ typing.admits v = true) := by
  have hrun : ((Interpreter.create [] 4).toOption.any fun i =>
      (i.startSession [] ("class P { x: number | string; init(v) { this.x = v; } } " ++
        "let p = P('a'); p['x'] = 'b'; p.x += 'c'; p.clone();") "a").toOption.any fun m =>
      (m.after 51).any fun m =>
        m.control.given?.any fun r => r.value?.any fun v => v.ref?.any fun r =>
          (m.store.classOf? r).any fun c =>
            (c.2.properties.find? (·.name == "x")).any (·.typing.any Typing.isBuiltin)) = true := by
    decide +kernel
  obtain ⟨i, hi, hrun⟩ := exists_ok_of_any hrun
  obtain ⟨m, hm, hrun⟩ := exists_ok_of_any hrun
  simp only [Option.any_eq_true, Control.given?_eq_some, Result.value?_eq_some] at hrun
  obtain ⟨n, hn, _, hc, v, rfl, r, hv, ⟨k, c⟩, hclass, property, hp, typing, ht, hb⟩ := hrun
  have hreached : Reached [] 4 (.running n) := ((Reached.create hi).session hm).after hn
  have hr : n.Reaches r := by
    refine .held (List.mem_append_left _ (List.mem_append_right _ ?_))
    rw [hc]
    exact Value.mem_refs.2 hv
  obtain ⟨fields, hobject, hclass⟩ := classOf?_eq_some.1 hclass
  obtain ⟨d, hd, hrespected⟩ := hreached.declared_properties_stay_typed hr hobject
  cases hclass.symm.trans hd
  obtain ⟨v, hv, hok⟩ := hrespected "x" property typing hp ht hb
  exact ⟨n, r, k, fields, c, property, typing, v, hreached, hr, hobject, hclass, hp, ht, hb, hv,
    hok⟩

end TinyScript

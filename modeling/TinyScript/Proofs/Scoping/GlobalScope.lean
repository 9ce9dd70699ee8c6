/-
  TinyScript.Proofs.Scoping.GlobalScope — scripts cannot touch the global scope.

  Between runs the global scope is the current one, but no script runs in it: a program runs in a
  scope of its own, and a session in that of the session. A run reads no name where it is started,
  so it does the same to the store if another scope is current there (`Apart`). In that run the
  global scope is never the current one, and nothing leads back to it (`Machine.Sealed`); so
  nothing is bound in it.
-/

import TinyScript.Proofs.Control.Creating
import TinyScript.Proofs.Control.Leading
import TinyScript.Proofs.Scoping.Calling
import TinyScript.Proofs.Store.Sealing

namespace TinyScript

open Store TinyScript.Text

def Frame.back? : Frame → Option ScopeId
  | .exit (.scope k) | .exit (.session k) => some k
  | _ => none

/-- The global scope is sealed, and it is neither the current one nor one to go back to. -/
structure Machine.Sealed (names : Table Binding) (m : Machine) : Prop where
  store : m.store.Sealed names
  scope : m.scope ≠ Store.global
  back : ∀ f ∈ m.stack, f.back? ≠ some Store.global

variable {names : Table Binding} {m n : Machine} {libraries : List Library} {maxDepth : Nat}
  {x : State} {i : Interpreter} {kept : List Ref}

namespace Machine.Sealed

/-! ## Steps -/

theorem push (h : m.Sealed names) {f : Frame} (hf : f.back? ≠ some Store.global) :
    (m.push f).Sealed names :=
  ⟨h.store, h.scope, List.forall_mem_cons.2 ⟨hf, h.back⟩⟩

theorem moves (h : m.Sealed names) (hm : Moves m n) : n.Sealed names := by
  induction hm with
  | refl => exact h
  | go _ _ ih => exact ⟨ih.store, ih.scope, ih.back⟩
  | load _ _ _ _ ih => exact ⟨ih.store, ih.scope, ih.back⟩
  | @push _ f _ hf ih =>
    refine ih.push ?_
    cases f with
    | exit e => exact absurd rfl (hf e)
    | _ => simp [Frame.back?]
  | @enterScope k parent kind _ hblock ih =>
    obtain ⟨hstore, hnew⟩ := ih.store.push parent kind fun hk => hblock hk ▸ ih.scope
    have hback : Frame.back? (.exit (.scope k.scope)) ≠ some Store.global := by
      simpa [Frame.back?] using ih.scope
    exact ⟨hstore, hnew, (ih.push hback).back⟩
  | changed _ hc ih => exact ⟨ih.store.permits ih.scope hc, ih.scope, ih.back⟩
  | make _ _ ih => exact ⟨ih.store.sameScopes ⟨rfl, rfl, rfl, rfl, rfl⟩, ih.scope, ih.back⟩
  | capture _ ih => exact ⟨ih.store.capture _, ih.scope, ih.back⟩
  | enterCall f held pos _ _ ih =>
    exact ⟨ih.store, ih.scope,
      (ih.push (f := .exit (.call f held pos)) (by simp [Frame.back?])).back⟩
  | @loadModule _ path _ _ _ ih =>
    exact ⟨ih.store, ih.scope, (ih.push (f := .exit (.module path)) (by simp [Frame.back?])).back⟩
  | loadProgram path _ _ ih =>
    exact ⟨ih.store, ih.scope,
      (ih.push (f := .exit (.run path.isSome)) (by simp [Frame.back?])).back⟩

/-- Only the scope that is left is released, and another one is current then. -/
theorem leave (h : m.Sealed names) {stack : List Frame} {e : ExitFrame}
    (hs : m.stack = .exit e :: stack) (hm : m.reclaims = true) (r : Result) :
    ({ m with stack := stack }.leave r e).Sealed names := by
  obtain ⟨he, hback⟩ := List.forall_mem_cons.1 (hs ▸ h.back)
  cases e with
  | scope previous =>
    simp only [Machine.leave, hm, if_true]
    exact ⟨h.store.release _ h.scope, by simpa [Frame.back?] using he, hback⟩
  | call f held pos =>
    cases r with
    | value v =>
      simp only [Machine.leave, Machine.proceed]
      split <;> exact ⟨h.store, h.scope, hback⟩
    | _ => exact ⟨h.store, h.scope, hback⟩
  | module path =>
    simp only [Machine.leave]
    split <;> exact ⟨h.store, h.scope, hback⟩
  | run located =>
    simp only [Machine.leave]
    split <;> simp only [hm] <;> exact ⟨h.store.collect _, h.scope, hback⟩
  | session previous =>
    have hprevious : previous ≠ Store.global := by simpa [Frame.back?] using he
    exact ⟨h.store, hprevious, hback⟩

theorem next (h : m.Sealed names) (hm : m.reclaims = true) (hstep : m.step = .next n) :
    n.Sealed names := by
  cases goes_of_next hstep with
  | start hn => exact h.moves hn
  | @resume _ _ _ stack _ hs _ hn =>
    have hpop := (List.forall_mem_cons.1 (hs ▸ h.back)).2
    exact moves (m := { m with stack := stack }) ⟨h.store, h.scope, hpop⟩ hn
  | leave _ hs => exact h.leave hs hm _

end Machine.Sealed

/-! ## New interpreters -/

/-- In the store of a new interpreter all global names are constants, and no scope lies under
    another. -/
theorem Store.Built.constants {objectClass : Ref} {s : Store} (h : s.Built objectClass) :
    (∀ name b, (s.scope Store.global).bindings.get? name = some b → b.constant = true) ∧
      (∀ k, (s.scope k).parent = none) ∧ Store.global < s.scopes.size := by
  induction h with
  | plain =>
    refine ⟨fun name b hb => ?_, parent_empty, Nat.zero_lt_one⟩
    rw [show ((Store.empty.alloc (.classDef .plain)).2.scope Store.global).bindings = ∅ from rfl,
      Table.get?, Std.TreeMap.getElem?_emptyc] at hb
    cases hb
  | make _ _ ih => exact ih
  | @bind s name v _ ih =>
    obtain ⟨hconstant, hparent, hlt⟩ := ih
    have hc := changesScope_bind s name ⟨v, true⟩ hlt
    refine ⟨fun other b hb => ?_, fun k => ?_, hc.size ▸ hlt⟩
    · rw [Store.bindGlobal, hc.scope, if_pos rfl, Scope.bind] at hb
      by_cases hn : other = name
      · subst hn
        rw [Table.get?_put_self] at hb
        cases hb
        rfl
      · rw [Table.get?_put_of_ne _ _ hn] at hb
        exact hconstant other b hb
    · rw [Store.bindGlobal, hc.scope]
      split
      · exact hparent _
      · exact hparent k

theorem Interpreter.sealed_of_create (hi : Interpreter.create libraries maxDepth = .ok i) :
    i.store.Sealed (i.store.scope Store.global).bindings := by
  have hx := Reached.create hi
  obtain ⟨base, hbase, hopen⟩ := hx.isOpen_iff rfl
  obtain ⟨hconstant, hparent, _⟩ := (Interpreter.new_of_create hi).built.constants
  exact ⟨hx.filed, (hopen _).2 hbase.global_mem, rfl, hconstant, fun k _ => by simp [hparent k]⟩

/-! ## Sessions -/

/-- The scope of the session is not the global one. -/
theorem Reached.session_ne_global (h : Reached libraries maxDepth (.resting kept i)) {lease : Ref}
    (hs : i.session = some lease) : i.store.leasedScope lease ≠ Store.global := by
  obtain ⟨_, _, G, ht⟩ := h.inStep
  obtain ⟨base, _, hbase, _, _⟩ := ht.frames
  have hsession : (State.resting kept i).machine.session = some lease := hs
  rw [hsession] at hbase
  obtain ⟨k, hlease, hparent, _⟩ := hbase
  have hgood : G lease := ht.goodSession lease (by simp [hsession])
  obtain ⟨c, _, hcell, _⟩ := ht.tracks.cell lease hgood
  have horder := ht.tracks.orderly
  have hk : i.store.cell? lease = some (.lease k (i.store.leaseAbove k)) :=
    horder.leases.isLease k lease (liveLease?_eq_some.2 ⟨hlease, mem_cells.2 ⟨c, hcell⟩⟩)
  simp only [Store.leasedScope, hk]
  rintro rfl
  rw [(horder.places.top _ horder.places.globalLt horder.places.globalStays).2 rfl] at hparent
  cases hparent

/-- A session runs in a scope that is not the global one. -/
theorem Reached.sealed_inSession (h : Reached libraries maxDepth (.resting kept i))
    (hi : i.store.Sealed names) : (i.inSession kept).store.Sealed names ∧
      (i.inSession kept).scope ≠ Store.global := by
  unfold Interpreter.inSession Interpreter.sessionScope
  cases hs : (i.ready kept (.give (.value .nil))).session with
  | some lease => exact ⟨hi, h.session_ne_global hs⟩
  | none =>
    obtain ⟨hpush, hnew⟩ := hi.push Store.global .module (by simp)
    exact ⟨hpush.capture _, hnew⟩

/-- A session goes on alike wherever it was started. -/
theorem Interpreter.apart_enterSession (i : Interpreter) (kept : List Ref) (p : Program)
    (j : ScopeId) : Apart Store.global j [] (i.enterSession kept p)
      ({ i.inSession kept with stack := [.exit (.session j)] }.program .nil p) := by
  have hstack : { i.inSession kept with stack := [.exit (.session Store.global)] } =
      i.inSession kept := by rw [← i.inSession_stack kept]
  have hatop : ∀ k, { i.inSession kept with stack := [.exit (.session k)] }.program .nil p =
      ({ i.inSession kept with stack := [] }.program .nil p).atop [.exit (.session k)] := fun k =>
    Machine.atop_program { i.inSession kept with stack := [] } [.exit (.session k)] .nil p
  have hapart : Apart Store.global j [] _ _ :=
    .inside (fun k => .exit (.session k)) []
      ({ i.inSession kept with stack := [] }.program .nil p) .session (by simp)
  rw [Interpreter.enterSession, ← hstack, hatop, hstack, hatop]
  exact hapart

/-! ## Every state -/

/-- Every state that is reached is apart, as to the scope that runs are started in, from one in
    which the global scope is never the current one. -/
theorem Reached.sealed (hi : Interpreter.create libraries maxDepth = .ok i)
    (h : Reached libraries maxDepth x) : ∃ m, Apart Store.global 1 [] x.machine m ∧
      m.Sealed (i.store.scope Store.global).bindings := by
  have hready : ∀ {i' : Interpreter} (kept : List Ref) {c : Control}, c.blind = true →
      i'.store.Sealed (i.store.scope Store.global).bindings →
      ∃ m, Apart Store.global 1 [] (i'.ready kept c) m ∧
        m.Sealed (i.store.scope Store.global).bindings := by
    intro i' kept c hc hs
    refine ⟨(i'.ready kept c).inScope 1, .outside ⟨rfl, [], rfl, by simp⟩ hc, hs, ?_, ?_⟩
    · exact Nat.one_ne_zero
    · simp [Machine.inScope, Interpreter.ready]
  induction h with
  | create hi' =>
    cases hi.symm.trans hi'
    exact hready [] rfl (Interpreter.sealed_of_create hi)
  | forget _ _ ih =>
    obtain ⟨m, hm, hsealed⟩ := ih
    exact hready _ rfl (hm.toInterpreter ▸ hsealed.store :)
  | run _ hstart ih =>
    obtain ⟨m, hm, hsealed⟩ := ih
    obtain ⟨program, _, rfl⟩ := eq_of_start hstart
    exact hready _ rfl (hm.toInterpreter ▸ hsealed.store :)
  | @session kept i' source file _ hx hstart ih =>
    obtain ⟨m, hm, hsealed⟩ := ih
    obtain ⟨p, _, rfl⟩ := eq_of_startSession hstart
    obtain ⟨hstore, hscope⟩ := hx.sealed_inSession (hm.toInterpreter ▸ hsealed.store :)
    have hstart : { i'.inSession kept with stack := [.exit (.session 1)] }.Sealed
        (i.store.scope Store.global).bindings :=
      ⟨hstore, hscope, by simp [Frame.back?, Store.global]⟩
    exact ⟨_, i'.apart_enterSession kept p 1, hstart.moves (Moves.refl.program .nil p)⟩
  | render _ _ _ ih =>
    obtain ⟨m, hm, hsealed⟩ := ih
    exact hready _ rfl (hm.toInterpreter ▸ hsealed.store :)
  | next hx hstep ih =>
    obtain ⟨m, hm, hsealed⟩ := ih
    obtain ⟨n', hstep', hn⟩ := (hm.step (Machine.not_gives_of_next hstep)).of_next hstep
    exact ⟨n', hn, hsealed.next (hm.toInterpreter ▸ hx.reclaims :) hstep'⟩
  | ask reply _ hstep ih =>
    obtain ⟨m, hm, hsealed⟩ := ih
    obtain ⟨resume', hstep', hn⟩ := (hm.step (Machine.not_gives_of_ask hstep)).of_ask hstep
    exact ⟨_, hn reply, hsealed.moves (moves_of_ask hstep' reply)⟩
  | done _ hstep ih =>
    obtain ⟨m, hm, hsealed⟩ := ih
    obtain ⟨rfl, _⟩ := Machine.done_iff.1 hstep
    exact hready _ rfl (hm.toInterpreter ▸ hsealed.store :)

/-- Scripts cannot touch the global scope. In every state that an interpreter comes to, through
    programs, sessions and texts with whatever outcome, the global scope has just the bindings that
    it had when the interpreter was created: the same names, with the same values, constant or not.
    -/
theorem Reached.global_bindings_stay (hi : Interpreter.create libraries maxDepth = .ok i)
    (h : Reached libraries maxDepth x) :
    (x.machine.store.scope Store.global).bindings = (i.store.scope Store.global).bindings := by
  obtain ⟨m, hm, hsealed⟩ := Reached.sealed hi h
  have hstore : m.store = x.machine.store := congrArg Interpreter.store hm.toInterpreter
  rw [← hstore]
  exact hsealed.store.bindings

/-- A session declares names that are global ones, in its scope and from within a loop, and then
    fails because it assigns to one. Its own names are there, and the global ones as they were. -/
theorem a_session_leaves_global_names_alone : ∃ i n f k, Interpreter.create [] 4 = .ok i ∧
    Reached [] 4 (.running n) ∧ n.control = .give (.fault f) ∧ k ≠ Store.global ∧
    (n.store.scope k).bindings.has "print" = true ∧ (n.store.scope k).bindings.has "len" = true ∧
    (i.store.scope Store.global).bindings.has "print" = true ∧
    (n.store.scope Store.global).bindings = (i.store.scope Store.global).bindings := by
  have hrun : ((Interpreter.create [] 4).toOption.any fun i =>
      (i.startSession [] "let print = nil; for str in [nil] { var len = str; } boolean = nil;"
        "a").toOption.any fun m => (m.after 23).any fun n =>
          (n.control.given?.any (·.fault?.isSome)) && (n.store.scope 1).bindings.has "print" &&
          (n.store.scope 1).bindings.has "len" &&
          (i.store.scope Store.global).bindings.has "print") = true := by
    decide +kernel
  obtain ⟨i, hi, hrun⟩ := exists_ok_of_any hrun
  obtain ⟨m, hm, hrun⟩ := exists_ok_of_any hrun
  simp only [Option.any_eq_true, Bool.and_eq_true, Control.given?_eq_some,
    Option.isSome_iff_exists, Result.fault?_eq_some] at hrun
  obtain ⟨n, hn, ⟨⟨⟨_, hf, f, rfl⟩, hprint⟩, hlen⟩, hglobal⟩ := hrun
  have hreached : Reached [] 4 (.running n) := ((Reached.create hi).session hm).after hn
  exact ⟨i, n, f, 1, hi, hreached, hf, Nat.one_ne_zero, hprint, hlen, hglobal,
    Reached.global_bindings_stay hi hreached⟩

end TinyScript

/-
  TinyScript.Proofs.Scoping.Leftover — scopes that a run leaves.

  The last thing a run does is a collection. After it, a path leads to every scope but the global
  one from what the host, the interpreter or its global names hold, from what a native function
  keeps, or from a circle of cells that no scope comes to (`Interpreter.Root`). There is one
  exception. The collection frees a scope whose lease nobody holds, but what it bound counts as held
  until the end, so the scopes that only a closure in there kept are left, and those above them.
-/

import TinyScript.Proofs.Loader.Body
import TinyScript.Proofs.Property.Declared
import TinyScript.Proofs.Store.Remaining

namespace TinyScript

open Store Relation

variable {libraries : List Library} {maxDepth : Nat} {x : State} {i : Interpreter} {m n : Machine}
  {kept : List Ref} {r : Result}

def Store.Live (s : Store) (k : ScopeId) : Prop := k < s.scopes.size ∧ k ∉ s.free

/-- What keeps scopes between runs, while the host holds `kept`. -/
inductive Interpreter.Root (i : Interpreter) (kept : List Ref) : Ref → Prop
  | kept {r : Ref} : r ∈ kept → Root i kept r
  | global {r : Ref} : i.store.Binds Store.global r → Root i kept r
  | session {r : Ref} : i.session = some r → Root i kept r
  | module {r : Ref} : r ∈ i.modules.values → Root i kept r
  | native {r : Ref} : i.store.KeptByNative r → Root i kept r
  /-- Cells keep each other, and no scope comes to them. -/
  | circle {r : Ref} : i.store.OnCircle r → (∀ k y, i.store.Binds k y → ¬ i.store.ComesTo y r) →
    Root i kept r

def Machine.Forsakes (m : Machine) (k : ScopeId) : Prop :=
  k ∈ m.store.retained ∧ ∀ x, (m.store.scope k).lease = some x → ¬ m.store.Alive m.held x

/-! ## The class of object literals -/

/-- Nothing is in the class of object literals, whatever is run. -/
theorem Reached.plain_objectClass (h : Reached libraries maxDepth x) :
    x.machine.store.cell? x.machine.objectClass = some (.classDef .plain) := by
  obtain ⟨x', hin, htyped⟩ := h.exists_typed
  obtain ⟨_, G, hm⟩ := hin.machines
  have hclass := class?_eq_some.2 htyped.typed.plain
  rw [hm.objectClass] at hclass
  exact class?_eq_some.1 ((hm.tracks.class? hm.goodClass).symm.trans hclass)

namespace Store

variable {s : Store} {k : ScopeId} {y z : Ref}

/-- No path leads from there to a scope. -/
theorem not_comesTo_of_plain (hl : Leases s) (hy : s.cell? y = some (.classDef .plain))
    (hz : (s.scope k).lease = some z) : ¬ s.ComesTo y z := by
  have hlease : ∀ j, (s.scope j).lease ≠ some y := by
    intro j hj
    have hlive := liveLease?_eq_some.2 ⟨hj, mem_cells.2 ⟨_, hy⟩⟩
    cases hy.symm.trans (hl.isLease j y hlive)
  intro h
  rcases h.cases_head with rfl | ⟨_, hstep, _⟩
  · exact hlease k hz
  · cases hstep with
    | cell hc he =>
      cases hy.symm.trans hc
      have hlink := mem_links.2 he
      simp [Cell.links, Class.refs, Class.plain, mapRefs] at hlink
    | scope hj _ => exact hlease _ hj

/-- A path from the lease of the global scope to another scope leads through a global name. -/
theorem exists_binds_of_globalLease (ho : Orderly s) (hk : k ≠ global)
    (hz : (s.scope k).lease = some z) (h : s.ComesTo s.globalLease z) :
    ∃ y, s.Binds global y ∧ s.ComesTo y z := by
  have hglobal := (liveLease?_eq_some.1 ho.leases.globalLease).1
  rcases h.cases_head with rfl | ⟨y, hstep, hyz⟩
  · exact absurd (ho.leases.distinct k global _ hz hglobal) hk
  · cases hstep with
    | cell hc he =>
      cases (ho.leases.isLease global _ ho.leases.globalLease).symm.trans hc
      have htop := (ho.places.top global ho.places.globalLt ho.places.globalStays).2 rfl
      simp only [leaseAbove, htop, Option.bind_none] at he
      cases he
    | @scope j _ _ hj hb =>
      cases ho.leases.distinct j global _ hj hglobal
      exact ⟨y, hb, hyz⟩

end Store

/-! ## The end of a run -/

theorem Ends.inStep {below : List Frame} {m' : Machine} (he : Ends below r n m)
    (h : InStep kept m m') : ∃ n', InStep kept n n' := by
  induction he generalizing m' with
  | here => exact ⟨m', h⟩
  | next _ hstep _ ih =>
    obtain ⟨_, _, hn⟩ := h.step.of_next hstep
    exact ih hn
  | ask reply hstep _ ih =>
    obtain ⟨_, _, hn⟩ := h.step.of_ask hstep
    exact ih (hn reply)

structure Machine.Finishes (last : Machine) (r : Result) (n : Machine) : Prop where
  step : last.step = .next n
  store : n.store = last.store.collect last.held
  held : last.held = n.objectClass :: n.session.toList ++ n.modules.values ++ n.kept ++ r.refs
  stack : n.stack = []

/-- What is left of a machine when the frame of its run is. -/
theorem Machine.leave_run {last : Machine} {located : Bool} (hr : last.reclaims = true)
    (hstack : last.stack = [.exit (.run located)]) (r : Result) :
    ∃ loading, ({ last with stack := [] }.resume r (.exit (.run located))) =
      { last with stack := [], loading := loading, store := last.store.collect last.held } := by
  have hheld : ∀ loading, ({ last with stack := [], loading := loading } : Machine).held =
      last.held := by
    intro loading
    simp [Machine.held, hstack, Frame.refs, ExitFrame.refs]
  cases located with
  | false => exact ⟨last.loading, by simp [Machine.resume, Machine.leave, hr, ← hheld last.loading]⟩
  | true =>
    exact ⟨last.loading.dropLast, by
      simp [Machine.resume, Machine.leave, hr, ← hheld last.loading.dropLast]⟩

theorem Machine.finishes_of_gives {last : Machine} {located : Bool} (hr : last.reclaims = true)
    (hgives : last.Gives [.exit (.run located)]) (he : Ends [] r n last) : last.Finishes r n := by
  obtain ⟨hstack, r', hc⟩ := hgives
  have hstep := Machine.step_give hc hstack
  obtain ⟨loading, hleave⟩ := Machine.leave_run hr hstack r'
  rw [hleave] at hstep
  obtain ⟨rfl, rfl⟩ := (he.of_next (Machine.not_gives_of_next hstep) hstep).eq_of_gives rfl hc
  refine ⟨hstep, rfl, ?_, rfl⟩
  simp [Machine.held, hstack, hc, Frame.refs, ExitFrame.refs, Control.refs]

/-- Below all that a program does is the frame of its run. -/
theorem Machine.suffix_enterProgram (m : Machine) (path : Option String) (program : Program) :
    .exit (.run path.isSome) :: m.stack <:+ (m.enterProgram path program).stack := by
  refine List.IsSuffix.trans ?_ (Moves.refl.program .nil program).stack_suffix
  exact List.suffix_cons _ _

/-- A run that ends has been at the frame that stands for it. -/
theorem Reached.finishes {source file : String} (h : Reached libraries maxDepth (.resting kept i))
    (hm : i.start kept source file = .ok m) (he : Ends [] r n m) :
    ∃ last, Reached libraries maxDepth (.running last) ∧ last.Finishes r n := by
  have hreached := h.run hm
  obtain ⟨program, _, rfl⟩ := eq_of_start hm
  cases he with
  | here _ hc => cases hc
  | next _ hstep => cases hstep
  | ask reply hstep hends =>
    have hnext := hreached.ask reply hstep
    cases hstep
    obtain ⟨_, last, hfirst, hends⟩ :=
      hends.first (Machine.suffix_enterProgram _ _ program) (by simp)
    have hlast := hfirst.reached hnext
    exact ⟨last, hlast, Machine.finishes_of_gives hlast.reclaims
      ⟨hfirst.gives.1, _, hfirst.gives.2⟩ hends⟩

/-! ## Which scopes are left -/

/-- With nothing on the stack, only the global scope and that of the session are open. -/
theorem Reached.open_cases (h : Reached libraries maxDepth (.running n)) (hstack : n.stack = [])
    {k : ScopeId} (hk : (n.store.scope k).released = false) : k = Store.global ∨
      ∃ lease, n.session = some lease ∧ (n.store.scope k).lease = some lease ∧
        (n.store.scope k).parent = some Store.global := by
  obtain ⟨base, hbase, hopen⟩ := h.isOpen_iff hstack
  have hmem : k ∈ base := (hopen k).1 (by simp [isOpen, State.machine, hk])
  replace hbase : Base n.store n.session base := hbase
  cases hs : n.session with
  | none =>
    rw [hs] at hbase
    cases hbase
    exact .inl (List.mem_singleton.1 hmem)
  | some lease =>
    rw [hs] at hbase
    obtain ⟨j, hj, hparent, rfl⟩ := hbase
    rcases List.mem_cons.1 hmem with rfl | hglobal
    · exact .inr ⟨lease, rfl, hj, hparent⟩
    · exact .inl (List.mem_singleton.1 hglobal)

namespace Machine.Finishes

variable {last : Machine} (hf : last.Finishes r n)
  (hlast : Reached libraries maxDepth (.running last))
include hf hlast

theorem collects : Linked last.store ∧ Orderly (last.store.settle last.held) ∧
    Collects (last.store.settle last.held) last.held n.store := by
  obtain ⟨_, _, _, ht⟩ := hlast.inStep
  have ho := ht.tracks.orderly_settle ht.goodHeld ht.anchored
  refine ⟨ht.tracks.linked, ho, ?_⟩
  rw [hf.store]
  exact collects_collect ho

/-- No retained scope is above one that is open. -/
theorem not_above {k : ScopeId} (hk : k ∈ (last.store.settle last.held).retained) :
    ¬ (last.store.settle last.held).Above k := by
  obtain ⟨_, ho, hc⟩ := hf.collects hlast
  have htop := (ho.places.top Store.global ho.places.globalLt ho.places.globalStays).2 rfl
  rintro ⟨j, p, chain, hopen, hp, hchain, hmem⟩
  have hsame := hc.kept j fun hj => absurd hj (ho.places.not_retained hopen)
  rw [← hsame] at hopen hp
  rcases (hlast.next hf.step).open_cases hf.stack hopen with rfl | ⟨_, _, _, hparent⟩
  · rw [hsame, htop] at hp
    cases hp
  · -- above the scope of the session is only the global one
    cases hparent.symm.trans hp
    cases hchain with
    | top _ =>
      obtain ⟨_, _, _, ht⟩ := hlast.inStep
      cases List.mem_singleton.1 hmem
      have hglobal : ((last.store.settle last.held).scope Store.global).released = false := by
        rw [(sameScopes_settle _ _).scope]
        exact ht.global_open
      exact ho.places.not_retained hglobal hk
    | under hp _ => cases htop.symm.trans hp

/-- Where a path to a scope starts, something keeps it between runs, or a scope bound it that nobody
    held any more. -/
theorem exists_root {k : ScopeId} (hk : k ≠ Store.global) {root lease : Ref}
    (hlease : (n.store.scope k).lease = some lease) (hpath : n.store.ComesTo root lease)
    (hsource : Source (last.store.settle last.held) n.store last.held root) :
    ∃ root, n.store.ComesTo root lease ∧ (n.toInterpreter.Root (r.refs ++ n.kept) root ∨
      ∃ j, last.Forsakes j ∧ last.store.Binds j root) := by
  obtain ⟨hl, ho, hc⟩ := hf.collects hlast
  have hn := hlast.next hf.step
  cases hsource with
  | globalLease =>
    rw [← hc.globalLease] at hpath
    obtain ⟨y, hb, hy⟩ := exists_binds_of_globalLease (hc.orderly ho) hk hlease hpath
    exact ⟨y, hy, .inl (.global hb)⟩
  | held hheld =>
    rw [hf.held] at hheld
    simp only [List.mem_append, List.mem_cons, Option.mem_toList] at hheld
    rcases hheld with (((rfl | hs) | hmodule) | hkept) | hr
    · exact absurd hpath (not_comesTo_of_plain (hc.leases ho) hn.plain_objectClass hlease)
    · exact ⟨root, hpath, .inl (.session hs)⟩
    · exact ⟨root, hpath, .inl (.module hmodule)⟩
    · exact ⟨root, hpath, .inl (.kept (List.mem_append_right _ hkept))⟩
    · exact ⟨root, hpath, .inl (.kept (List.mem_append_left _ hr))⟩
  | above habove hret _ => exact absurd habove (hf.not_above hlast hret)
  | @bound j _ hopen hb =>
    rcases hn.open_cases hf.stack hopen with rfl | ⟨session, hs, hj, _⟩
    · exact ⟨root, hpath, .inl (.global hb)⟩
    · exact ⟨session, .head (.scope hj hb) hpath, .inl (.session hs)⟩
  | native hnative => exact ⟨root, hpath, .inl (.native hnative)⟩
  | circle hcircle hno => exact ⟨root, hpath, .inl (.circle hcircle hno)⟩
  | @forsaken j _ hj hb =>
    have hsame := sameScopes_settle last.store last.held
    obtain ⟨hret, hnone⟩ := mem_forsaken.1 hj
    refine ⟨root, hpath, .inr ⟨j, ⟨hsame.retained ▸ hret, fun x hx halive => ?_⟩, ?_⟩⟩
    · have hlive : (last.store.settle last.held).liveLease? j = some x :=
        liveLease?_eq_some.2 ⟨by rw [hsame.scope, hx], (alive_iff hl).1 halive⟩
      cases hnone.symm.trans hlive
    · rw [binds_iff] at hb ⊢
      rwa [hsame.scope] at hb

end Machine.Finishes

/-- The scopes that a run leaves. Whatever the interpreter came to before, after a run that ended
    with whatever result a path leads to every scope but the global one: from the result or what
    else the host holds, a global name, the session, a module, the receiver of a method or what a
    function of the host keeps, or a circle of cells that no scope comes to. If not, it leads there
    from what was bound, before the last step of the run, in a retained scope whose lease nobody
    held any more. -/
theorem Reached.run_leaves_what_is_kept {source file : String}
    (h : Reached libraries maxDepth (.resting kept i)) (hm : i.start kept source file = .ok m)
    (he : Ends [] r n m) :
    ∃ last, Reached libraries maxDepth (.running last) ∧ last.step = .next n ∧
      ∀ k, n.store.Live k → k ≠ Store.global → ∃ root lease,
        (n.store.scope k).lease = some lease ∧ n.store.ComesTo root lease ∧
        (n.toInterpreter.Root (r.refs ++ kept) root ∨
          ∃ j, last.Forsakes j ∧ last.store.Binds j root) := by
  obtain ⟨last, hlast, hf⟩ := h.finishes hm he
  obtain ⟨hl, ho, hc⟩ := hf.collects hlast
  have hkept : n.kept = kept := by
    obtain ⟨_, hi⟩ := h.matched
    obtain ⟨_, _, hin⟩ := (hi.start source file).of_ok hm
    obtain ⟨_, _, hn⟩ := he.inStep hin
    exact hn.keeping
  refine ⟨last, hlast, hf.step, fun k hlive hk => ?_⟩
  cases hrel : (n.store.scope k).released with
  | false =>
    obtain ⟨lease, hs, hlease, _⟩ :=
      ((hlast.next hf.step).open_cases hf.stack hrel).resolve_left hk
    exact ⟨lease, lease, hlease, .refl, .inl (.session hs)⟩
  | true =>
    have hret := ((hc.places ho).mem_retained k).2 ⟨hlive.1, hrel, hlive.2⟩
    have hstays := ((hc.mem_retained k).1 hret).2
    obtain ⟨root, lease, hlease, hpath, hsource⟩ := exists_source_of_stays hl ho hc hstays
    rw [← hc.kept k fun _ => hstays] at hlease
    obtain ⟨root, hpath, hroot⟩ := hf.exists_root hlast hk hlease hpath hsource
    exact ⟨root, lease, hlease, hpath, hkept ▸ hroot⟩

/-! ## A scope that nothing keeps -/

/-- Nothing keeps these cells but they themselves: no other cell or scope, nor the host or the
    interpreter. Among them references go to older cells only, so that there is no circle. -/
structure Interpreter.Secluded (i : Interpreter) (kept refs : List Ref) : Prop where
  roots : ∀ r ∈ kept ++ i.session.toList ++ i.modules.values ++ (i.store.scope Store.global).refs,
    r ∉ refs
  cells : ∀ x c, i.store.cell? x = some c → (∃ y ∈ c.refs, y ∈ refs) → x ∈ refs
  scopes : ∀ k y, y ∈ (i.store.scope k).refs → y ∈ refs →
    ∃ x ∈ refs, (i.store.scope k).lease = some x
  older : ∀ x ∈ refs, ∀ y ∈ i.store.refsAt x, y ∈ i.store.linksAt x ∧ y < x

def Interpreter.secludes (i : Interpreter) (kept refs : List Ref) : Bool :=
  ((kept ++ i.session.toList ++ i.modules.values ++ (i.store.scope Store.global).refs).all
    fun r => decide (r ∉ refs)) &&
  (i.store.cells.toList.all fun e => decide ((∃ y ∈ e.2.refs, y ∈ refs) → e.1 ∈ refs)) &&
  ((List.range i.store.scopes.size).all fun k =>
    decide (∀ y ∈ (i.store.scope k).refs, y ∈ refs →
      ∃ x ∈ refs, (i.store.scope k).lease = some x)) &&
  refs.all fun x => decide (∀ y ∈ i.store.refsAt x, y ∈ i.store.linksAt x ∧ y < x)

theorem Interpreter.secluded_of_secludes {refs : List Ref} (h : i.secludes kept refs = true) :
    i.Secluded kept refs := by
  simp only [Interpreter.secludes, Bool.and_eq_true, List.all_eq_true, decide_eq_true_eq] at h
  obtain ⟨⟨⟨hroots, hcells⟩, hscopes⟩, holder⟩ := h
  refine ⟨hroots, fun x c hc => ?_, fun k y hy => ?_, holder⟩
  · exact hcells (x, c) (Std.TreeMap.mem_toList_iff_getElem?_eq_some.2 hc)
  · refine hscopes k (List.mem_range.2 ?_) y hy
    by_contra hlt
    rw [scope_of_ge (Nat.not_lt.1 hlt)] at hy
    simp [Scope.refs, Scope.vacant, mapRefs] at hy

namespace Interpreter.Secluded

variable {refs : List Ref} {y z : Ref} (h : i.Secluded kept refs)
include h

theorem mem_of_pointsTo (hyz : i.store.PointsTo y z) (hz : z ∈ refs) : y ∈ refs := by
  cases hyz with
  | @cell _ _ c hc he =>
    have hlink := mem_links.2 he
    rcases links_cases c with hlinks | hlinks <;> rw [hlinks] at hlink
    · exact h.cells y c hc ⟨z, hlink, hz⟩
    · cases hlink
  | @scope k _ _ hlease hb =>
    obtain ⟨x, hx, hlease'⟩ := h.scopes k z (binds_iff.1 hb) hz
    cases hlease.symm.trans hlease'
    exact hx

theorem lt_of_transGen (hyz : TransGen (fun x y => y ∈ i.store.linksAt x) y z) (hz : z ∈ refs) :
    y ∈ refs ∧ z < y := by
  have hstep : ∀ {x y}, y ∈ i.store.linksAt x → y ∈ refs → x ∈ refs ∧ y < x := by
    intro x y hxy hy
    have hx := h.mem_of_pointsTo (pointsTo_of_linksAt hxy) hy
    rcases linksAt_cases i.store x with hlinks | hlinks <;> rw [hlinks] at hxy
    · exact ⟨hx, (h.older x hx y hxy).2⟩
    · cases hxy
  induction hyz using TransGen.head_induction_on with
  | single hlink => exact hstep hlink hz
  | head hlink _ ih =>
    obtain ⟨hmem, hlt⟩ := hstep hlink ih.1
    exact ⟨hmem, ih.2.trans hlt⟩

theorem not_root (hr : i.Root kept z) : z ∉ refs := by
  intro hz
  have hroots : z ∉ kept ++ i.session.toList ++ i.modules.values ++
      (i.store.scope Store.global).refs := fun hmem => h.roots z hmem hz
  simp only [List.mem_append, Option.mem_toList, not_or] at hroots
  obtain ⟨⟨⟨hkept, hsession⟩, hmodules⟩, hglobal⟩ := hroots
  cases hr with
  | kept hr => exact hkept hr
  | global hb => exact hglobal (binds_iff.1 hb)
  | session hs => exact hsession hs
  | module hmodule => exact hmodules hmodule
  | native hnative =>
    -- the function would be one of the cells, but none of them is native
    obtain ⟨x, n, v, hx, hv, hz'⟩ := hnative
    have hrefs : z ∈ (Cell.native n).refs := mem_refs_native.2 ⟨v, hv, hz'⟩
    have hmem := h.cells x _ hx ⟨z, hrefs, hz⟩
    obtain ⟨c, hc, hlink⟩ := mem_linksAt.1 (h.older x hmem z (mem_refsAt.2 ⟨_, hx, hrefs⟩)).1
    cases hx.symm.trans hc
    cases hlink
  | circle hcircle _ => exact Nat.lt_irrefl z (h.lt_of_transGen hcircle hz).2

/-- No path leads there from what keeps scopes. -/
theorem not_comesTo (hy : i.Root kept y) (hz : z ∈ refs) : ¬ i.store.ComesTo y z := by
  intro hyz
  refine h.not_root hy ?_
  clear hy
  induction hyz using ReflTransGen.head_induction_on with
  | refl => exact hz
  | head hstep _ ih => exact h.mem_of_pointsTo hstep ih

end Interpreter.Secluded

theorem Ends.of_answered {answer : (request : Request) → request.Reply} {k : Nat}
    (hk : m.answered answer k = some n) (hstack : n.stack = []) (hc : n.control = .give r) :
    Ends [] r n m := by
  induction k generalizing m with
  | zero =>
    cases hk
    exact .here hstack hc
  | succ k ih =>
    unfold Machine.answered at hk
    split at hk
    next hstep => exact .next (Machine.not_gives_of_next hstep) hstep (ih hk)
    next hstep => exact .ask _ hstep (ih hk)
    next => cases hk

/-- A function is called with a closure that it gave before, and the closure that it gives for it is
    dropped. Of the two calls the scope of the first is there after the run. -/
theorem exists_forgetful_run : ∃ i m n, Interpreter.create [] 4 = .ok i ∧
    i.start [] "func g(k) func () k; g(g(nil)); nil;" "a" = .ok m ∧ Ends [] (.value .nil) n m ∧
    n.store.Live 2 ∧ (n.store.scope 2).lease = some 11 ∧
    n.toInterpreter.Secluded [] [9, 10, 11, 12] := by
  have hrun : ((Interpreter.create [] 4).toOption.any fun i =>
      (i.start [] "func g(k) func () k; g(g(nil)); nil;" "a").toOption.any fun m =>
        (m.answered (Request.among []) 35).any fun n =>
          n.stack.isEmpty && n.control.given?.any (·.value?.any (·.isNil)) &&
          decide (2 < n.store.scopes.size ∧ 2 ∉ n.store.free) &&
          decide ((n.store.scope 2).lease = some 11) &&
          n.toInterpreter.secludes [] [9, 10, 11, 12]) = true := by
    decide +kernel
  obtain ⟨i, hi, hrun⟩ := exists_ok_of_any hrun
  obtain ⟨m, hm, hrun⟩ := exists_ok_of_any hrun
  simp only [Option.any_eq_true, Bool.and_eq_true, List.isEmpty_iff, decide_eq_true_eq,
    Control.given?_eq_some, Result.value?_eq_some] at hrun
  obtain ⟨n, hn, ⟨⟨⟨hstack, _, hgive, v, rfl, hnil⟩, hlive⟩, hlease⟩, hsecludes⟩ := hrun
  cases v with
  | nil => ?_
  | _ => cases hnil
  have he := Ends.of_answered hn hstack hgive
  exact ⟨i, m, n, hi, hm, he, hlive, hlease, Interpreter.secluded_of_secludes hsecludes⟩

/-- After that run nothing that keeps scopes leads to the one that is left. -/
theorem a_run_leaves_a_scope_that_nothing_keeps : ∃ i m n k, Interpreter.create [] 4 = .ok i ∧
    i.start [] "func g(k) func () k; g(g(nil)); nil;" "a" = .ok m ∧ Ends [] (.value .nil) n m ∧
    n.store.Live k ∧ k ≠ Store.global ∧ ∀ root lease, n.toInterpreter.Root [] root →
      (n.store.scope k).lease = some lease → ¬ n.store.ComesTo root lease := by
  obtain ⟨i, m, n, hi, hm, he, hlive, hlease, hsecluded⟩ := exists_forgetful_run
  refine ⟨i, m, n, 2, hi, hm, he, hlive, by decide, fun root lease hroot hlease' => ?_⟩
  cases hlease.symm.trans hlease'
  exact hsecluded.not_comesTo hroot (by decide)

/-- It is left because of a scope that nobody held any more: that of the second call. -/
theorem a_forsaken_scope_keeps_another :
    ∃ (i : Interpreter) (m n last : Machine) (j : ScopeId) (root : Ref),
    Reached [] 4 (.resting [] i) ∧
    i.start [] "func g(k) func () k; g(g(nil)); nil;" "a" = .ok m ∧ Ends [] (.value .nil) n m ∧
    last.step = .next n ∧ last.Forsakes j ∧ last.store.Binds j root ∧ n.store.ComesTo root 11 ∧
    (n.store.scope 2).lease = some 11 := by
  obtain ⟨i, m, n, hi, hm, he, hlive, hlease, hsecluded⟩ := exists_forgetful_run
  have hrest := Reached.create hi
  obtain ⟨last, _, hstep, hscopes⟩ := hrest.run_leaves_what_is_kept hm he
  obtain ⟨root, lease, hlease', hpath, hroot⟩ := hscopes 2 hlive (by decide)
  cases hlease.symm.trans hlease'
  obtain ⟨j, hj, hb⟩ := hroot.resolve_left fun hr => hsecluded.not_comesTo hr (by decide) hpath
  exact ⟨i, m, n, last, j, root, hrest, hm, he, hstep, hj, hb, hpath, hlease⟩

end TinyScript

/-
  TinyScript.Proofs.Control.Restored — every part of a run ends where it began.

  A part of a run is an expression, a statement, a call, an import or the text of a value. It ends
  when it gives a result, or a fault from however deep, to the frames it was begun for (`Ends`).
  Then the machine is in the scope in which the part began, with as many calls, the same files that
  run and the same open scopes. The same holds of whole runs; only a session adds a scope, once. In
  between, the call depth counts the calls on the stack and stays within its limit.
-/

import TinyScript.Proofs.Control.Running
import TinyScript.Proofs.Twin.Reached

namespace TinyScript

open Store TinyScript.Text

variable {below : List Frame} {source file : String}

inductive Part where
  | expression (expr : Expr)
  | statement (stmt : Stmt)
  | call (callee : Value) (args : List Value) (pos : Position)
  | importing (pos : Position) (path : String)
  | text (value : Value) (nested : Bool) (path : List Ref) (pos : Position)

def Machine.begin (m : Machine) (below : List Frame) (p : Part) : Machine :=
  let m := { m with stack := below }
  match p with
  | .expression e => m.eval e
  | .statement s => m.exec s
  | .call callee args pos => m.call callee args pos
  | .importing pos path => m.importFrom pos path
  | .text v nested path pos => { m with control := .render v nested path pos }

/-- The run comes to `n`, which gives `r` to the frames below for the first time. -/
inductive Ends (below : List Frame) (r : Result) (n : Machine) : Machine → Prop
  | here : n.stack = below → n.control = .give r → Ends below r n n
  | next {m m' : Machine} : ¬ m.Gives below → m.step = .next m' → Ends below r n m' →
    Ends below r n m
  /-- Whatever the host answers. -/
  | ask {m : Machine} {request : Request} {resume : request.Reply → Machine}
    (reply : request.Reply) : m.step = .ask request resume → Ends below r n (resume reply) →
    Ends below r n m

variable {libraries : List Library} {maxDepth : Nat} {x : State} {base m n : Machine} {r : Result}
  {i : Interpreter} {kept : List Ref}

/-- The end of a part of a run gives its result to what it was begun for. -/
theorem Ends.gives (h : Ends below r n m) :
    n.stack = below ∧ n.control = .give r := by
  induction h with
  | here hs hc => exact ⟨hs, hc⟩
  | next _ _ _ ih => exact ih
  | ask _ _ _ ih => exact ih

/-- A result for the frames below is the end. -/
theorem Ends.eq_of_gives (h : Ends below r n m) (hstack : m.stack = below) {r' : Result}
    (hc : m.control = .give r') : n = m ∧ r = r' := by
  cases h with
  | here _ hr => exact ⟨rfl, Control.give.inj (hr.symm.trans hc)⟩
  | next hgo => exact absurd ⟨hstack, r', hc⟩ hgo
  | ask _ hstep =>
    simp only [Machine.step, hc] at hstep
    split at hstep <;> cases hstep

/-- A part of a run that is not at its end goes on with the next step. -/
theorem Ends.of_next {m' : Machine} (h : Ends below r n m) (hgo : ¬ m.Gives below)
    (hstep : m.step = .next m') : Ends below r n m' := by
  cases h with
  | here hs hc => exact absurd ⟨hs, r, hc⟩ hgo
  | next _ hstep' h =>
    rw [hstep] at hstep'
    cases hstep'
    exact h
  | ask _ hstep' _ =>
    rw [hstep] at hstep'
    cases hstep'

/-- Whatever is begun, for whatever frames, the machine is within it. -/
theorem Machine.within_begin (hr : m.reclaims = true) (hf : m.store.Filed) (below : List Frame)
    (p : Part) : Within { m with stack := below } (m.begin below p) := by
  have h : Within { m with stack := below } { m with stack := below } := .refl hr hf
  cases p with
  | expression e => exact h.controlled _
  | statement s => exact h.controlled _
  | call callee args pos => exact h.moves (Moves.refl.call callee args pos)
  | importing pos path => exact h.controlled _
  | text => exact h.controlled _

/-- What holds within a part of a run holds at its end. -/
theorem Within.ends (h : Within base m) (he : Ends base.stack r n m) :
    Within base n ∧ n.stack = base.stack := by
  induction he with
  | here hstack _ => exact ⟨h, hstack⟩
  | next hgo hstep _ ih => exact ih (h.next hgo hstep)
  | ask reply hstep _ ih => exact ih (h.ask reply hstep)

/-- A part of a run that ends leaves the machine where it began. -/
theorem Within.restored (h : Within base m) (he : Ends base.stack r n m) :
    n.standing = base.standing :=
  (h.ends he).1.standing_eq (h.ends he).2

theorem Ends.reached (he : Ends below r n m) (h : Reached libraries maxDepth (.running m)) :
    Reached libraries maxDepth (.running n) := by
  induction he with
  | here => exact h
  | next _ hstep _ ih => exact ih (h.next hstep)
  | ask reply hstep _ ih => exact ih (h.ask reply hstep)

/-! ## States that are reached -/

theorem Reached.inStep (h : Reached libraries maxDepth x) :
    ∃ kept m', InStep kept x.machine m' := by
  have hm := h.matched
  cases x with
  | resting kept i =>
    obtain ⟨i', hi⟩ := hm
    exact ⟨kept, _, hi⟩
  | running m =>
    obtain ⟨m', hm⟩ := hm
    exact ⟨m.kept, m', hm⟩

theorem Reached.reclaims (h : Reached libraries maxDepth x) : x.machine.reclaims = true := by
  obtain ⟨_, _, _, ht⟩ := h.inStep
  exact ht.reclaims

theorem Reached.filed (h : Reached libraries maxDepth x) : x.machine.store.Filed := by
  obtain ⟨_, _, _, ht⟩ := h.inStep
  exact ht.tracks.orderly.places.filed

/-- With nothing on the stack, the scopes that are open are those between runs. -/
theorem Reached.isOpen_iff (h : Reached libraries maxDepth x) (hx : x.machine.stack = []) :
    ∃ base, Base x.machine.store x.machine.session base ∧
      ∀ k, x.machine.store.isOpen k = true ↔ k ∈ base := by
  obtain ⟨_, _, _, ht⟩ := h.inStep
  obtain ⟨base, opened, hb, ho, hs⟩ := ht.frames
  rw [hx] at hs
  obtain ⟨rfl, _⟩ := hs.of_nil
  refine ⟨_, hb, fun k => ?_⟩
  rw [← ho.open_iff, isOpen]
  simp

/-! ## Sessions -/

def Standing.opening (c : Standing) (k : ScopeId) : Standing :=
  { c with opened := fun j => c.opened j || j == k }

theorem Standing.opening_of_open {c : Standing} {k : ScopeId} (hk : c.opened k = true) :
    c.opening k = c := by
  refine congrArg (Standing.mk c.scope c.depth c.loading) (funext fun j => ?_)
  by_cases hj : j = k
  · simp [hj, hk]
  · simp [hj]

/-- The scope of the session is pushed when it is first needed, and there otherwise. Nothing else
    is opened. -/
theorem sessionScope_cases (hr : m.reclaims = true) (hf : m.store.Filed) :
    Within (Interpreter.sessionScope m).2 (Interpreter.sessionScope m).2 ∧
      (Interpreter.sessionScope m).2.stack = m.stack ∧
      (Interpreter.sessionScope m).2.session.isSome ∧
      (Interpreter.sessionScope m).2.maxDepth = m.maxDepth ∧
      (m.session.isSome ∧ (Interpreter.sessionScope m).2.standing = m.standing ∨
        m.session = none ∧ ∃ k, m.store.isOpen k = false ∧
          (Interpreter.sessionScope m).2.standing = m.standing.opening k) := by
  unfold Interpreter.sessionScope
  cases hs : m.session with
  | some lease => exact ⟨.refl hr hf, rfl, by simp [hs], rfl, .inl ⟨rfl, rfl⟩⟩
  | none =>
    obtain ⟨hfiled, hclosed, hself, hother⟩ := hf.push Store.global .module
    have hsame := sameOpen_capture (m.store.push Store.global .module).2
      (m.store.push Store.global .module).1
    refine ⟨.refl hr (hfiled.sameOpen hsame), rfl, rfl, rfl, .inr ⟨rfl, _, hclosed, ?_⟩⟩
    refine congrArg (Standing.mk m.scope m.depth m.loading)
      (hsame.isOpen.trans (funext fun j => ?_))
    by_cases hj : j = (m.store.push Store.global .module).1
    · simp [hj, hself]
    · simp [hj, hother j hj, Machine.standing]

/-- A session starts in the scope of the session, and goes back to where it was started. -/
theorem within_startSession (hr : i.reclaims = true) (hf : i.store.Filed)
    (hm : i.startSession kept source file = .ok m) :
    Within (Interpreter.sessionScope (i.ready kept (.give (.value .nil)))).2 m := by
  unfold Interpreter.startSession at hm
  cases hp : parseSource source file with
  | error f =>
    rw [hp] at hm
    cases hm
  | ok program =>
    rw [hp] at hm
    cases hm
    have hready : Within _ _ := (sessionScope_cases (m := i.ready kept (.give (.value .nil)))
      hr hf).1
    exact (hready.enterSession _).moves (Moves.refl.program _ program)

theorem eq_of_start (hm : i.start kept source file = .ok m) :
    ∃ program, parseSource source file = .ok program ∧ m = i.ready kept (.enter file program) := by
  unfold Interpreter.start at hm
  cases hp : parseSource source file with
  | error f =>
    rw [hp] at hm
    cases hm
  | ok program =>
    rw [hp] at hm
    cases hm
    exact ⟨program, rfl, rfl⟩

/-! ## The call depth -/

theorem maxDepth_create (h : Interpreter.create libraries maxDepth = .ok i) :
    i.maxDepth = maxDepth := by
  simp only [Interpreter.create] at h
  generalize libraries.foldlM (fun (s : Store) l =>
    s.addLibrary (empty.alloc (.classDef .plain)).1 _ l) _ = a at h
  cases a with
  | error e => cases h
  | ok s =>
    cases h
    rfl

/-- With nothing on its stack a machine that gives a result takes no step. -/
theorem Machine.not_gives_of_next (hstep : m.step = .next n) : ¬ m.Gives [] := by
  rintro ⟨hstack, r, hc⟩
  simp [Machine.step, hc, hstack] at hstep

/-- Every state is within a run that began with no calls. -/
theorem Reached.within (h : Reached libraries maxDepth x) : x.machine.maxDepth = maxDepth ∧
    ∃ base, base.stack = [] ∧ base.depth = 0 ∧ Within base x.machine := by
  induction h with
  | create hi =>
    have hx := Reached.create hi
    exact ⟨maxDepth_create hi, _, rfl, rfl, .refl hx.reclaims hx.filed⟩
  | forget hx hrest ih =>
    have hx := hx.forget hrest
    exact ⟨ih.1, _, rfl, rfl, .refl hx.reclaims hx.filed⟩
  | run hx hm ih =>
    obtain ⟨program, _, rfl⟩ := eq_of_start hm
    exact ⟨ih.1, _, rfl, rfl, .refl hx.reclaims hx.filed⟩
  | @session kept i source file m hx hm ih =>
    have hw := within_startSession hx.reclaims hx.filed hm
    obtain ⟨_, hstack, _, hmax, hcases⟩ := sessionScope_cases (m := (State.resting kept i).machine)
      hx.reclaims hx.filed
    refine ⟨hw.maxDepth.trans (hmax.trans ih.1), _, hstack, ?_, hw⟩
    rcases hcases with ⟨_, hs⟩ | ⟨_, _, _, hs⟩ <;> exact congrArg Standing.depth hs
  | render hx _ _ ih => exact ⟨ih.1, _, rfl, rfl, .refl hx.reclaims hx.filed⟩
  | @next m n hx hstep ih =>
    obtain ⟨hmax, base, hstack, hdepth, hw⟩ := ih
    have hn := hw.next (hstack ▸ Machine.not_gives_of_next hstep) hstep
    exact ⟨hn.maxDepth.trans (hw.maxDepth.symm.trans hmax), base, hstack, hdepth, hn⟩
  | ask reply hx hstep ih =>
    obtain ⟨hmax, base, hstack, hdepth, hw⟩ := ih
    have hn := hw.ask reply hstep
    exact ⟨hn.maxDepth.trans (hw.maxDepth.symm.trans hmax), base, hstack, hdepth, hn⟩
  | @done m n r hx hstep ih =>
    have hx' := hx.done hstep
    refine ⟨?_, _, rfl, rfl, .refl hx'.reclaims hx'.filed⟩
    have hn : n = m := by
      unfold Machine.step at hstep
      split at hstep
      all_goals try cases hstep
      split at hstep <;> cases hstep
      rfl
    rw [hn]
    exact ih.1

/-- The call depth counts the calls on the stack, of which there are never too many. -/
theorem Reached.depth_eq (h : Reached libraries maxDepth x) :
    x.machine.depth = callCount x.machine.stack ∧ x.machine.depth ≤ maxDepth := by
  obtain ⟨hmax, base, hstack, hdepth, hw⟩ := h.within
  obtain ⟨frames, hframes, _, hcount⟩ := hw.above
  rw [hstack, List.append_nil] at hframes
  have hbound := hw.bound
  rw [← hw.maxDepth, hmax, hdepth] at hbound
  refine ⟨?_, by simpa using hbound⟩
  rw [hcount, hdepth, hframes, Nat.zero_add]

/-! ## The end of a run -/

/-- After a session the scope of the session is open, and it alone is new if it is. -/
theorem Reached.session_standing (h : Reached libraries maxDepth (.resting kept i))
    (hm : i.startSession kept source file = .ok m) (he : Ends [] r n m) :
    ∃ k lease, n.session = some lease ∧ (n.store.scope k).lease = some lease ∧
      i.store.isOpen k = i.session.isSome ∧
      n.standing = (State.resting kept i).machine.standing.opening k := by
  obtain ⟨_, hstack, hsome, _, hcases⟩ := sessionScope_cases
    (m := (State.resting kept i).machine) h.reclaims h.filed
  have hw := within_startSession (i := i) h.reclaims h.filed hm
  change Within (Interpreter.sessionScope (State.resting kept i).machine).2 m at hw
  generalize (Interpreter.sessionScope (State.resting kept i).machine).2 = start at *
  replace hstack : start.stack = [] := hstack
  rw [← hstack] at he
  obtain ⟨hn, hnstack⟩ := hw.ends he
  have hstanding := hw.restored he
  obtain ⟨base, hbase, hopen⟩ := (he.reached (h.session hm)).isOpen_iff (hnstack.trans hstack)
  replace hbase : Base n.store n.session base := hbase
  replace hopen : ∀ k, n.standing.opened k = true ↔ k ∈ base := hopen
  obtain ⟨lease, hlease⟩ := Option.isSome_iff_exists.1 hsome
  rw [hn.session.trans hlease] at hbase
  obtain ⟨k, hk, _, rfl⟩ := hbase
  refine ⟨k, lease, hn.session.trans hlease, hk, ?_⟩
  have hkopen := (hopen k).2 List.mem_cons_self
  rcases hcases with ⟨hold, hs⟩ | ⟨hnone, new, hclosed, hs⟩
  · have hkold : (State.resting kept i).machine.standing.opened k = true := by
      rwa [hstanding, hs] at hkopen
    refine ⟨hkold.trans hold.symm, (hstanding.trans hs).trans ?_⟩
    rw [Standing.opening_of_open hkold]
  · -- the global scope was open before, so that the new scope is the other one
    obtain ⟨before, hbefore, hopen'⟩ := h.isOpen_iff rfl
    have hnew : new = k := by
      have hmem := (hopen new).1 (by simp [hstanding, hs, Standing.opening])
      rcases List.mem_cons.1 hmem with he | hg
      · exact he
      · rw [List.mem_singleton.1 hg] at hclosed
        rw [(hopen' Store.global).2 hbefore.global_mem] at hclosed
        cases hclosed
    subst hnew
    have hnone : i.session = none := hnone
    exact ⟨hclosed.trans (by rw [hnone]; rfl), hstanding.trans hs⟩

/-- Every part of a run ends where it began. In every state that an interpreter comes to, the call
    depth counts the calls on the stack and is at most the limit; and whatever part of a run is
    begun, for whatever frames, its end leaves scope, call depth, files that run and open scopes as
    they were. So do whole runs and texts that the host asks for. A session leaves the scope of the
    session open, which is new the first time. -/
theorem Reached.ends_where_it_began (h : Reached libraries maxDepth x) :
    (x.machine.depth = callCount x.machine.stack ∧ x.machine.depth ≤ maxDepth) ∧
    (∀ p below r n, Ends below r n (x.machine.begin below p) →
      n.standing = x.machine.standing) ∧
    ∀ kept i, x = .resting kept i →
      (∀ source file m r n, i.start kept source file = .ok m → Ends [] r n m →
        n.standing = x.machine.standing) ∧
      (∀ rest v r n, Ends [] r n (i.startRender rest v) → n.standing = x.machine.standing) ∧
      ∀ source file m r n, i.startSession kept source file = .ok m → Ends [] r n m →
        ∃ k lease, n.session = some lease ∧ (n.store.scope k).lease = some lease ∧
          i.store.isOpen k = i.session.isSome ∧ n.standing = x.machine.standing.opening k := by
  refine ⟨h.depth_eq, fun p below r n he => ?_, ?_⟩
  · have hw := Machine.within_begin h.reclaims h.filed below p
    exact (hw.restored he :)
  · rintro kept i rfl
    refine ⟨fun source file m r n hm he => ?_, fun rest v r n he => ?_, ?_⟩
    · obtain ⟨program, _, rfl⟩ := eq_of_start hm
      have hw : Within (i.ready kept (.enter file program)) _ := .refl h.reclaims h.filed
      exact (hw.restored he :)
    · have hw : Within (i.startRender rest v) _ := .refl h.reclaims h.filed
      exact (hw.restored he :)
    · exact fun source file m r n hm he => h.session_standing hm he

/-! ## A fault two calls deep -/

theorem Ends.of_after {k : Nat} (hk : m.after k = some n) (hstack : n.stack = [])
    (hc : n.control = .give r) : Ends [] r n m := by
  induction k generalizing m with
  | zero =>
    cases hk
    exact .here hstack hc
  | succ k ih =>
    unfold Machine.after at hk
    split at hk
    next hstep => exact .next (Machine.not_gives_of_next hstep) hstep (ih hk)
    next => cases hk

/-- A session calls a function that calls itself and fails. Two calls are counted while both run,
    and the fault leaves all of their scopes and nothing but the scope of the session. -/
theorem fault_two_calls_deep_ends_where_it_began : ∃ i m deep n f k,
    Reached [] 4 (.resting [] i) ∧ Reached [] 4 (.running deep) ∧
    i.startSession [] "func f(n) { if (n) { f(nil); } return x; } f(true);" "a" = .ok m ∧
    (deep.depth = 2 ∧ callCount deep.stack = 2) ∧ Ends [] (.fault f) n m ∧
    i.store.isOpen k = false ∧ n.standing = (State.resting [] i).machine.standing.opening k := by
  have hrun : (match Interpreter.create [] 4 with
      | .ok i =>
        match i.startSession [] "func f(n) { if (n) { f(nil); } return x; } f(true);" "a" with
        | .ok m => i.session.isNone && ((m.after 25).any fun deep => deep.depth == 2) &&
          ((m.after 40).any fun n => n.stack.isEmpty &&
            match n.control with
            | .give (.fault _) => true
            | _ => false)
        | .error _ => false
      | .error _ => false) = true := by decide +kernel
  split at hrun
  next i hi =>
    split at hrun
    next m hm =>
      simp only [Bool.and_eq_true, Option.any_eq_true, beq_iff_eq, List.isEmpty_iff] at hrun
      obtain ⟨⟨hnone, deep, hdeep, hdepth⟩, n, hn, hstack, hc⟩ := hrun
      split at hc
      next f hgive =>
        have hrest := Reached.create hi
        have hreach := (hrest.session hm).after hdeep
        have he := Ends.of_after hn hstack hgive
        have hcount := hreach.ends_where_it_began.1.1
        obtain ⟨k, _, _, _, hk, hs⟩ :=
          (hrest.ends_where_it_began.2.2 [] i rfl).2.2 _ _ m _ n hm he
        rw [Option.isNone_iff_eq_none.1 hnone] at hk
        exact ⟨i, m, deep, n, f, k, hrest, hreach, hm, ⟨hdepth, hcount.symm.trans hdepth⟩, he, hk,
          hs⟩
      next => cases hc
    next => cases hrun
  next => cases hrun

end TinyScript

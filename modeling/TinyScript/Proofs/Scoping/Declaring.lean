/-
  TinyScript.Proofs.Scoping.Declaring — declarations that fail.

  A declaration evaluates its initializer first (`Initialized`). All that is left then is one step,
  in which no code of the script runs: the value is taken apart, and each target is checked and
  bound in turn. If that fails, a declaration of one name has bound nothing, and a destructuring
  has bound the targets before the one that was refused, if the value had parts for all of them
  (`failing_declaration_binds_targets_before`). So a constant may stay behind, and the same
  statement cannot be run again (`a_failing_destructuring_leaves_a_constant`).
-/

import TinyScript.Proofs.Scoping.GlobalScope

namespace TinyScript

open Store TinyScript.Text

/-! ## What a declaration binds -/

namespace Store

def home (s : Store) (scope : ScopeId) : Qualifier → ScopeId
  | .varDecl => s.hoistTarget scope
  | .letDecl | .constDecl => scope

def bindAll (s : Store) (scope : ScopeId) (q : Qualifier) : List (Param × Value) → Store
  | [] => s
  | (t, v) :: rest => (s.bind (s.home scope q) t.name ⟨v, q = .constDecl⟩).bindAll scope q rest

/-- A target is not bound: its typing does not resolve or does not accept the value, or its name
    is that of a constant in the same scope. -/
def Refuses (s : Store) (scope : ScopeId) (q : Qualifier) (t : Param) (v : Value) (f : Fault) :
    Prop :=
  s.checkIf scope v t.typing t.pos = .error f ∨
    s.checkIf scope v t.typing t.pos = .ok () ∧
      ((s.scope (s.home scope q)).bindings.get? t.name).any (·.constant) = true ∧
      f = .runtime (.redeclareConstant t.name) t.pos

/-- No target is refused when its turn comes, after the targets before it were bound. -/
def AcceptsAll (s : Store) (scope : ScopeId) (q : Qualifier) (pairs : List (Param × Value)) :
    Prop :=
  ∀ before t v after, pairs = before ++ (t, v) :: after →
    ¬ ∃ f, (s.bindAll scope q before).Refuses scope q t v f

theorem acceptsAll_nil (s : Store) (scope : ScopeId) (q : Qualifier) : s.AcceptsAll scope q [] := by
  intro before t v after he
  simp at he

theorem acceptsAll_cons {s : Store} {scope : ScopeId} {q : Qualifier} {t : Param} {v : Value}
    {rest : List (Param × Value)} (hfirst : ¬ ∃ f, s.Refuses scope q t v f)
    (hrest : (s.bind (s.home scope q) t.name ⟨v, q = .constDecl⟩).AcceptsAll scope q rest) :
    s.AcceptsAll scope q ((t, v) :: rest) := by
  intro before t' v' after he
  cases before with
  | nil =>
    cases he
    exact hfirst
  | cons pair before =>
    obtain ⟨rfl, rfl⟩ := List.cons.inj he
    exact hrest before t' v' after rfl

/-- Binding a name changes nothing else. -/
theorem scope_bind (s : Store) (i : ScopeId) (name : String) (b : Binding) (j : ScopeId) :
    ((s.bind i name b).scope j).parent = (s.scope j).parent ∧
      ((s.bind i name b).scope j).kind = (s.scope j).kind ∧
      ∀ other, j ≠ i ∨ other ≠ name →
        ((s.bind i name b).scope j).bindings.get? other = (s.scope j).bindings.get? other := by
  by_cases hi : i < s.scopes.size
  · rw [(changesScope_bind s name b hi).scope]
    split
    next hj =>
      subst hj
      refine ⟨rfl, rfl, fun other hother => ?_⟩
      exact Table.get?_put_of_ne _ _ (hother.resolve_left fun h => h rfl)
    next => exact ⟨rfl, rfl, fun _ _ => rfl⟩
  · have hsame : s.bind i name b = s := by simp [bind, changeScope, hi]
    rw [hsame]
    exact ⟨rfl, rfl, fun _ _ => rfl⟩

/-- Names are hoisted as before. -/
theorem home_bind (s : Store) (i : ScopeId) (name : String) (b : Binding) (scope : ScopeId)
    (q : Qualifier) : (s.bind i name b).home scope q = s.home scope q := by
  have hchain : ∀ n o, (s.bind i name b).chainFrom n o = s.chainFrom n o := by
    intro n
    induction n with
    | zero => simp [chainFrom]
    | succ n ih =>
      intro o
      cases o with
      | none => rfl
      | some j => rw [chainFrom, chainFrom, (s.scope_bind i name b j).1, ih]
  have hsize : (s.bind i name b).scopes.size = s.scopes.size := changeScope_size ..
  cases q with
  | varDecl =>
    simp only [home, hoistTarget, chain, hchain, hsize, (s.scope_bind i name b _).2.1]
  | letDecl | constDecl => rfl

/-- Only the names of the targets are bound, and only in the scope of the declaration. -/
theorem get?_bindAll (s : Store) (scope : ScopeId) (q : Qualifier) (pairs : List (Param × Value))
    {j : ScopeId} {name : String} (h : j ≠ s.home scope q ∨ ∀ p ∈ pairs, name ≠ p.1.name) :
    ((s.bindAll scope q pairs).scope j).bindings.get? name = (s.scope j).bindings.get? name := by
  induction pairs generalizing s with
  | nil => rfl
  | cons p rest ih =>
    have hrest : j ≠ (s.bind (s.home scope q) p.1.name ⟨p.2, q = .constDecl⟩).home scope q ∨
        ∀ p ∈ rest, name ≠ p.1.name := by
      rw [home_bind]
      exact h.imp_right fun hnames p hp => hnames p (.tail _ hp)
    rw [bindAll, ih _ hrest]
    exact (s.scope_bind _ _ _ j).2.2 name (h.imp_right fun hnames => hnames p (.head _))

/-- A name is bound unless its scope has a constant of that name. -/
theorem declare_cases (s : Store) (i : ScopeId) (name : String) (v : Value) (constant : Bool) :
    s.declare i name v constant = .ok (.bind i name ⟨v, constant⟩) ∧
        ((s.scope i).bindings.get? name).any (·.constant) = false ∨
      s.declare i name v constant = .error (.redeclareConstant name) ∧
        ((s.scope i).bindings.get? name).any (·.constant) = true := by
  unfold declare
  split
  next h => exact .inr ⟨rfl, by rw [h]; rfl⟩
  next h =>
    refine .inl ⟨rfl, ?_⟩
    match hb : (s.scope i).bindings.get? name with
    | none => rfl
    | some ⟨w, false⟩ => rfl
    | some ⟨w, true⟩ => exact absurd hb (h w)

theorem bindAs_cases (s : Store) (scope : ScopeId) (q : Qualifier) (name : String) (v : Value) :
    s.bindAs scope q name v = .ok (.bind (s.home scope q) name ⟨v, q = .constDecl⟩) ∧
        ((s.scope (s.home scope q)).bindings.get? name).any (·.constant) = false ∨
      s.bindAs scope q name v = .error (.redeclareConstant name) ∧
        ((s.scope (s.home scope q)).bindings.get? name).any (·.constant) = true := by
  cases q with
  | letDecl => exact s.declare_cases scope name v false
  | constDecl => exact s.declare_cases scope name v true
  | varDecl => exact s.declare_cases (s.hoistTarget scope) name v false

end Store

namespace Machine

variable {m n z : Machine} {below : List Frame} {v : Value} {s : Stmt} {f : Fault}

/-- Binding a declared value ends the statement, with the name bound or with the store as it was. -/
theorem bindDeclared_cases (m : Machine) (pos : Position) (q : Qualifier) (name : String)
    (v : Value) :
    (∃ store, m.bindDeclared pos q name v = { m with store := store }.flow (.normal v)) ∨
      ∃ f, m.bindDeclared pos q name v = m.fault f := by
  unfold bindDeclared changeAt
  cases m.store.bindAs m.scope q name v with
  | ok c => exact .inl ⟨_, rfl⟩
  | error f => exact .inr ⟨_, rfl⟩

/-- The targets are all bound, or one is refused after those before it were bound. -/
theorem bindTargets_cases (m : Machine) (q : Qualifier) (whole : Value)
    (pairs : List (Param × Value)) :
    (∃ store, m.bindTargets q whole pairs = { m with store := store }.flow (.normal whole)) ∨
      ∃ done t w rest f, pairs = done ++ (t, w) :: rest ∧
        m.bindTargets q whole pairs =
          { m with store := m.store.bindAll m.scope q done }.fault f ∧
        m.store.AcceptsAll m.scope q done ∧
        (m.store.bindAll m.scope q done).Refuses m.scope q t w f := by
  induction pairs generalizing m with
  | nil => exact .inl ⟨_, rfl⟩
  | cons pair rest ih =>
    obtain ⟨t, w⟩ := pair
    unfold bindTargets proceed
    cases hcheck : m.store.checkIf m.scope w t.typing t.pos with
    | error f =>
      exact .inr ⟨[], t, w, rest, f, rfl, rfl, m.store.acceptsAll_nil _ _, .inl hcheck⟩
    | ok =>
      unfold changeAt
      dsimp only
      rcases m.store.bindAs_cases m.scope q t.name w with
        ⟨hbind, hfree⟩ | ⟨hbind, hconst⟩
      · rw [hbind]
        have hfirst : ¬ ∃ f, m.store.Refuses m.scope q t w f := by
          rintro ⟨f, herror | ⟨_, hconst, _⟩⟩
          · rw [hcheck] at herror
            cases herror
          · rw [hfree] at hconst
            cases hconst
        rcases ih (m.changed (.bind (m.store.home m.scope q) t.name ⟨w, q = .constDecl⟩)) with
          ⟨store, hall⟩ | ⟨done, t', w', rest', f, rfl, hfault, haccepted, hrefused⟩
        · exact .inl ⟨store, hall⟩
        · exact .inr ⟨(t, w) :: done, t', w', rest', f, rfl, hfault,
            acceptsAll_cons hfirst haccepted, hrefused⟩
      · rw [hbind]
        exact .inr ⟨[], t, w, rest, _, rfl, rfl, m.store.acceptsAll_nil _ _,
          .inr ⟨hcheck, hconst, rfl⟩⟩

end Machine

/-! ## From the initializer to the end of the statement -/

def Stmt.frame? : Stmt → Option ValueFrame
  | .declare pos q name typing (some _) _ => some (.declare pos q name typing)
  | .destructure _ q targets e _ => some (.destructure e.pos q targets)
  | _ => none

/-- The run of a declaration comes to `n`, where the initializer has the value `v` and nothing is
    bound yet. Where there is no initializer, the value is nil. -/
inductive Initialized (m : Machine) (below : List Frame) (s : Stmt) (v : Value) (n : Machine) : Prop
  | evaluated {frame : ValueFrame} {start : Machine} : s.frame? = some frame →
    (m.begin below (.statement s)).step = .next start →
    Ends (.value frame :: below) (.value v) n start → Initialized m below s v n
  | absent {pos : Position} {q : Qualifier} {name : String} {typing : Option Typing}
    {exported : Bool} : s = .declare pos q name typing none exported → v = .nil →
    n = m.begin below (.statement s) → Initialized m below s v n

variable {m n z : Machine} {below : List Frame} {v : Value} {s : Stmt} {f : Fault}

/-- A value that is given to a frame goes to it in the next step. -/
theorem Ends.resumed {r : Result} {frame : ValueFrame} {start : Machine}
    (he : Ends (.value frame :: below) (.value v) n start) (hz : Ends below r z n) :
    Ends below r z ({ n with stack := below }.resumeValue v frame) := by
  obtain ⟨hstack, hc⟩ := he.gives
  refine hz.of_next (fun hgives => ?_) (Machine.step_give hc hstack)
  have hlen := congrArg List.length (hstack.symm.trans hgives.1)
  simp at hlen

/-- A declared value that is not bound leaves the store as it was. -/
theorem Ends.bindDeclared {pos : Position} {q : Qualifier} {name : String}
    (hz : Ends below (.fault f) z (n.bindDeclared pos q name v)) (hstack : n.stack = below) :
    z.store = n.store := by
  rcases n.bindDeclared_cases pos q name v with ⟨store, hbind⟩ | ⟨g, hbind⟩
  · rw [hbind] at hz
    cases (hz.eq_of_gives hstack rfl).2
  · rw [hbind] at hz
    rw [(hz.eq_of_gives hstack rfl).1]
    rfl

/-- Where a declaration fails after its initializer, one of a single name has changed nothing. A
    destructuring has changed nothing if the value cannot be taken apart, and otherwise bound the
    targets before the first one that is refused. -/
theorem failing_declaration_binds_targets_before (h : Initialized m below s v n)
    (hz : Ends below (.fault f) z n) :
    (∀ pos q name typing init exported, s = .declare pos q name typing init exported →
      z.store = n.store) ∧
    ∀ pos q targets e exported, s = .destructure pos q targets e exported →
      n.store.parts v targets e.pos = .error f ∧ z.store = n.store ∨
        ∃ items done t w rest, n.store.parts v targets e.pos = .ok items ∧
          targets.zip items = done ++ (t, w) :: rest ∧
          z.store = n.store.bindAll n.scope q done ∧ n.store.AcceptsAll n.scope q done ∧
          z.store.Refuses n.scope q t w f ∧
          ∀ j name, (j ≠ n.store.home n.scope q ∨ ∀ p ∈ done, name ≠ p.1.name) →
            (z.store.scope j).bindings.get? name = (n.store.scope j).bindings.get? name := by
  constructor
  · rintro pos q name typing init exported rfl
    cases h with
    | evaluated hframe _ he =>
      cases init with
      | none => cases hframe
      | some e =>
        cases hframe
        have hend := he.resumed hz
        unfold Machine.resumeValue Machine.proceed at hend
        dsimp only at hend
        split at hend
        · exact hend.bindDeclared rfl
        · rw [(hend.eq_of_gives rfl rfl).1]
          rfl
    | absent hs _ hn =>
      cases hs
      have hgo : ¬ n.Gives below := by
        rintro ⟨_, r, hc⟩
        rw [hn] at hc
        cases hc
      have hstep : n.step = .next (n.bindDeclared pos q name .nil) := by
        rw [hn]
        rfl
      have hend := hz.of_next hgo hstep
      exact hend.bindDeclared (by rw [hn]; rfl)
  · rintro pos q targets e exported rfl
    cases h with
    | absent hs => cases hs
    | evaluated hframe _ he =>
      cases hframe
      have hend := he.resumed hz
      unfold Machine.resumeValue Machine.proceed at hend
      dsimp only at hend
      split at hend
      next items hparts =>
        rcases Machine.bindTargets_cases { n with stack := below } q v (targets.zip items) with
          ⟨store, hall⟩ | ⟨done, t, w, rest, g, hpairs, hbind, haccepted, hrefused⟩
        · rw [hall] at hend
          cases (hend.eq_of_gives rfl rfl).2
        · rw [hbind] at hend
          obtain ⟨rfl, hg⟩ := hend.eq_of_gives rfl rfl
          cases hg
          exact .inr ⟨items, done, t, w, rest, hparts, hpairs, rfl, haccepted, hrefused,
            fun _ _ => n.store.get?_bindAll n.scope q done⟩
      next g hparts =>
        obtain ⟨rfl, hg⟩ := hend.eq_of_gives rfl rfl
        cases hg
        exact .inl ⟨hparts, rfl⟩

/-! ## A destructuring that fails half way -/

def splitText : Stmt :=
  .destructure default .constDecl [⟨"a", none, default⟩, ⟨"b", some ⟨["nil"], default⟩, default⟩]
    (.literal default (.string "xy")) false

def Fault.failure? : Fault → Option Failure
  | .runtime f _ => some f
  | _ => none

/-- The initializer of `splitText` is evaluated in a new session. The statement fails then, with a
    constant bound, and for that constant when it is executed again. -/
theorem exists_split_text : ∃ i n z again f g, Interpreter.create [] 4 = .ok i ∧
    Initialized (i.inSession []) [] splitText (.string "xy") n ∧ Ends [] (.fault f) z n ∧
    Ends [] (.fault g) again (z.begin [] (.statement splitText)) ∧
    g.failure? = some (.redeclareConstant "a") ∧
    (n.store.scope n.scope).bindings.get? "a" = none ∧
    ((z.store.scope n.scope).bindings.get? "a").any (·.constant) = true := by
  have hrun : ((Interpreter.create [] 4).toOption.any fun i =>
      (((i.inSession []).begin [] (.statement splitText)).after 2).any fun n =>
        (n.after 1).any fun z => z.stack.isEmpty && z.control.given?.any (·.fault?.isSome) &&
          (((z.begin [] (.statement splitText)).after 3).any fun again => again.stack.isEmpty &&
            again.control.given?.any
              (·.fault?.any fun g => decide (g.failure? = some (.redeclareConstant "a")))) &&
          ((n.store.scope n.scope).bindings.get? "a").isNone &&
          ((z.store.scope n.scope).bindings.get? "a").any (·.constant)) = true := by
    decide +kernel
  obtain ⟨i, hi, hrun⟩ := exists_ok_of_any hrun
  simp only [Option.any_eq_true, Bool.and_eq_true, List.isEmpty_iff, Option.isNone_iff_eq_none,
    Control.given?_eq_some, Option.isSome_iff_exists, Result.fault?_eq_some,
    decide_eq_true_eq] at hrun
  obtain ⟨n, hn, z, hz, ⟨⟨⟨hstack, _, hf, f, rfl⟩, again, hagain, hempty, _, hg, g, rfl, hlast⟩,
    hnone⟩, hconst⟩ := hrun
  cases hn
  refine ⟨i, _, z, again, f, g, hi, .evaluated rfl rfl (.next ?_ rfl (.here rfl rfl)),
    .of_after hz hstack hf, .of_after hagain hempty hg, hlast, hnone,
    (Option.any_eq_true ..).2 hconst⟩
  rintro ⟨_, r, hc⟩
  cases hc

/-- A constant is bound although the statement failed, so that the same statement fails for that
    constant when it is executed again. -/
theorem a_failing_destructuring_leaves_a_constant : ∃ i n z again f g,
    Interpreter.create [] 4 = .ok i ∧
    Initialized (i.inSession []) [] splitText (.string "xy") n ∧ Ends [] (.fault f) z n ∧
    (∃ j name, (z.store.scope j).bindings.get? name ≠ (n.store.scope j).bindings.get? name) ∧
    Ends [] (.fault g) again (z.begin [] (.statement splitText)) ∧
    g.failure? = some (.redeclareConstant "a") := by
  obtain ⟨i, n, z, again, f, g, hi, hinit, hz, hagain, hfailure, hnone, hconst⟩ := exists_split_text
  refine ⟨i, n, z, again, f, g, hi, hinit, hz, ⟨n.scope, "a", fun he => ?_⟩, hagain, hfailure⟩
  rw [he, hnone] at hconst
  cases hconst

/-- The first target of `splitText` is bound, and the second one is refused. -/
theorem split_text_binds_its_first_target : ∃ i n z f done t w,
    Interpreter.create [] 4 = .ok i ∧
    Initialized (i.inSession []) [] splitText (.string "xy") n ∧ Ends [] (.fault f) z n ∧
    done ≠ [] ∧ z.store = n.store.bindAll n.scope .constDecl done ∧
    n.store.AcceptsAll n.scope .constDecl done ∧ z.store.Refuses n.scope .constDecl t w f := by
  obtain ⟨i, n, z, again, f, g, hi, hinit, hz, _, _, hnone, hconst⟩ := exists_split_text
  have hchanged : z.store ≠ n.store := by
    intro he
    rw [he, hnone] at hconst
    cases hconst
  have hbound := (failing_declaration_binds_targets_before hinit hz).2 _ _ _ _ _ rfl
  obtain ⟨_, done, t, w, _, _, _, hstore, haccepted, hrefused, _⟩ :=
    hbound.resolve_left fun h => hchanged h.2
  refine ⟨i, n, z, f, done, t, w, hi, hinit, hz, ?_, hstore, haccepted, hrefused⟩
  rintro rfl
  exact hchanged hstore

end TinyScript

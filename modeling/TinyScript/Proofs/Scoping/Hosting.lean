/-
  TinyScript.Proofs.Scoping.Hosting — declared names are there from then on.

  While a scope is open, no name that is bound in it goes away, whatever runs (`Store.Hosts`):
  names are bound anew or get other values, but bindings go only with the scope. A part of a run
  leaves the scopes open that were open when it began. So where statements run in a scope that is
  no block, every name that one of them declares is bound in that very scope after it, and stays so
  (`Ends.declares`).
-/

import TinyScript.Proofs.Loader.Body
import TinyScript.Proofs.Scoping.Declaring

namespace TinyScript

open Store TinyScript.Text

namespace Store

variable {s t : Store} {i j : ScopeId} {kind : ScopeKind} {names : List String}

structure Hosts (s : Store) (j : ScopeId) (kind : ScopeKind) (names : List String) : Prop where
  filed : Filed s
  opened : s.isOpen j = true
  kind : (s.scope j).kind = kind
  bound : ∀ name ∈ names, (s.scope j).bindings.has name = true

namespace Hosts

theorem mono {fewer : List String} (h : Hosts s j kind names) (hsub : fewer ⊆ names) :
    Hosts s j kind fewer :=
  ⟨h.filed, h.opened, h.kind, fun name hname => h.bound name (hsub hname)⟩

/-! ## What happens to the store -/

theorem thins (h : Hosts s j kind names) (ht : Thins s t) (hf : Filed t) (ho : t.isOpen j = true) :
    Hosts t j kind names := by
  refine ⟨hf, ho, (ht j).kind.trans h.kind, fun name hname => ?_⟩
  rcases (ht j).rest with hsame | hgone
  · rw [hsame.1]
    exact h.bound name hname
  · simp [isOpen, hgone.1] at ho

theorem sameOpen (h : Hosts s j kind names) (ht : Thins s t) (hs : SameOpen s t) :
    Hosts t j kind names :=
  h.thins ht (h.filed.sameOpen hs) (hs.isOpen ▸ h.opened)

theorem sameScopes (h : Hosts s j kind names) (hs : SameScopes s t) : Hosts t j kind names :=
  h.sameOpen hs.thins hs.sameOpen

theorem capture (h : Hosts s j kind names) (i : ScopeId) : Hosts (s.capture i).2 j kind names :=
  h.sameOpen (thins_leaseFrom s _ i) (sameOpen_capture s i)

theorem push (h : Hosts s j kind names) (parent : ScopeId) (other : ScopeKind) :
    Hosts (s.push parent other).2 j kind names := by
  obtain ⟨hf, hclosed, _, hother⟩ := h.filed.push parent other
  have hpush := pushes_push s parent other fun i hi =>
    h.filed.lt_size i (List.mem_append_right _ hi)
  have hne : j ≠ (s.push parent other).1 := by
    intro he
    rw [← he, h.opened] at hclosed
    cases hclosed
  refine ⟨hf, by rw [hother _ hne, h.opened], ?_, fun name hname => ?_⟩
  · rw [hpush.scope_of_ne hne, h.kind]
  · rw [hpush.scope_of_ne hne]
    exact h.bound name hname

theorem bind (h : Hosts s j kind names) (i : ScopeId) (name : String) (b : Binding) :
    Hosts (s.bind i name b) j kind names := by
  have ho := sameOpen_bind s i name b
  refine ⟨h.filed.sameOpen ho, ho.isOpen ▸ h.opened, (s.scope_bind i name b j).2.1.trans h.kind,
    fun other hother => ?_⟩
  have hbound := h.bound other hother
  by_cases hj : j = i ∧ other = name
  · obtain ⟨rfl, rfl⟩ := hj
    rw [(changesScope_bind s other b (lt_size_of_open h.opened)).scope, if_pos rfl]
    simp [Scope.bind, Table.has, Table.put]
  · rw [Table.has_eq, (s.scope_bind i name b j).2.2 other (not_and_or.1 hj), ← Table.has_eq]
    exact hbound

/-- A name that is bound in the scope is there too. -/
theorem bind_self (h : Hosts s j kind names) (name : String) (b : Binding) :
    Hosts (s.bind j name b) j kind (name :: names) := by
  obtain ⟨hf, ho, hk, hb⟩ := h.bind j name b
  refine ⟨hf, ho, hk, List.forall_mem_cons.2 ⟨?_, hb⟩⟩
  rw [(changesScope_bind s name b (lt_size_of_open h.opened)).scope, if_pos rfl]
  simp [Scope.bind, Table.has, Table.put]

theorem apply (h : Hosts s j kind names) (c : Change) : Hosts (s.apply c) j kind names := by
  cases c with
  | bind i name b => exact h.bind i name b
  | setField x name v => exact h.sameScopes (changesCell_setField s x name v).same
  | setItem x place v => exact h.sameScopes (changesCell_setItem s x place v).same
  | append x v => exact h.sameScopes (changesCell_append s x v).same
  | dropLast x => exact h.sameScopes (changesCell_dropLast s x).same

end Hosts

end Store

/-! ## Steps and parts of a run -/

variable {base m n : Machine} {j : ScopeId} {kind : ScopeKind} {names : List String} {r : Result}

namespace Store.Hosts

theorem moves (h : m.store.Hosts j kind names) (hm : Moves m n) : n.store.Hosts j kind names := by
  induction hm with
  | refl => exact h
  | enterScope parent other _ _ ih => exact ih.push parent other
  | @changed _ c _ _ ih => exact ih.apply c
  | make _ _ ih => exact ih.sameScopes ⟨rfl, rfl, rfl, rfl, rfl⟩
  | capture _ ih => exact ih.capture _
  | _ => assumption

/-- Leaving a frame takes no name away, unless it closes the scope. -/
theorem leave (h : m.store.Hosts j kind names) (hm : m.reclaims = true) (r : Result) (e : ExitFrame)
    (ho : (m.leave r e).store.isOpen j = true) : (m.leave r e).store.Hosts j kind names := by
  cases e with
  | scope previous =>
    simp only [Machine.leave, hm, if_true] at ho ⊢
    exact h.thins (h.filed.thins_release _ _) (h.filed.release _ _).1 ho
  | call f held pos =>
    cases r with
    | value v =>
      simp only [Machine.leave, Machine.proceed]
      split <;> exact h
    | _ => exact h
  | module path =>
    simp only [Machine.leave]
    split <;> exact h
  | run located =>
    have hcollect : ∀ n : Machine, n.reclaims = true → n.store.Hosts j kind names →
        (if n.reclaims then { n with store := n.store.collect n.held } else n).store.Hosts j kind
          names := by
      intro n hn h
      rw [if_pos hn]
      exact h.sameOpen (h.filed.thins_collect _) (h.filed.collect _)
    cases located <;> exact hcollect _ hm h
  | session previous => exact h

theorem next (h : m.store.Hosts j kind names) (hm : m.reclaims = true) (hstep : m.step = .next n)
    (ho : n.store.isOpen j = true) : n.store.Hosts j kind names := by
  cases goes_of_next hstep with
  | start hn => exact h.moves hn
  | @resume _ _ _ stack _ _ _ hn => exact moves (m := { m with stack := stack }) h hn
  | @leave _ _ stack _ _ => exact leave (m := { m with stack := stack }) h hm _ _ ho

end Store.Hosts

/-- Frames only close scopes when they are left. -/
theorem opened_of_unwind {frames : List Frame} {c : Standing}
    (h : (unwind frames c).opened j = true) : c.opened j = true := by
  induction frames generalizing c with
  | nil => exact h
  | cons f frames ih =>
    have hf := ih (c := f.undo c) h
    cases f with
    | exit e =>
      cases e with
      | scope previous =>
        simp only [Frame.undo, ExitFrame.undo, openBut] at hf
        simp_all
      | run located => cases located <;> exact hf
      | _ => exact hf
    | _ => exact hf

/-- A scope that is open where a part of a run begins is open within it. -/
theorem Within.isOpen (h : Within base m) (hb : base.store.isOpen j = true) :
    m.store.isOpen j = true := by
  obtain ⟨frames, _, hunwind, _⟩ := h.above
  have hopened : (unwind frames m.standing).opened j = true := by
    rw [hunwind]
    exact hb
  exact opened_of_unwind hopened

/-- Names that are bound in such a scope are still bound when the part ends. -/
theorem Ends.hosts (he : Ends base.stack r n m) (hw : Within base m)
    (hb : base.store.isOpen j = true) (h : m.store.Hosts j kind names) :
    n.store.Hosts j kind names := by
  induction he with
  | here => exact h
  | next hgo hstep _ ih =>
    have hn := hw.next hgo hstep
    exact ih hn (h.next hw.reclaims hstep (hn.isOpen hb))
  | ask reply hstep _ ih => exact ih (hw.ask reply hstep) (h.moves (moves_of_ask hstep reply))

/-! ## Declarations -/

variable {libraries : List Library} {maxDepth : Nat} {k : Machine} {below : List Frame}
  {v w : Value}
  {pos : Position} {q : Qualifier} {name : String}

namespace Store

/-- A scope that is no block keeps the names that are hoisted in it. -/
theorem hoistTarget_self {s : Store} (hj : j < s.scopes.size) (hk : (s.scope j).kind ≠ .block) :
    s.hoistTarget j = j := by
  obtain ⟨size, hsize⟩ := Nat.exists_eq_succ_of_ne_zero (Nat.ne_zero_of_lt hj)
  have hchain : s.chain j = j :: s.chainFrom size (s.scope j).parent := by
    rw [chain, hsize, chainFrom]
  simp [hoistTarget, hchain, hk]

theorem Hosts.home_eq {s : Store} (h : s.Hosts j kind names) (hk : kind ≠ .block) (q : Qualifier) :
    s.home j q = j := by
  cases q with
  | varDecl => exact hoistTarget_self (lt_size_of_open h.opened) (h.kind ▸ hk)
  | letDecl | constDecl => rfl

/-- A name that is declared in a scope that is no block is bound there. -/
theorem Hosts.bind_home {s : Store} (h : s.Hosts j kind names) (hk : kind ≠ .block) (q : Qualifier)
    (name : String) (b : Binding) : (s.bind (s.home j q) name b).Hosts j kind (name :: names) := by
  rw [h.home_eq hk q]
  exact h.bind_self name b

theorem length_of_mapM {α β ε : Type} {f : α → Except ε β} {as : List α} {bs : List β}
    (h : as.mapM f = .ok bs) : bs.length = as.length := by
  induction as generalizing bs with
  | nil =>
    cases h
    rfl
  | cons a as ih =>
    rw [List.mapM_cons] at h
    cases ha : f a with
    | error e =>
      rw [ha] at h
      cases h
    | ok b =>
      rw [ha] at h
      cases hrest : as.mapM f with
      | error e =>
        simp only [hrest] at h
        cases h
      | ok rest =>
        simp only [hrest] at h
        cases h
        simp [ih hrest]

/-- A value that can be taken apart has a part for every target. -/
theorem length_parts {s : Store} {targets : List Param} {items : List Value}
    (h : s.parts v targets pos = .ok items) : items.length = targets.length := by
  unfold parts at h
  split at h
  · cases h
    simp
  · exact length_of_mapM h
  · cases hitems : located pos (s.elements v) with
    | error f =>
      rw [hitems] at h
      cases h
    | ok all =>
      simp only [hitems] at h
      change (if all.length < targets.length then _ else _) = _ at h
      split at h
      · cases h
      · cases h
        rw [List.length_take]
        omega

end Store

/-- A declaration that ends normally has bound its name. -/
theorem Ends.bound_declared (he : Ends below (.flow (.normal v)) n (k.bindDeclared pos q name w))
    (hs : k.stack = below) (hk : kind ≠ .block) (h : k.store.Hosts k.scope kind names) :
    n.store.Hosts k.scope kind (name :: names) := by
  unfold Machine.bindDeclared Machine.changeAt at he
  rcases k.store.bindAs_cases k.scope q name w with ⟨hbind, _⟩ | ⟨hbind, _⟩
  · rw [hbind] at he
    rw [(he.eq_of_gives hs rfl).1]
    exact h.bind_home hk q name _
  · rw [hbind] at he
    cases (he.eq_of_gives hs rfl).2

theorem Ends.bound_statement (he : Ends below (.flow (.normal v)) n (k.bindStatement pos name w))
    (hs : k.stack = below) (h : k.store.Hosts k.scope kind names) :
    n.store.Hosts k.scope kind (name :: names) := by
  unfold Machine.bindStatement Machine.changeAt at he
  rcases k.store.declare_cases k.scope name w false with ⟨hbind, _⟩ | ⟨hbind, _⟩
  · rw [hbind] at he
    rw [(he.eq_of_gives hs rfl).1]
    exact h.bind_self name _
  · rw [hbind] at he
    cases (he.eq_of_gives hs rfl).2

theorem Ends.bound_targets {pairs : List (Param × Value)}
    (he : Ends below (.flow (.normal v)) n (k.bindTargets q w pairs)) (hs : k.stack = below)
    (hk : kind ≠ .block) (h : k.store.Hosts k.scope kind names) :
    n.store.Hosts k.scope kind (pairs.map (·.1.name) ++ names) := by
  induction pairs generalizing k names with
  | nil =>
    rw [(he.eq_of_gives hs rfl).1]
    exact h
  | cons pair rest ih =>
    obtain ⟨t, item⟩ := pair
    unfold Machine.bindTargets Machine.proceed at he
    split at he
    · unfold Machine.changeAt at he
      rcases k.store.bindAs_cases k.scope q t.name item with ⟨hbind, _⟩ | ⟨hbind, _⟩
      · rw [hbind] at he
        refine (ih he hs (h.bind_home hk q t.name _)).mono fun other hother => ?_
        simp only [List.map_cons, List.cons_append, List.mem_cons, List.mem_append] at hother ⊢
        tauto
      · rw [hbind] at he
        cases (he.eq_of_gives hs rfl).2
    · cases (he.eq_of_gives hs rfl).2

/-- What waits for a value on the way to a normal end is given one. -/
theorem Ends.through_value {frame : ValueFrame} (he : Ends below (.flow (.normal v)) n m)
    (hm : Reached libraries maxDepth (.running m)) (hs : .value frame :: below <:+ m.stack) :
    ∃ w k, Ends (.value frame :: below) (.value w) k m ∧
      Ends below (.flow (.normal v)) n ({ k with stack := below }.resumeValue w frame) := by
  obtain ⟨r, k, hfirst, hrest⟩ := he.first hs (by simp)
  obtain ⟨hks, hkc⟩ := hfirst.gives
  obtain ⟨⟨goal, _, hfits⟩, _⟩ := (hfirst.reached hm).fits
  have hcontrol := hfits.control
  have hstack := hfits.stack
  rw [hkc, hks] at hcontrol
  rw [hks] at hstack
  rcases Result.Fits.takes hcontrol hstack.1 with ht | ⟨f, rfl⟩
  · cases r with
    | value w => exact ⟨w, k, hfirst, hfirst.resumed hrest⟩
    | _ => cases ht
  · obtain ⟨g, hg⟩ := hrest.fault hkc
    cases hg

/-- An initializer is evaluated in the scope of its declaration. -/
theorem Ends.hosts_value {frame : ValueFrame} (he : Ends (.value frame :: m.stack) r k n)
    (hm : Reached libraries maxDepth (.running m)) (hn : Moves (m.push (.value frame)) n)
    (h : m.store.Hosts m.scope kind names) :
    k.scope = m.scope ∧ k.store.Hosts m.scope kind names := by
  have hw : Within (m.push (.value frame)) n :=
    (Within.refl (m := m.push (.value frame)) hm.reclaims hm.filed).moves hn
  have hscope := congrArg Standing.scope (hw.restored he)
  have hpushed : (m.push (.value frame)).store.Hosts m.scope kind names := h
  exact ⟨hscope, he.hosts hw h.opened (hpushed.moves hn)⟩

/-- A statement that ends normally, in a scope that is no block, has bound all names that it
    declares in that scope, and what was bound there still is. -/
theorem Ends.declares {s : Stmt} (he : Ends m.stack (.flow (.normal v)) n m)
    (hm : Reached libraries maxDepth (.running m)) (hc : m.control = .exec s) (hk : kind ≠ .block)
    (h : m.store.Hosts m.scope kind names) :
    n.scope = m.scope ∧ n.store.Hosts m.scope kind (s.declared.map (·.1) ++ names) := by
  have hw : Within m m := .refl hm.reclaims hm.filed
  have hscope : n.scope = m.scope := congrArg Standing.scope (hw.restored he)
  refine ⟨hscope, ?_⟩
  have hgo : ¬ m.Gives m.stack := by
    rintro ⟨_, r, hr⟩
    rw [hc] at hr
    cases hr
  have hstep : m.step = .next (m.execute s) := by rw [Machine.step, hc]
  have hrest := he.of_next hgo hstep
  have hexec := hm.next hstep
  -- a declaration that waits for a value goes on in its own scope when it comes
  have hwaits : ∀ frame, Moves (m.push (.value frame)) (m.execute s) →
      ∃ (w : Value) (k : Machine), k.stack = m.stack ∧ k.scope = m.scope ∧
        k.store.Hosts m.scope kind names ∧
        Ends m.stack (.flow (.normal v)) n (k.resumeValue w frame) := by
    intro frame hmoves
    obtain ⟨w, k, hvalue, hend⟩ := hrest.through_value hexec hmoves.stack_suffix
    obtain ⟨hkscope, hkhosts⟩ := hvalue.hosts_value hm hmoves h
    exact ⟨w, { k with stack := m.stack }, rfl, hkscope, hkhosts, hend⟩
  cases s with
  | declare pos q name typing init exported =>
    cases init with
    | none => exact hrest.bound_declared rfl hk h
    | some e =>
      obtain ⟨w, k, hks, hkscope, hkhosts, hend⟩ :=
        hwaits (.declare pos q name typing) (Moves.refl.eval e)
      unfold Machine.resumeValue Machine.proceed at hend
      dsimp only at hend
      split at hend
      · rw [← hkscope] at hkhosts ⊢
        exact hend.bound_declared hks hk hkhosts
      · cases (hend.eq_of_gives hks rfl).2
  | destructure pos q targets e exported =>
    obtain ⟨w, k, hks, hkscope, hkhosts, hend⟩ :=
      hwaits (.destructure e.pos q targets) (Moves.refl.eval e)
    unfold Machine.resumeValue Machine.proceed at hend
    dsimp only at hend
    split at hend
    next items hparts =>
      rw [← hkscope] at hkhosts ⊢
      have hnames : (targets.zip items).map (·.1.name) =
          (Stmt.destructure pos q targets e exported).declared.map (·.1) := by
        calc (targets.zip items).map (·.1.name)
            = ((targets.zip items).map Prod.fst).map (·.name) := by rw [List.map_map]; rfl
          _ = targets.map (·.name) := by rw [List.map_fst_zip (length_parts hparts).ge]
          _ = _ := by rw [Stmt.declared, List.map_map]; rfl
      exact hnames ▸ hend.bound_targets hks hk hkhosts
    next => cases (hend.eq_of_gives hks rfl).2
  | function pos d exported =>
    have hmade : (m.functionValue d).2.store.Hosts m.scope kind names :=
      (h.capture m.scope).sameScopes ⟨rfl, rfl, rfl, rfl, rfl⟩
    exact Ends.bound_statement (k := (m.functionValue d).2) hrest rfl hmade
  | classDef pos d exported =>
    have hmade : (m.classValue d).2.store.Hosts m.scope kind names :=
      (h.capture m.scope).sameScopes ⟨rfl, rfl, rfl, rfl, rfl⟩
    exact Ends.bound_statement (k := (m.classValue d).2) hrest rfl hmade
  | namespaceDef pos d exported =>
    obtain ⟨w, k, hks, hkscope, hkhosts, hend⟩ :=
      hwaits (.bindName pos d.shownName) (Moves.refl.enterNamespace d)
    rw [← hkscope] at hkhosts ⊢
    exact hend.bound_statement hks hkhosts
  | _ => exact he.hosts hw h.opened h

end TinyScript

/-
  TinyScript.Proofs.Scoping.Exporting — a namespace has what its body declared.

  A namespace is made from the statements of its body after they were executed: the names are read
  off the statements (`Exported`), and each is looked up from the scope of the body. Here it is
  shown that the lookup goes no further than that scope. All names that the statements declare are
  bound there when the body is at its end (`Body.Runs.hosts`), so each gets a symbol with what it
  is bound to there (`Store.Exports`). The namespace is held while the scope is left, and neither
  it nor its symbols are taken away with the scope (`Store.Exports.release`).

  A file that is imported and a namespace in a script are treated alike (`Body`).
-/

import Mathlib.Data.List.Basic
import TinyScript.Proofs.Scoping.Hosting

namespace TinyScript

open Store TinyScript.Text

variable {names : List String} {body : List Stmt}

/-! ## Names -/

inductive Stmt.Declares : Stmt → List String → Bool → Prop
  | name {pos : Position} {q : Qualifier} {name : String} {typing : Option Typing}
    {value : Option Expr} {exported : Bool} :
    Declares (.declare pos q name typing value exported) [name] exported
  | targets {pos : Position} {q : Qualifier} {targets : List Param} {value : Expr}
    {exported : Bool} :
    Declares (.destructure pos q targets value exported) (targets.map (·.name)) exported
  | function {pos : Position} {d : FunctionDecl} {exported : Bool} :
    Declares (.function pos d exported) [d.shownName] exported
  | class {pos : Position} {d : ClassDecl} {exported : Bool} :
    Declares (.classDef pos d exported) [d.shownName] exported
  | space {pos : Position} {d : NamespaceDecl} {exported : Bool} :
    Declares (.namespaceDef pos d exported) [d.shownName] exported

/-- The names that the statements of a body declare themselves, as often as they do so, each with
    whether it is exported. -/
inductive Declared : List Stmt → List (String × Bool) → Prop
  | nil : Declared [] []
  | declares {s : Stmt} {body : List Stmt} {names : List String} {exported : Bool}
    {rest : List (String × Bool)} : s.Declares names exported → Declared body rest →
    Declared (s :: body) (names.map (·, exported) ++ rest)
  | other {s : Stmt} {body : List Stmt} {rest : List (String × Bool)} :
    (∀ names exported, ¬ s.Declares names exported) → Declared body rest → Declared (s :: body) rest

/-- The names that are kept: the exported ones, or all if none is exported. -/
def keptNames (declared : List (String × Bool)) : List String :=
  (if declared.any (·.2) then declared.filter (·.2) else declared).map (·.1)

/-- The second list has the names of the first one, each once, in the order in which they first
    come. -/
structure FirstOf (all names : List String) : Prop where
  mem : ∀ name, name ∈ names ↔ name ∈ all
  ordered : names.Pairwise fun x y => all.idxOf x < all.idxOf y

theorem firstOf_foldl {all done todo names : List String} (hall : all = done ++ todo)
    (hmem : ∀ name, name ∈ names ↔ name ∈ done)
    (hordered : names.Pairwise fun x y => all.idxOf x < all.idxOf y) :
    FirstOf all
      (todo.foldl (fun names n => if names.contains n then names else names ++ [n]) names) := by
  induction todo generalizing done names with
  | nil =>
    rw [List.append_nil] at hall
    exact ⟨fun name => by rw [hall]; exact hmem name, hordered⟩
  | cons n todo ih =>
    rw [List.foldl_cons]
    refine ih (show all = (done ++ [n]) ++ todo by rw [hall, List.append_assoc]; rfl) ?_ ?_
    · intro name
      split
      next hn =>
        rw [List.contains_iff_mem] at hn
        rw [List.mem_append, List.mem_singleton, hmem]
        constructor
        · exact .inl
        · rintro (hd | rfl)
          · exact hd
          · exact (hmem _).1 hn
      next => rw [List.mem_append, List.mem_append, hmem]
    · split
      next => exact hordered
      next hn =>
        rw [List.contains_iff_mem, hmem] at hn
        refine List.pairwise_append.2 ⟨hordered, List.pairwise_singleton _ _, fun x hx y hy => ?_⟩
        cases List.mem_singleton.1 hy
        -- what was kept comes before the first place of a new name
        rw [hall, List.idxOf_append_of_mem ((hmem x).1 hx), List.idxOf_append_of_notMem hn]
        exact Nat.lt_add_right _ (List.idxOf_lt_length_of_mem ((hmem x).1 hx))

def Exported (body : List Stmt) (names : List String) : Prop :=
  ∃ declared, Declared body declared ∧ FirstOf (keptNames declared) names

theorem Stmt.Declares.declared_eq {s : Stmt} {exported : Bool} (h : s.Declares names exported) :
    s.declared = names.map (·, exported) := by
  cases h with
  | targets =>
    rw [Stmt.declared, List.map_map]
    rfl
  | _ => rfl

theorem Stmt.declares_or (s : Stmt) : (∃ names exported, s.Declares names exported) ∨
    (∀ names exported, ¬ s.Declares names exported) ∧ s.declared = [] := by
  cases s with
  | declare => exact .inl ⟨_, _, .name⟩
  | destructure => exact .inl ⟨_, _, .targets⟩
  | function => exact .inl ⟨_, _, .function⟩
  | classDef => exact .inl ⟨_, _, .class⟩
  | namespaceDef => exact .inl ⟨_, _, .space⟩
  | _ => exact .inr ⟨by rintro _ _ ⟨⟩, rfl⟩

theorem declared_iff {declared : List (String × Bool)} :
    Declared body declared ↔ declared = body.flatMap Stmt.declared := by
  constructor
  · intro h
    induction h with
    | nil => rfl
    | declares hs _ ih => rw [List.flatMap_cons, hs.declared_eq, ih]
    | @other s body rest hs _ ih =>
      rcases s.declares_or with ⟨names, exported, hd⟩ | ⟨_, hnone⟩
      · exact absurd hd (hs names exported)
      · rw [List.flatMap_cons, hnone, ih, List.nil_append]
  · rintro rfl
    induction body with
    | nil => exact .nil
    | cons s body ih =>
      rw [List.flatMap_cons]
      rcases s.declares_or with ⟨names, exported, hd⟩ | ⟨hs, hnone⟩
      · rw [hd.declared_eq]
        exact .declares hd ih
      · rw [hnone]
        exact .other hs ih

theorem firstOf_exportedNames (body : List Stmt) :
    FirstOf (keptNames (body.flatMap Stmt.declared)) (exportedNames body) := by
  simp only [exportedNames, keptNames]
  generalize body.flatMap Stmt.declared = declared
  have hany : (declared.filter (·.2)).isEmpty = !declared.any (·.2) := by
    rw [Bool.eq_iff_iff]
    simp
  rw [hany]
  cases declared.any (·.2) <;> exact firstOf_foldl (List.nil_append _).symm (by simp) .nil

theorem FirstOf.unique {all names others : List String} (h : FirstOf all names)
    (h' : FirstOf all others) : names = others := by
  have hnodup : ∀ {l : List String}, (l.Pairwise fun x y => all.idxOf x < all.idxOf y) → l.Nodup :=
    fun hl => hl.imp fun hxy he => absurd (he ▸ hxy) (Nat.lt_irrefl _)
  have hperm := (List.perm_ext_iff_of_nodup (hnodup h.ordered) (hnodup h'.ordered)).2 fun name =>
    (h.mem name).trans (h'.mem name).symm
  exact hperm.eq_of_pairwise (fun _ _ _ _ hxy hyx => absurd hxy (Nat.lt_asymm hyx)) h.ordered
    h'.ordered

/-- There is one list of names that a body exports. -/
theorem exported_iff :
    Exported body names ↔ names = exportedNames body := by
  have hfirst := firstOf_exportedNames body
  constructor
  · rintro ⟨declared, hd, hnames⟩
    rw [declared_iff.1 hd] at hnames
    exact hnames.unique hfirst
  · rintro rfl
    exact ⟨_, declared_iff.2 rfl, hfirst⟩

/-- Only names that are declared are exported. -/
theorem mem_declared_of_exportedNames {name : String} (h : name ∈ exportedNames body) :
    name ∈ (body.flatMap Stmt.declared).map (·.1) := by
  have hkept := ((firstOf_exportedNames body).mem name).1 h
  unfold keptNames at hkept
  split at hkept
  · obtain ⟨d, hd, rfl⟩ := List.mem_map.1 hkept
    exact List.mem_map_of_mem (List.mem_of_mem_filter hd)
  · exact hkept

/-! ## Symbols -/

namespace Store

variable {s t : Store} {r : Ref} {i j : ScopeId} {name : String}
  {symbols : List Ref} {bindings : Table Binding} {held : List Ref}

/-- The namespace at `r` has a symbol for each name, with the value and the constancy that the name
    is bound with. -/
structure Exports (s : Store) (r : Ref) (name : String) (bindings : Table Binding)
    (names : List String) (symbols : List Ref) : Prop where
  space : s.cell? r = some (.namespaceDef name symbols)
  symbols : List.Forall₂ (fun x id => ∃ b, bindings.get? id = some b ∧
    s.cell? x = some (.symbol id b.value b.constant)) symbols names

theorem binding?_own {b : Binding} (hj : j < s.scopes.size)
    (hb : (s.scope j).bindings.get? name = some b) : s.binding? j name = some b := by
  obtain ⟨size, hsize⟩ := Nat.exists_eq_succ_of_ne_zero (Nat.ne_zero_of_lt hj)
  rw [binding?, chain, hsize, chainFrom, List.findSome?_cons, hb]

theorem makeSymbols_exports (hs : Numbered s) (hj : j < s.scopes.size)
    (hbound : ∀ id ∈ names, (s.scope j).bindings.has id = true) :
    Numbered (s.makeSymbols j names).2 ∧
    (∀ r c, s.cell? r = some c → (s.makeSymbols j names).2.cell? r = some c) ∧
    List.Forall₂ (fun x id => ∃ b, (s.scope j).bindings.get? id = some b ∧
      (s.makeSymbols j names).2.cell? x = some (.symbol id b.value b.constant))
      (s.makeSymbols j names).1 names := by
  induction names generalizing s with
  | nil => exact ⟨hs, fun _ _ h => h, .nil⟩
  | cons id names ih =>
    obtain ⟨hid, hbound⟩ := List.forall_mem_cons.1 hbound
    rw [Table.has_eq] at hid
    obtain ⟨b, hb⟩ := Option.isSome_iff_exists.1 hid
    have hmake : s.makeSymbols j (id :: names) =
        (s.next :: ((s.alloc (.symbol id b.value b.constant)).2.makeSymbols j names).1,
          ((s.alloc (.symbol id b.value b.constant)).2.makeSymbols j names).2) := by
      rw [makeSymbols, binding?_own hj hb]
      rfl
    have hnew : (s.alloc (.symbol id b.value b.constant)).2.cell? s.next =
        some (.symbol id b.value b.constant) := (cell?_alloc s _ s.next).trans (if_pos rfl)
    obtain ⟨hnumbered, hkeeps, hall⟩ := ih (hs.alloc (.symbol id b.value b.constant)) hj hbound
    rw [hmake]
    exact ⟨hnumbered, fun r c hr => hkeeps r c (hs.alloc_keeps _ hr),
      .cons ⟨b, hb, hkeeps _ _ hnew⟩ hall⟩

theorem makeSpace_exports (hs : Numbered s) (hj : j < s.scopes.size)
    (hbound : ∀ id ∈ exportedNames body, (s.scope j).bindings.has id = true) (name : String) :
    ∃ r symbols, (s.makeSpace j name body).1 = .namespaceRef r ∧
      (s.makeSpace j name body).2.Exports r name (s.scope j).bindings (exportedNames body)
        symbols := by
  obtain ⟨hnumbered, _, hsymbols⟩ := makeSymbols_exports hs hj hbound
  refine ⟨_, _, rfl, (cell?_alloc _ _ _).trans (if_pos rfl), hsymbols.imp ?_⟩
  rintro x id ⟨b, hb, hx⟩
  exact ⟨b, hb, hnumbered.alloc_keeps _ hx⟩

/-- Each of these cells is held or referred to by another of them, and none of them is such that it
    can be emptied. -/
structure Fastened (s : Store) (held : List Ref) (L : Ref → Prop) : Prop where
  linked : ∀ r, L r → r ∈ held ∨ ∃ x c, L x ∧ s.cell? x = some c ∧ r ∈ c.refs
  plain : ∀ r, L r → ∃ c, s.cell? r = some c ∧ c.emptied = c

namespace Fastened

variable {L : Ref → Prop}

theorem of_same (h : s.Fastened held L) (he : ∀ r, L r → t.cell? r = s.cell? r) :
    t.Fastened held L := by
  refine ⟨fun r hr => (h.linked r hr).imp_right ?_, fun r hr => he r hr ▸ h.plain r hr⟩
  rintro ⟨x, c, hx, hc, hrc⟩
  exact ⟨x, c, hx, (he x hx).trans hc, hrc⟩

theorem settle (h : s.Fastened held L) (hr : L r) : (s.settle held).cell? r = s.cell? r := by
  refine settle_keeps (L := L) (fun x hx => ?_) hr
  rcases h.linked x hx with hheld | hlink
  · exact .inr (.inl hheld)
  · exact .inr (.inr (.inr hlink))

theorem collect (h : s.Fastened held L) (hf : Filed s) (hr : L r) :
    (s.collect held).cell? r = s.cell? r := by
  obtain ⟨_, u, _, _, _, hgone, hlost, _, hcell⟩ := hf.collect_frees held
  have hu : u.cell? r = s.cell? r := by
    rw [Store.cell?, hlost.cells, hgone.cells]
    exact h.settle hr
  obtain ⟨c, hc, he⟩ := h.plain r hr
  rw [hcell, hu, hc, Option.map_some, he, ite_self]

/-- Such cells are there after a scope was left. -/
theorem release (h : s.Fastened held L) (hf : Filed s) (i : ScopeId) (hr : L r) :
    (s.release held i).cell? r = s.cell? r := by
  by_cases hi : s.isOpen i = true
  · have hsame := (sameScopes_settle s held).sameOpen
    rcases release_cases held (by simpa [isOpen] using hi) (lt_size_of_open hi) with
      ⟨_, hfree⟩ | ⟨_, hfree⟩ | ⟨_, t, ht, ⟨_, he⟩ | he⟩
    · rw [Store.cell?, hfree.cells]
      rfl
    · rw [Store.cell?, hfree.cells]
      exact h.settle hr
    · rw [he, Store.cell?, ht.cells]
      exact h.settle hr
    · have hi' : (s.settle held).isOpen i = true := by rw [hsame.isOpen, hi]
      have hretired : ∀ x, L x → t.cell? x = s.cell? x := by
        intro x hx
        rw [Store.cell?, ht.cells]
        exact h.settle hx
      rw [he, (h.of_same hretired).collect (ht.closes (hf.sameOpen hsame) hi').1 hr]
      exact hretired r hr
  · rw [release_of_not_isOpen held hi]

end Fastened

theorem forall₂_of_mem {α β : Type} {R S : α → β → Prop} {as : List α} {bs : List β}
    (h : List.Forall₂ R as bs) (himp : ∀ a ∈ as, ∀ b, R a b → S a b) : List.Forall₂ S as bs := by
  induction h with
  | nil => exact .nil
  | cons hab _ ih =>
    obtain ⟨ha, hrest⟩ := List.forall_mem_cons.1 himp
    exact .cons (ha _ hab) (ih hrest)

/-- A namespace that is held is the same after a scope was left. -/
theorem Exports.release (h : s.Exports r name bindings names symbols) (hf : Filed s)
    (hr : r ∈ held) (i : ScopeId) : (s.release held i).Exports r name bindings names symbols := by
  have hfastened : s.Fastened held fun x => x = r ∨ x ∈ symbols := by
    refine ⟨?_, ?_⟩
    · rintro x (rfl | hx)
      · exact .inl hr
      · exact .inr ⟨r, _, .inl rfl, h.space, hx⟩
    · rintro x (rfl | hx)
      · exact ⟨_, h.space, rfl⟩
      · obtain ⟨id, _, b, _, hb⟩ := exists_right_of_forall₂ h.symbols hx
        exact ⟨_, hb, rfl⟩
  refine ⟨(hfastened.release hf i (.inl rfl)).trans h.space, forall₂_of_mem h.symbols ?_⟩
  rintro x hx id ⟨b, hb, hcell⟩
  exact ⟨b, hb, (hfastened.release hf i (.inr hx)).trans hcell⟩

end Store

/-! ## Bodies -/

/-- What a namespace comes from: the body of a namespace, or the program of a file. -/
inductive Body where
  | space (d : NamespaceDecl)
  | file (path : String) (program : Program)

namespace Body

def name : Body → String
  | space d => d.shownName
  | file path _ => Path.stem path

def statements : Body → List Stmt
  | space d => d.body
  | file _ program => program

def frame : Body → Value → List Stmt → FlowFrame
  | space _ => .sequence
  | file _ _ => .program

def last : Body → Value → Result
  | space _, v => .flow (.normal v)
  | file _ _, v => .value v

def finish : Body → Frame
  | space d => .flow (.namespaceBody d.shownName d.body)
  | file path program => .value (.exports (Path.stem path) program)

def exits (waiting : List Frame) : Body → List Frame
  | space _ => waiting
  | file path _ => .exit (.module path) :: waiting

def below (b : Body) (m : Machine) (waiting : List Frame) : List Frame :=
  b.finish :: .exit (.scope m.scope) :: b.exits waiting

/-- In the state `m` a body begins, for the frames that wait: that of a namespace in an expression
    or in a statement, or that of a file that was read. -/
inductive Starts (m : Machine) : Body → (waiting : List Frame) → (start : Machine) → Prop
  | expression {pos : Position} {d : NamespaceDecl} : m.control = .eval (.namespaceDef pos d) →
    Starts m (.space d) m.stack (m.enterNamespace d)
  | statement {pos : Position} {d : NamespaceDecl} {exported : Bool} :
    m.control = .exec (.namespaceDef pos d exported) →
    Starts m (.space d) (.value (.bindName pos d.shownName) :: m.stack)
      ((m.push (.value (.bindName pos d.shownName))).enterNamespace d)
  | file {path source : String} {pos : Position} {program : Program} :
    m.control = .load path pos → parseSource source path = .ok program →
    Starts m (.file path program) m.stack (m.enterModule path source)

/-- From `m` on the statements are executed one after the other, and each ends normally. Then the
    body is at its end in `k`. -/
inductive Runs (b : Body) (below : List Frame) : Machine → List Stmt → Machine → Prop
  | done {k : Machine} {v : Value} : k.stack = below → k.control = .give (b.last v) →
    Runs b below k [] k
  | statement {m n n' k : Machine} {s : Stmt} {todo : List Stmt} {v w : Value} :
    m.stack = .flow (b.frame v todo) :: below → m.control = .exec s →
    Ends m.stack (.flow (.normal w)) n m → n.step = .next n' → Runs b below n' todo k →
    Runs b below m (s :: todo) k

def go (b : Body) (m : Machine) (v : Value) : List Stmt → Machine
  | [] => m.giving (b.last v)
  | s :: todo => (m.push (.flow (b.frame v todo))).exec s

variable {b : Body} {m n k start : Machine} {waiting below : List Frame} {v w : Value}
  {todo : List Stmt}

theorem length_exits (b : Body) (waiting : List Frame) :
    waiting.length ≤ (b.exits waiting).length := by
  cases b with
  | space d => exact Nat.le_refl _
  | file path program => exact Nat.le_succ _

theorem length_below (b : Body) (m : Machine) (waiting : List Frame) :
    waiting.length < (b.below m waiting).length := by
  have := b.length_exits waiting
  simp only [Body.below, List.length_cons]
  omega

theorem go_space (d : NamespaceDecl) (m : Machine) (v : Value) (todo : List Stmt) :
    (space d).go m v todo = m.sequence v todo := by
  cases todo <;> rfl

theorem go_file (path : String) (program : Program) (m : Machine) (v : Value) (todo : List Stmt) :
    (file path program).go m v todo = m.program v todo := by
  cases todo <;> rfl

/-- After a statement that ended normally the next one is executed. -/
theorem step_normal (hc : k.control = .give (.flow (.normal w)))
    (hs : k.stack = .flow (b.frame v todo) :: below) :
    k.step = .next (b.go { k with stack := below } w todo) := by
  rw [Machine.step_give hc hs]
  cases b with
  | space d => rw [go_space]; rfl
  | file path program => rw [go_file]; rfl

/-- A body starts in a new scope, with all of its statements left. -/
theorem Starts.eq_go (h : b.Starts m waiting start) : ∃ entered : Machine,
    start = b.go entered .nil b.statements ∧ entered.stack = b.below m waiting ∧
    ∃ parent, entered.scope = (m.store.push parent .module).1 ∧
      entered.store = (m.store.push parent .module).2 := by
  cases h with
  | @expression pos d _ =>
    refine ⟨(m.enterScope m.scope .module).push (space d).finish, ?_, rfl, m.scope, rfl, rfl⟩
    rw [go_space]
    rfl
  | @statement pos d exported _ =>
    refine ⟨((m.push (.value (.bindName pos d.shownName))).enterScope m.scope .module).push
      (space d).finish, ?_, rfl, m.scope, rfl, rfl⟩
    rw [go_space]
    rfl
  | @file path source pos program _ hp =>
    refine ⟨(({ m with loading := m.loading ++ [path] }.push (.exit (.module path))).enterScope
      Store.global .module).push (Body.file path program).finish, ?_, rfl, Store.global, rfl, rfl⟩
    rw [go_file]
    simp only [Machine.enterModule, Machine.proceed, hp]
    rfl

/-- The state in which a body begins comes from that before. -/
theorem Starts.reached {libraries : List Library} {maxDepth : Nat} (h : b.Starts m waiting start)
    (hm : Reached libraries maxDepth (.running m)) :
    Reached libraries maxDepth (.running start) := by
  cases h with
  | expression hc => exact hm.next (by rw [Machine.step, hc]; rfl)
  | statement hc => exact hm.next (by rw [Machine.step, hc]; rfl)
  | @file path source pos program hc _ =>
    obtain ⟨resume, hstep, hresume⟩ : ∃ resume, m.step = .ask (.read path) resume ∧
        resume (.ok source) = m.enterModule path source := ⟨_, by rw [Machine.step, hc], rfl⟩
    rw [← hresume]
    exact hm.ask _ hstep

variable {libraries : List Library} {maxDepth : Nat} {r : Result}

/-- What is given to the statements of a body is the normal end of one, or a fault. -/
theorem normal_or_fault (h : Reached libraries maxDepth (.running k))
    (hs : k.stack = .flow (b.frame v todo) :: b.below m waiting) (hc : k.control = .give r) :
    (∃ w, r = .flow (.normal w)) ∨ ∃ f, r = .fault f := by
  cases b with
  | file path program => exact h.normal_or_fault hs hc
  | space d =>
    obtain ⟨⟨goal, _, hfits⟩, _⟩ := h.fits
    have hcontrol := hfits.control
    have hstack := hfits.stack
    rw [hc, hs] at hcontrol
    rw [hs] at hstack
    rcases Result.Fits.takes hcontrol hstack.1 with ht | hf
    · cases r with
      | flow f =>
        cases f with
        | normal w => exact .inl ⟨w, rfl⟩
        | _ =>
          -- it would be passed on to the end of the body
          obtain ⟨⟨goal, hgoal, hfits⟩, _⟩ := (h.next (Machine.step_give hc hs)).fits
          cases (hfits.meets hgoal rfl).space _ _ _ rfl
      | _ => cases ht
    · exact .inr hf

/-- A body that does not fail runs to its end. -/
theorem runs_of_ends {f : List Stmt} (hs : m.stack = b.below n waiting)
    (hm : Reached libraries maxDepth (.running (b.go m v f)))
    (h : Ends waiting r k (b.go m v f)) : (∃ g, r = .fault g) ∨
      ∃ e, b.Runs (b.below n waiting) (b.go m v f) f e ∧ Ends waiting r k e := by
  induction f generalizing m v with
  | nil => exact .inr ⟨_, .done hs rfl, h⟩
  | cons s todo ih =>
    have hstack : (b.go m v (s :: todo)).stack = .flow (b.frame v todo) :: b.below n waiting := by
      rw [← hs]
      rfl
    have hlt := b.length_below n waiting
    obtain ⟨r', e, hfirst, hrest⟩ := h.first List.suffix_rfl (by
      rw [hstack, List.length_cons]
      omega)
    obtain ⟨hes, hec⟩ := hfirst.gives
    rw [hstack] at hes
    rcases normal_or_fault (hfirst.reached hm) hes hec with ⟨w, rfl⟩ | ⟨g, rfl⟩
    · have hstep := step_normal hec hes
      have hne : e.stack ≠ waiting := fun he => by
        have hlength := congrArg List.length (hes.symm.trans he)
        rw [List.length_cons] at hlength
        omega
      rcases ih rfl ((hfirst.reached hm).next hstep) (hrest.of_next (fun hg => hne hg.1) hstep) with
        hfault | ⟨e', hruns, hend⟩
      · exact .inl hfault
      · exact .inr ⟨e', .statement hstack rfl hfirst hstep hruns, hend⟩
    · exact .inl (hrest.fault hec)

theorem go_store (b : Body) (m : Machine) (v : Value) (todo : List Stmt) :
    (b.go m v todo).store = m.store ∧ (b.go m v todo).scope = m.scope := by
  cases todo <;> exact ⟨rfl, rfl⟩

/-- When a body is at its end, all names that it declares are bound in its scope. -/
theorem Runs.hosts {f : List Stmt} (h : b.Runs below m f k)
    (hm : Reached libraries maxDepth (.running m)) (hh : m.store.Hosts m.scope .module names) :
    Reached libraries maxDepth (.running k) ∧ k.stack = below ∧
      (∃ v, k.control = .give (b.last v)) ∧ k.scope = m.scope ∧
      k.store.Hosts m.scope .module ((f.flatMap Stmt.declared).map (·.1) ++ names) := by
  induction h generalizing names with
  | done hs hc => exact ⟨hm, hs, ⟨_, hc⟩, rfl, hh⟩
  | @statement m n n' k s todo v w hs hc he hstep _ ih =>
    obtain ⟨hscope, hbound⟩ := he.declares hm hc (by decide) hh
    obtain ⟨hns, hnc⟩ := he.gives
    rw [hs] at hns
    have hnext : b.go { n with stack := below } w todo = n' :=
      Step.next.inj ((step_normal hnc hns).symm.trans hstep)
    obtain ⟨hstore, hscope'⟩ : n'.store = n.store ∧ n'.scope = m.scope := by
      rw [← hnext, ← hscope]
      exact b.go_store _ w todo
    obtain ⟨hk, hks, hkc, hkscope, hall⟩ := ih ((he.reached hm).next hstep)
      (by rw [hstore, hscope']; exact hbound)
    rw [hscope'] at hkscope hall
    refine ⟨hk, hks, hkc, hkscope, ?_⟩
    refine hall.mono fun name hname => ?_
    simp only [List.flatMap_cons, List.map_append, List.mem_append] at hname ⊢
    tauto

/-- A result goes to the frame on top before it comes to those that wait below. -/
theorem ends_iff_resume {f : Frame} {stack : List Frame} {g : Result} (hc : k.control = .give g)
    (hs : k.stack = f :: stack) (hle : waiting.length ≤ stack.length) :
    Ends waiting r n k ↔ Ends waiting r n ({ k with stack := stack }.resume g f) := by
  have hgo : ¬ k.Gives waiting := by
    rintro ⟨hg, _⟩
    have hlength := congrArg List.length (hs.symm.trans hg)
    rw [List.length_cons] at hlength
    omega
  have hstep := Machine.step_give hc hs
  exact ⟨(·.of_next hgo hstep), .next hgo hstep⟩

theorem ends_iff_eq {g : Result} (hs : k.stack = waiting) (hc : k.control = .give g) :
    Ends waiting r n k ↔ n = k ∧ r = g := by
  refine ⟨fun h => h.eq_of_gives hs hc, ?_⟩
  rintro ⟨rfl, rfl⟩
  exact .here hs hc

/-- A namespace that is given out of a scope is the same when the scope is left. -/
theorem exports_leave {space : Ref} {name : String} {bindings : Table Binding} {symbols : List Ref}
    (h : k.store.Exports space name bindings names symbols) (hk : k.reclaims = true)
    (hf : k.store.Filed) (hc : k.control = .give (.value (.namespaceRef space))) (r : Result)
    (previous : ScopeId) :
    (k.leave r (.scope previous)).store.Exports space name bindings names symbols := by
  have hheld : space ∈ k.held := by
    simp [Machine.held, hc, Control.refs, Result.refs, Value.refs, Value.ref?]
  rw [Machine.leave, if_pos hk]
  exact h.release hf hheld k.scope

/-- What is given at the end of a body is the namespace that is made from its scope. -/
theorem resume_finish (b : Body) (k : Machine) (v : Value) : k.resume (b.last v) b.finish =
    { k with
      store := (k.store.makeSpace k.scope b.name b.statements).2
      control := .give (.value (k.store.makeSpace k.scope b.name b.statements).1) } := by
  cases b <;> rfl

/-- A body that is at its end gives the namespace of its names, and nothing else can happen. -/
theorem ends_of_last (hk : Reached libraries maxDepth (.running k))
    (hs : k.stack = b.below m waiting) (hc : k.control = .give (b.last v))
    (hbound : ∀ id ∈ exportedNames b.statements, (k.store.scope k.scope).bindings.has id = true) :
    ∃ n space symbols, n.store.Exports space b.name (k.store.scope k.scope).bindings
        (exportedNames b.statements) symbols ∧
      ∀ r n', Ends waiting r n' k ↔ n' = n ∧ r = .value (.namespaceRef space) := by
  obtain ⟨_, _, _, ht⟩ := hk.inStep
  have hnumbered : Numbered k.store := ht.tracks.orderly.leases.numbered
  have hlt : k.scope < k.store.scopes.size :=
    (ht.tracks.orderly.places.lt_of_open ht.scope_open).1
  obtain ⟨space, symbols, hvalue, hexports⟩ := makeSpace_exports hnumbered hlt hbound b.name
  let made : Machine := { k with
    store := (k.store.makeSpace k.scope b.name b.statements).2
    control := .give (.value (.namespaceRef space))
    stack := .exit (.scope m.scope) :: b.exits waiting }
  have hmade : { k with stack := .exit (.scope m.scope) :: b.exits waiting }.resume (b.last v)
      b.finish = made := by
    rw [resume_finish, hvalue]
  have hstep : k.step = .next made := (Machine.step_give hc hs).trans (congrArg Step.next hmade)
  obtain ⟨left, hleft⟩ : ∃ left, { made with stack := b.exits waiting }.leave
    (.value (.namespaceRef space)) (.scope m.scope) = left := ⟨_, rfl⟩
  have hexports : left.store.Exports space b.name (k.store.scope k.scope).bindings
      (exportedNames b.statements) symbols := by
    rw [← hleft]
    exact exports_leave (k := { made with stack := b.exits waiting }) hexports hk.reclaims
      (hk.next hstep).filed rfl (.value (.namespaceRef space)) m.scope
  have hcontrol : left.control = .give (.value (.namespaceRef space)) := by
    rw [← hleft]
    exact (apply_ite Machine.control _ _ _).trans (ite_self _)
  have hstack : left.stack = b.exits waiting := by
    rw [← hleft, Machine.leave_stack]
  have hle := b.length_exits waiting
  have hends : ∀ r n', Ends waiting r n' k ↔ Ends waiting r n' left := by
    intro r n'
    rw [ends_iff_resume hc hs (Nat.le_succ_of_le hle), hmade,
      ends_iff_resume (k := made) rfl rfl hle]
    exact hleft ▸ Iff.rfl
  cases b with
  | space d =>
    refine ⟨left, space, symbols, hexports, fun r n' => (hends r n').trans ?_⟩
    exact ends_iff_eq hstack hcontrol
  | file path program =>
    refine ⟨{ left with stack := waiting }.leave (.value (.namespaceRef space)) (.module path),
      space, symbols, hexports, fun r n' => (hends r n').trans ?_⟩
    rw [ends_iff_resume hcontrol hstack (Nat.le_refl _)]
    exact ends_iff_eq (Machine.leave_stack _ _ _) hcontrol

theorem suffix_go (b : Body) (m : Machine) (v : Value) (todo : List Stmt) :
    m.stack <:+ (b.go m v todo).stack := by
  cases todo with
  | nil => exact List.suffix_rfl
  | cons s todo => exact List.suffix_cons _ _

theorem Starts.suffix (h : b.Starts m waiting start) : waiting <:+ start.stack := by
  obtain ⟨entered, rfl, hstack, _⟩ := h.eq_go
  have hwaiting : waiting <:+ b.below m waiting := by
    cases b with
    | space d => exact ⟨[_, _], rfl⟩
    | file path program => exact ⟨[_, _, _], rfl⟩
  exact (hstack ▸ hwaiting).trans (b.suffix_go entered .nil b.statements)

/-- The scope of a body is a new one. -/
theorem Starts.fresh (h : b.Starts m waiting start) (hm : m.store.Filed) :
    start.store.Filed ∧ m.store.isOpen start.scope = false ∧
      start.store.isOpen start.scope = true ∧
      ∃ parent lease, start.store.scope start.scope = .fresh (some parent) .module lease := by
  obtain ⟨entered, rfl, _, parent, hscope, hstore⟩ := h.eq_go
  obtain ⟨hstore', hscope'⟩ := b.go_store entered .nil b.statements
  rw [hscope', hscope, hstore', hstore]
  obtain ⟨hf, hclosed, hopened, _⟩ := hm.push parent .module
  have hpush := pushes_push m.store parent .module fun i hi =>
    hm.lt_size i (List.mem_append_right _ hi)
  exact ⟨hf, hclosed, hopened, parent, m.store.next, (hpush.scope _).trans (if_pos rfl)⟩

/-- A body that ran to its end gives the namespace of its names. -/
theorem Runs.exports (h : b.Runs (b.below m waiting) start b.statements k)
    (hr : Reached libraries maxDepth (.running start))
    (hh : start.store.Hosts start.scope .module []) :
    k.scope = start.scope ∧ ∃ n space symbols,
      n.store.Exports space b.name (k.store.scope start.scope).bindings
        (exportedNames b.statements) symbols ∧
      ∀ r n', Ends waiting r n' k ↔ n' = n ∧ r = .value (.namespaceRef space) := by
  obtain ⟨hk, hks, ⟨v, hkc⟩, hscope, hall⟩ := h.hosts hr hh
  refine ⟨hscope, ?_⟩
  rw [← hscope] at hall ⊢
  refine ends_of_last hk hks hkc fun id hid => hall.bound id ?_
  rw [List.append_nil]
  exact mem_declared_of_exportedNames hid

end Body

/-- A body runs in a new scope of its own. If all its statements end normally, it gives a namespace
    with the names that it exports, each with the value and the constancy that it is bound with in
    that scope when the body is at its end. In no other way does it end, except with a fault. -/
theorem Reached.exports_are_exact {libraries : List Library} {maxDepth : Nat} {m start : Machine}
    {b : Body} {waiting : List Frame} (h : Reached libraries maxDepth (.running m))
    (hs : b.Starts m waiting start) :
    (m.store.isOpen start.scope = false ∧
      ∃ parent lease, start.store.scope start.scope = .fresh (some parent) .module lease) ∧
    (∀ k, b.Runs (b.below m waiting) start b.statements k → k.scope = start.scope ∧
      ∃ n space symbols names, Ends waiting (.value (.namespaceRef space)) n k ∧
        Exported b.statements names ∧
        n.store.Exports space b.name (k.store.scope start.scope).bindings names symbols) ∧
    ∀ r n, Ends waiting r n start → (∃ f, r = .fault f) ∨
      ∃ k space symbols names, b.Runs (b.below m waiting) start b.statements k ∧
        r = .value (.namespaceRef space) ∧ Exported b.statements names ∧
        n.store.Exports space b.name (k.store.scope start.scope).bindings names symbols := by
  obtain ⟨hfiled, hnew, hopened, parent, lease, hfresh⟩ := hs.fresh h.filed
  have hhosts : start.store.Hosts start.scope .module [] :=
    ⟨hfiled, hopened, by rw [hfresh]; rfl, by simp⟩
  have hstart := hs.reached h
  have hnames := exported_iff.2 (Eq.refl (exportedNames b.statements))
  refine ⟨⟨hnew, parent, lease, hfresh⟩, fun k hruns => ?_, fun r n hends => ?_⟩
  · obtain ⟨hscope, n, space, symbols, hexports, hiff⟩ := hruns.exports hstart hhosts
    exact ⟨hscope, n, space, symbols, _, (hiff _ _).2 ⟨rfl, rfl⟩, hnames, hexports⟩
  · obtain ⟨entered, heq, hstack, _⟩ := hs.eq_go
    have hran : (∃ f, r = .fault f) ∨ ∃ k, b.Runs (b.below m waiting) start b.statements k ∧
        Ends waiting r n k := by
      rw [heq] at hstart hends ⊢
      exact Body.runs_of_ends hstack hstart hends
    refine hran.imp id ?_
    rintro ⟨k, hruns, hend⟩
    obtain ⟨_, n', space, symbols, hexports, hiff⟩ := hruns.exports hstart hhosts
    obtain ⟨rfl, rfl⟩ := (hiff _ _).1 hend
    exact ⟨k, space, symbols, _, hruns, rfl, hnames, hexports⟩

/-! ## A file that marks some of its names -/

def markedSource : String := "let c = nil; export let [b, a] = [c, c]; export func b() nil;"

/-- The file is read, and its program comes to its end. -/
theorem exists_marked_file : ∃ m program start r n, Reached [] 4 (.running m) ∧
    (Body.file "/b" program).Starts m m.stack start ∧ Ends m.stack r n start ∧
    (∀ f, r ≠ .fault f) ∧ exportedNames program = ["b", "a"] := by
  have hrun : ((Interpreter.create [] 4).toOption.any fun i =>
      (i.startSession [] "import('b');" "a").toOption.any fun m =>
      (m.answered (Request.among [("/b", markedSource)]) 5).any fun m =>
        (match m.control with
        | .load path _ => path == "/b"
        | _ => false) && !m.stack.isEmpty &&
        (parseSource markedSource "/b").toOption.any fun p => exportedNames p == ["b", "a"] &&
        ((m.enterModule "/b" markedSource).after 20).any fun n =>
          n.stack.isEmpty && n.control.given?.any (·.fault?.isNone)) = true := by
    decide +kernel
  obtain ⟨i, hi, hrun⟩ := exists_ok_of_any hrun
  obtain ⟨m, hm, hrun⟩ := exists_ok_of_any hrun
  obtain ⟨m', hm', hrun⟩ := (Option.any_eq_true _ _).1 hrun
  rw [Bool.and_eq_true, Bool.and_eq_true] at hrun
  obtain ⟨⟨hload, hwaiting⟩, hrun⟩ := hrun
  obtain ⟨program, hp, hrun⟩ := exists_ok_of_any hrun
  simp only [Bool.and_eq_true, beq_iff_eq, Option.any_eq_true, List.isEmpty_iff,
    Control.given?_eq_some] at hrun
  obtain ⟨hnames, n, hn, hstack, _, hgive, hvalue⟩ := hrun
  obtain ⟨pos, hc⟩ : ∃ pos, m'.control = .load "/b" pos := by
    split at hload
    next hc =>
      cases beq_iff_eq.1 hload
      exact ⟨_, hc⟩
    next => cases hload
  have hstarts := Body.Starts.file hc hp
  have hends := Ends.of_after hn hstack hgive
  obtain ⟨r, k, hfirst, hrest⟩ := hends.first hstarts.suffix
    (List.length_pos_of_ne_nil (by simpa using hwaiting))
  refine ⟨m', program, _, r, k, ((Reached.create hi).session hm).answered hm', hstarts,
    hfirst, ?_, hnames⟩
  rintro f rfl
  obtain ⟨g, rfl⟩ := hrest.fault hfirst.gives.2
  cases hvalue

/-- The file declares three names and exports two, the first one twice. Its namespace has the two,
    once each, with what they are bound to at the end of the file. -/
theorem a_file_exports_its_marked_names : ∃ m program start k n space x y b a,
    Reached [] 4 (.running m) ∧ (Body.file "/b" program).Starts m m.stack start ∧
    (Body.file "/b" program).Runs ((Body.file "/b" program).below m m.stack) start program k ∧
    Ends m.stack (.value (.namespaceRef space)) n start ∧
    n.store.cell? space = some (.namespaceDef "b" [x, y]) ∧
    (k.store.scope start.scope).bindings.get? "b" = some b ∧
    n.store.cell? x = some (.symbol "b" b.value b.constant) ∧
    (k.store.scope start.scope).bindings.get? "a" = some a ∧
    n.store.cell? y = some (.symbol "a" a.value a.constant) := by
  obtain ⟨m, program, start, r, n, hm, hs, hends, hr, hprogram⟩ := exists_marked_file
  obtain ⟨k, space, symbols, names, hruns, rfl, hnames, hexports⟩ :=
    ((hm.exports_are_exact hs).2.2 r n hends).resolve_left fun ⟨f, hf⟩ => hr f hf
  have hnames : names = ["b", "a"] := (exported_iff.1 hnames).trans hprogram
  obtain ⟨hspace, hsymbols⟩ := hexports
  rw [hnames] at hsymbols
  obtain ⟨x, rest, ⟨b, hb, hx⟩, hrest, rfl⟩ := List.forall₂_cons_right_iff.1 hsymbols
  obtain ⟨y, rest, ⟨a, ha, hy⟩, hlast, rfl⟩ := List.forall₂_cons_right_iff.1 hrest
  cases List.forall₂_nil_right_iff.1 hlast
  have hstem : Path.stem "/b" = "b" := by decide
  exact ⟨m, program, start, k, n, space, x, y, b, a, hm, hs, hruns, hends, hstem ▸ hspace, hb, hx,
    ha, hy⟩

end TinyScript

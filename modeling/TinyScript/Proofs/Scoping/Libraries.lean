/-
  TinyScript.Proofs.Scoping.Libraries — which libraries a host can add, and how scripts get at them.

  Libraries are added one after the other, each under a global name. One is refused if its name does
  not read as a single name or is taken, by a built-in or by a library before it; the first one that
  is refused is reported (`Free`). A library that was added is what its name means wherever a script
  does not bind that name itself. Names are taken as they stand, with the blanks around them, and
  then no script can write them.
-/

import TinyScript.Proofs.Property.Typing
import TinyScript.Proofs.Scoping.GlobalScope
import TinyScript.Proofs.Store.Resolving
import TinyScript.Proofs.Token.Names

namespace TinyScript

open Store TinyScript.Text

/-! ## A name as a program -/

namespace Grammar

variable {below inner : Below} {c : Context} {name : String} {p q : Position}

theorem unaryBody_name : unaryBody below c [⟨.name name, p⟩, ⟨.eof, q⟩] =
    .ok (.name p name, [⟨.eof, q⟩]) := by
  have hspace : startsNamespace [⟨.name name, p⟩, ⟨.eof, q⟩] = false := by
    simp [startsNamespace, startsWithMark, startsWith, startsWithName, isKind]
  simp only [unaryBody, prefixOp?, power, call, primary, hspace]
  rfl

theorem assignmentBody_name (hu : below.unary = unaryBody inner) :
    assignmentBody below c [⟨.name name, p⟩, ⟨.eof, q⟩] = .ok (.name p name, [⟨.eof, q⟩]) := by
  simp only [assignmentBody, binaryExpr, operatorLevels, List.foldr_cons, List.foldr_nil,
    binaryLevel, hu, unaryBody_name]
  rfl

theorem statementBody_name (ha : below.assignment = assignmentBody inner) {innermost : Below}
    (hu : inner.unary = unaryBody innermost) :
    statementBody below c [⟨.name name, p⟩, ⟨.eof, q⟩] =
      .ok (.expr p (.name p name), [⟨.eof, q⟩]) := by
  have hd : declaration? below false p (c.within .statement) [⟨.name name, p⟩, ⟨.eof, q⟩] =
      .ok none := rfl
  simp only [statementBody, hd, expression, ha, assignmentBody_name hu]
  rfl

theorem program_name :
    program [⟨.name name, p⟩, ⟨.eof, q⟩] = .ok [.expr p (.name p name)] := by
  have hs : ∀ c, (withLevels maxNesting).statement c [⟨.name name, p⟩, ⟨.eof, q⟩] =
      .ok (.expr p (.name p name), [⟨.eof, q⟩]) :=
    fun c => statementBody_name
      (show (withLevels 511).assignment = assignmentBody (withLevels 510) from rfl) rfl
  have hskip : skipSemicolons [⟨.name name, p⟩, ⟨.eof, q⟩] = [⟨.name name, p⟩, ⟨.eof, q⟩] := rfl
  have hstart : startsWith .eof [⟨.name name, p⟩, ⟨.eof, q⟩] = false := rfl
  simp only [program, hskip]
  rw [programStatements]
  simp only [hstart, hs]
  rfl

end Grammar

theorem Token.Frames.parseSource {text name file : String} {before after : List Char}
    (h : Token.Frames text name before after) : TinyScript.parseSource text file =
      .ok [.expr (Token.placeAfter file before) (.name (Token.placeAfter file before) name)] := by
  simp only [TinyScript.parseSource, h.tokenize, Grammar.program_name]

/-! ## Adding libraries -/

def builtinNames : List String :=
  ["print", "input", "typeof", "str", "len", "range", "number", "string", "boolean", "array",
    "object", "function", "type", "symbol", "any"]

/-- The libraries can all be added where the names are taken. -/
structure Free (taken : List String) (libraries : List Library) : Prop where
  framed : ∀ l ∈ libraries, Token.IsFramed l.name
  untaken : ∀ l ∈ libraries, l.name ∉ taken
  nodup : (libraries.map (·.name)).Nodup

theorem Free.nil (taken : List String) : Free taken [] :=
  ⟨by simp, by simp, by simp⟩

theorem free_cons {taken : List String} {l : Library} {libraries : List Library} :
    Free taken (l :: libraries) ↔
      Token.IsFramed l.name ∧ l.name ∉ taken ∧ Free (l.name :: taken) libraries := by
  constructor
  · rintro ⟨hf, hu, hn⟩
    rw [List.map_cons, List.nodup_cons, List.mem_map] at hn
    refine ⟨hf l (by simp), hu l (by simp), fun k hk => hf k (by simp [hk]), fun k hk => ?_, hn.2⟩
    rw [List.mem_cons, not_or]
    exact ⟨fun he => hn.1 ⟨k, hk, he⟩, hu k (by simp [hk])⟩
  · rintro ⟨hf, hu, hl⟩
    refine ⟨List.forall_mem_cons.2 ⟨hf, hl.framed⟩, List.forall_mem_cons.2 ⟨hu, fun k hk => ?_⟩, ?_⟩
    · exact fun hmem => hl.untaken k hk (by simp [hmem])
    · rw [List.map_cons, List.nodup_cons, List.mem_map]
      refine ⟨?_, hl.nodup⟩
      rintro ⟨k, hk, he⟩
      exact hl.untaken k hk (by simp [he])

inductive Refused (taken : List String) (l : Library) : LibraryError → Prop
  | invalid : ¬ Token.IsFramed l.name → Refused taken l (.invalidName l.name)
  | duplicate : Token.IsFramed l.name → l.name ∈ taken → Refused taken l (.duplicateName l.name)

/-- Either all libraries can be added, or there is a first one that cannot. -/
theorem free_or_refused (taken : List String) (libraries : List Library) :
    Free taken libraries ∨ ∃ before l after e, libraries = before ++ l :: after ∧
      Free taken before ∧ Refused (before.map (·.name) ++ taken) l e := by
  induction libraries generalizing taken with
  | nil => exact .inl (.nil taken)
  | cons l libraries ih =>
    by_cases hf : Token.IsFramed l.name
    · by_cases hu : l.name ∈ taken
      · exact .inr ⟨[], l, libraries, _, rfl, .nil taken, .duplicate hf hu⟩
      · rcases ih (l.name :: taken) with hfree | ⟨before, k, after, e, rfl, hfree, hr⟩
        · exact .inl (free_cons.2 ⟨hf, hu, hfree⟩)
        · refine .inr ⟨l :: before, k, after, e, rfl, free_cons.2 ⟨hf, hu, hfree⟩, ?_⟩
          cases hr with
          | invalid h => exact .invalid h
          | duplicate h hmem =>
            refine .duplicate h ?_
            simp only [List.map_cons, List.cons_append, List.mem_cons, List.mem_append] at hmem ⊢
            tauto
    · exact .inr ⟨[], l, libraries, _, rfl, .nil taken, .invalid hf⟩

namespace Store

variable {objectClass : Ref} {s t : Store} {keeps : Value} {taken : List String} {l : Library}
  {libraries : List Library}

def Taken (s : Store) (taken : List String) : Prop :=
  ∀ name, (s.scope Store.global).bindings.has name = true ↔ name ∈ taken

structure Offers (s : Store) (objectClass : Ref) (l : Library) (r : Ref) (fields : Table Value) :
    Prop where
  bound : (s.scope Store.global).bindings.get? l.name = some ⟨.object r, true⟩
  object : s.cell? r = some (.object objectClass fields)
  members : ∀ key, fields.has key = true ↔ key ∈ l.members.map (·.1)

/-- What the first store has stays: its cells, and its global names with what they stand for. -/
structure Preserves (s t : Store) : Prop where
  cell : ∀ r c, s.cell? r = some c → t.cell? r = some c
  bound : ∀ name b, (s.scope Store.global).bindings.get? name = some b →
    (t.scope Store.global).bindings.get? name = some b

theorem Preserves.refl (s : Store) : Preserves s s := ⟨fun _ _ h => h, fun _ _ h => h⟩

theorem Preserves.trans {u : Store} (h : Preserves s t) (k : Preserves t u) : Preserves s u :=
  ⟨fun r c hr => k.cell r c (h.cell r c hr), fun name b hb => k.bound name b (h.bound name b hb)⟩

theorem Preserves.offers {r : Ref} {fields : Table Value} (h : Preserves s t)
    (ho : s.Offers objectClass l r fields) : t.Offers objectClass l r fields :=
  ⟨h.bound _ _ ho.bound, h.cell _ _ ho.object, ho.members⟩

theorem preserves_alloc (h : Numbered s) (c : Cell) : Preserves s (s.alloc c).2 :=
  ⟨fun _ _ hd => h.alloc_keeps c hd, fun _ _ hb => hb⟩

theorem Grows.preserves {control : Control} (h : Grows control objectClass s t) (hs : Numbered s) :
    Numbered t ∧ Preserves s t ∧ t.scopes = s.scopes := by
  induction h with
  | refl => exact ⟨hs, .refl s, rfl⟩
  | @make t c _ _ ih => exact ⟨ih.1.alloc c, ih.2.1.trans (preserves_alloc ih.1 c), ih.2.2⟩

theorem has_provideAll (members : List (String × Provided)) (fields : Table Value) (key : String) :
    (s.provideAll objectClass keeps members fields).1.has key = true ↔
      key ∈ members.map (·.1) ∨ fields.has key = true := by
  induction members generalizing s fields with
  | nil => simp [provideAll]
  | cons e members ih =>
    obtain ⟨name, p⟩ := e
    rw [provideAll, ih]
    simp only [Table.has, Table.put, Std.TreeMap.contains_insert, List.map_cons, List.mem_cons]
    grind

namespace Built

variable (h : Built objectClass s)
include h

theorem binding?_global (name : String) :
    s.binding? Store.global name = (s.scope Store.global).bindings.get? name := by
  obtain ⟨_, hparent, hlt⟩ := h.constants
  have hchain : s.chain Store.global = [Store.global] :=
    (Chain.top (hparent _)).chainFrom_eq hlt
  simp [binding?, hchain]

theorem addLibrary_of_refused (ht : s.Taken taken) {e : LibraryError} (hr : Refused taken l e) :
    s.addLibrary objectClass keeps l = .error e := by
  unfold Store.addLibrary
  cases hr with
  | invalid hf =>
    rw [← Token.isName_iff, Bool.not_eq_true] at hf
    simp [hf]
  | duplicate hf hmem =>
    rw [← Token.isName_iff] at hf
    rw [← ht, Table.has_eq, ← h.binding?_global] at hmem
    simp [hf, hmem]

/-- A library that is added takes its name and changes nothing else. -/
theorem addLibrary_of_free (ht : s.Taken taken) (hf : Token.IsFramed l.name) (hl : l.name ∉ taken) :
    ∃ t r fields, s.addLibrary objectClass keeps l = .ok t ∧ Preserves s t ∧
      t.Taken (l.name :: taken) ∧ t.Offers objectClass l r fields := by
  have hname := Token.isName_iff.2 hf
  have hunbound : (s.scope Store.global).bindings.get? l.name = none := by
    rw [← ht, Table.has_eq, Bool.not_eq_true, Option.isSome_eq_false_iff, Option.isNone_iff_eq_none]
      at hl
    exact hl
  have hfree : (s.binding? Store.global l.name).isSome = false := by
    rw [h.binding?_global, hunbound]
    rfl
  -- the members are made first, then their object, and then it is bound
  obtain ⟨fields, u, hu⟩ : ∃ fields u,
    s.provideAll objectClass keeps l.members ∅ = (fields, u) := ⟨_, _, rfl⟩
  have hgrows : Grows (.give (.value .nil)) objectClass s
      (s.provideAll objectClass keeps l.members ∅).2 := Grows.refl.provideAll keeps l.members ∅
  rw [hu] at hgrows
  have hmade := hgrows.make (.literal fields)
  obtain ⟨hnumbered, hkeeps, hscopes⟩ := hmade.preserves h.typed.1
  have hscope : ((u.alloc (.object objectClass fields)).2.scope Store.global).bindings =
      (s.scope Store.global).bindings := by
    rw [Store.scope, hscopes]
    rfl
  have hsets := sets_bind l.name ⟨.object u.next, true⟩ (h.grows hmade).constants.2.2
  refine ⟨(u.alloc (.object objectClass fields)).2.bindGlobal l.name (.object u.next), u.next,
    fields, ?_, ⟨fun r c hr => ?_, fun name b hb => ?_⟩, fun name => ?_, hsets.bound,
    ?_, fun key => ?_⟩
  · simp [Store.addLibrary, hname, hfree, hu, newObject]
  · rw [bindGlobal, Store.cell?, hsets.cells]
    exact hkeeps.cell r c hr
  · have hne : name ≠ l.name := by
      rintro rfl
      simp [hunbound] at hb
    rw [bindGlobal, hsets.others _ _ (.inr hne)]
    exact hkeeps.bound name b hb
  · rw [bindGlobal, Table.has_eq]
    by_cases hn : name = l.name
    · rw [hn, hsets.bound]
      simp
    · rw [hsets.others _ _ (.inr hn), hscope, ← Table.has_eq, ht, List.mem_cons]
      simp [hn]
  · rw [bindGlobal, Store.cell?, hsets.cells]
    exact (cell?_alloc u _ u.next).trans (if_pos rfl)
  · rw [← show (s.provideAll objectClass keeps l.members ∅).1 = fields by rw [hu], has_provideAll]
    simp [Table.has]

theorem taken_bindGlobal (ht : s.Taken taken) (name : String) (v : Value) :
    (s.bindGlobal name v).Taken (name :: taken) := by
  intro other
  have hsets := sets_bind name ⟨v, true⟩ h.constants.2.2
  rw [bindGlobal, Table.has_eq]
  by_cases hn : other = name
  · rw [hn, hsets.bound]
    simp
  · rw [hsets.others _ _ (.inr hn), ← Table.has_eq, ht, List.mem_cons]
    simp [hn]

end Built

/-- Names are taken one after the other. -/
theorem Taken.foldl {α : Type} (f : Store → α → Store) (label : α → String)
    (hf : ∀ s a taken, Built objectClass s → s.Taken taken →
      Built objectClass (f s a) ∧ (f s a).Taken (label a :: taken)) (as : List α)
    (h : Built objectClass s) (ht : s.Taken taken) :
    Built objectClass (as.foldl f s) ∧ (as.foldl f s).Taken (as.map label ++ taken) := by
  induction as generalizing s taken with
  | nil => exact ⟨h, ht⟩
  | cons a as ih =>
    obtain ⟨hb, ha⟩ := hf s a taken h ht
    obtain ⟨hbuilt, hall⟩ := ih hb ha
    refine ⟨hbuilt, fun name => (hall name).trans ?_⟩
    simp only [List.map_cons, List.cons_append, List.mem_append, List.mem_cons]
    tauto

theorem Taken.newArray (h : s.Taken taken) (items : Array Value) :
    (s.newArray items).2.Taken taken :=
  h

theorem taken_addBuiltins :
    (Store.empty.alloc (.classDef .plain)).2.addBuiltins.Taken builtinNames := by
  have hplain := Built.plain rfl
  have hnone : (Store.empty.alloc (.classDef .plain)).2.Taken [] := by
    intro name
    rw [show ((Store.empty.alloc (.classDef .plain)).2.scope Store.global).bindings = ∅ from rfl]
    simp [Table.has]
  obtain ⟨hnatives, htaken⟩ := Taken.foldl addNative Native.name
    (fun s n taken h ht => ⟨.bind _ _ (h.make (.native n)),
      (h.make (.native n)).taken_bindGlobal ht _ _⟩)
    [.print, .input, .typeof, .str, .len, .range] hplain hnone
  obtain ⟨_, htaken⟩ := Taken.foldl
    (fun s t => s.bindGlobal t.name (.type (.builtin t))) BuiltinType.name
    (fun s b taken h ht => ⟨.bind _ _ h, h.taken_bindGlobal ht _ _⟩)
    (BuiltinType.all.filter (· ≠ .nil)) hnatives htaken
  refine fun name => (htaken name).trans (List.Perm.mem_iff ?_)
  decide

/-- Libraries that can all be added are added, one after the other. -/
theorem Built.addLibraries_of_free (h : Built objectClass s) (keeps : Value) (ht : s.Taken taken)
    (hfree : Free taken libraries) :
    ∃ t, libraries.foldlM (fun s l => s.addLibrary objectClass keeps l) s = .ok t ∧ Preserves s t ∧
      t.Taken (libraries.map (·.name) ++ taken) ∧
      ∀ l ∈ libraries, ∃ r fields, t.Offers objectClass l r fields := by
  induction libraries generalizing s taken with
  | nil => exact ⟨s, rfl, .refl s, ht, by simp⟩
  | cons l libraries ih =>
    obtain ⟨hf, hl, hrest⟩ := free_cons.1 hfree
    obtain ⟨u, r, fields, hu, hkeeps, htaken, hoffers⟩ := h.addLibrary_of_free ht hf hl
    obtain ⟨t, hadd, hkeeps', htaken', hall⟩ := ih (h.addLibrary hu) htaken hrest
    refine ⟨t, ?_, hkeeps.trans hkeeps', fun name => (htaken' name).trans ?_, ?_⟩
    · rw [List.foldlM_cons, hu]
      exact hadd
    · simp only [List.map_cons, List.cons_append, List.mem_append, List.mem_cons]
      tauto
    · exact List.forall_mem_cons.2 ⟨⟨r, fields, hkeeps'.offers hoffers⟩, hall⟩

/-- The first library that is refused is reported. -/
theorem Built.addLibraries_of_refused (h : Built objectClass s) (keeps : Value)
    (ht : s.Taken taken) (hfree : Free taken libraries) {e : LibraryError}
    (hr : Refused (libraries.map (·.name) ++ taken) l e) (after : List Library) :
    (libraries ++ l :: after).foldlM (fun s l => s.addLibrary objectClass keeps l) s =
      .error e := by
  obtain ⟨t, hadd, _, htaken, _⟩ := h.addLibraries_of_free keeps ht hfree
  rw [List.foldlM_append, hadd]
  show (l :: after).foldlM (fun s l => s.addLibrary objectClass keeps l) t = .error e
  rw [List.foldlM_cons, (h.addLibraries hadd).addLibrary_of_refused htaken hr]
  rfl

end Store

namespace Interpreter

variable {libraries before after : List Library} {l : Library} {maxDepth : Nat} {i : Interpreter}
  {r : Ref} {fields : Table Value} {name : String} {b : Binding} {m : Machine} {e : LibraryError}

theorem create_of_free (hfree : Free builtinNames libraries) (maxDepth : Nat) :
    ∃ i, create libraries maxDepth = .ok i ∧
      ∀ l ∈ libraries, ∃ r fields, i.store.Offers i.objectClass l r fields := by
  have hbuilt := Built.first
  have htaken := taken_addBuiltins.newArray #[]
  simp only [create]
  generalize (Store.empty.alloc (.classDef .plain)).2.addBuiltins.newArray #[] = x at *
  obtain ⟨t, hadd, _, _, hall⟩ := hbuilt.addLibraries_of_free x.1 htaken hfree
  refine ⟨⟨t, ∅, none, _, maxDepth, true⟩, ?_, hall⟩
  rw [hadd]
  rfl

theorem create_of_refused (hfree : Free builtinNames before)
    (hr : Refused (before.map (·.name) ++ builtinNames) l e) (after : List Library)
    (maxDepth : Nat) :
    create (before ++ l :: after) maxDepth = .error e := by
  have hbuilt := Built.first
  have htaken := taken_addBuiltins.newArray #[]
  simp only [create]
  generalize (Store.empty.alloc (.classDef .plain)).2.addBuiltins.newArray #[] = x at *
  rw [hbuilt.addLibraries_of_refused x.1 htaken hfree hr after]
  rfl

end Interpreter

/-! ## Reading a library -/

section Reading

variable {libraries : List Library} {maxDepth : Nat} {i : Interpreter} {name : String} {b : Binding}
  {m : Machine} {pos : Position}

/-- Where no scope of the script binds a global name, it means what the host bound to it. -/
theorem Reached.binding?_global (hi : Interpreter.create libraries maxDepth = .ok i)
    (hb : (i.store.scope Store.global).bindings.get? name = some b)
    (hm : Reached libraries maxDepth (.running m))
    (hno : ∀ k ∈ m.store.chain m.scope, k ≠ Store.global →
      (m.store.scope k).bindings.has name = false) :
    m.store.binding? m.scope name = some b := by
  obtain ⟨n, hn, hsealed⟩ := Reached.sealed hi hm
  have hglobal : (m.store.scope Store.global).bindings.get? name = some b := by
    have hstore : n.store = m.store := congrArg Interpreter.store hn.toInterpreter
    rw [← hstore, hsealed.store.bindings, hb]
  obtain ⟨_, _, hstep⟩ := hm.inStep
  have hlast := List.mem_of_getLast? hstep.intact.current.last
  unfold Store.binding?
  cases hfound : (m.store.chain m.scope).findSome? fun k =>
    (m.store.scope k).bindings.get? name with
  | none =>
    have := List.findSome?_eq_none_iff.1 hfound _ hlast
    simp [hglobal] at this
  | some c =>
    obtain ⟨k, hk, hc⟩ := List.exists_of_findSome?_eq_some hfound
    by_cases hkg : k = Store.global
    · rw [hkg, hglobal] at hc
      exact hc.symm
    · have := hno k hk hkg
      rw [Table.has_eq, hc] at this
      cases this

theorem Reached.step_name (hi : Interpreter.create libraries maxDepth = .ok i)
    (hb : (i.store.scope Store.global).bindings.get? name = some b)
    (hm : Reached libraries maxDepth (.running m)) (hc : m.control = .eval (.name pos name))
    (hno : ∀ k ∈ m.store.chain m.scope, k ≠ Store.global →
      (m.store.scope k).bindings.has name = false) :
    m.step = .next (m.give b.value) := by
  have hlookup : m.lookup name = .ok (b.value, m.store) := by
    simp [Machine.lookup, Store.lookup?, hm.binding?_global hi hb hno]
  simp [Machine.step, hc, Machine.evaluate, hlookup, Machine.proceedAt]

/-- The value of the last statement of a program is the result of the run. -/
theorem drive_give_statement (answer : (q : Request) → Id q.Reply) (v : Value) {located : Bool}
    (hs : m.stack = [.value .statement, .flow (.program .nil []), .exit (.scope Store.global),
      .exit (.run located)]) : ∃ j, drive answer 5 (m.give v) = some (j, .value v) := by
  obtain ⟨⟨_, _, _, _, _, reclaims⟩, _, _, _, _, _, _⟩ := m
  subst hs
  cases reclaims <;> cases located <;> exact ⟨_, rfl⟩

/-- From a new scope right under the global one, a name means what the global scope binds to it. -/
theorem Store.Orderly.bindings_push_global {s : Store} (h : Orderly s) (kind : ScopeKind) :
    ∀ k ∈ (s.push Store.global kind).2.chain (s.push Store.global kind).1, k ≠ Store.global →
      ((s.push Store.global kind).2.scope k).bindings = ∅ := by
  have hp := pushes_push s Store.global kind h.places.freeLt
  have hne := hp.ne_of_inUse h.places h.leases.inUse_global
  have htop : ((s.push Store.global kind).2.scope Store.global).parent = none := by
    rw [hp.scope_of_ne hne, (h.places.top _ h.places.globalLt h.places.globalStays).2 rfl]
  have hchain : Chain (s.push Store.global kind).2 (s.push Store.global kind).1
      [(s.push Store.global kind).1, Store.global] :=
    .under (by rw [hp.scope_self]; rfl) (.top htop)
  have hwhole := (hp.orderly h h.leases.inUse_global).chain_eq (hp.inUse_iff.2 (.inl rfl))
  intro k hk hkg
  rw [hwhole.unique hchain] at hk
  obtain rfl : k = (s.push Store.global kind).1 := by simpa [hkg] using hk
  rw [hp.scope_self]
  rfl

/-- A program that is a global name gives what the host bound to it. -/
theorem drive_name (hi : Interpreter.create libraries maxDepth = .ok i)
    (hb : (i.store.scope Store.global).bindings.get? name = some b)
    (hname : Token.IsIdentifier name) (file : String) (answer : (q : Request) → Id q.Reply) :
    ∃ m j, i.start [] name file = .ok m ∧ drive answer 8 m = some (j, .value b.value) := by
  obtain ⟨p, hparse⟩ : ∃ p, parseSource name file = .ok [.expr p (.name p name)] :=
    ⟨_, hname.frames.parseSource⟩
  have hstart : i.start [] name file = .ok (i.ready [] (.enter file [.expr p (.name p name)])) := by
    simp only [Interpreter.start, hparse]
    rfl
  obtain ⟨found, hfound⟩ : ∃ found : Option String, (answer (.locate file)).toOption = found :=
    ⟨_, rfl⟩
  let m := ((i.ready [] (.enter file [.expr p (.name p name)])).enterProgram found
    [.expr p (.name p name)]).execute (.expr p (.name p name))
  have hm : Reached libraries maxDepth (.running m) := by
    subst hfound
    exact (((Reached.create hi).run hstart).ask (answer (.locate file)) rfl).next rfl
  obtain ⟨_, _, _, ht⟩ := (Reached.create hi).inStep
  have hstep := hm.step_name hi hb rfl fun k hk hkg => by
    have hbindings : (m.store.scope k).bindings = ∅ :=
      ht.tracks.orderly.bindings_push_global .module k hk hkg
    simp [hbindings, Table.has]
  obtain ⟨j, hj⟩ := drive_give_statement (m := m) answer b.value rfl
  refine ⟨_, j, hstart, ?_⟩
  calc drive answer 8 (i.ready [] (.enter file [.expr p (.name p name)]))
      = drive answer 6 m := by subst hfound; rfl
    _ = drive answer 5 (m.give b.value) := by rw [drive, hstep]
    _ = some (j, .value b.value) := hj

end Reading

/-- A host can add libraries exactly if each name reads as a single name, none is that of a
    built-in and no two are the same; otherwise the first library that cannot be added is reported,
    because its name does not read so or is taken. A library that was added is an object with its
    members. In every state that the interpreter comes to, its name means this object unless a
    scope of the script binds that name, and a program that is just the name gives it. Only a name
    that is not an identifier, one with blanks or comments around it, can be written in no script.
    -/
theorem Interpreter.libraries_need_free_names (libraries : List Library) (maxDepth : Nat) :
    ((∃ i, Interpreter.create libraries maxDepth = .ok i) ↔ Free builtinNames libraries) ∧
    (∀ e, Interpreter.create libraries maxDepth = .error e ↔
      ∃ before l after, libraries = before ++ l :: after ∧ Free builtinNames before ∧
        Refused (before.map (·.name) ++ builtinNames) l e) ∧
    ∀ i, Interpreter.create libraries maxDepth = .ok i → ∀ l ∈ libraries,
      ∃ r fields, i.store.Offers i.objectClass l r fields ∧
        (∀ m pos, Reached libraries maxDepth (.running m) → m.control = .eval (.name pos l.name) →
          (∀ k ∈ m.store.chain m.scope, k ≠ Store.global →
            (m.store.scope k).bindings.has l.name = false) →
          m.step = .next (m.give (.object r))) ∧
        (Token.IsIdentifier l.name → ∀ file (answer : (q : Request) → Id q.Reply), ∃ m j,
          i.start [] l.name file = .ok m ∧ drive answer 8 m = some (j, .value (.object r))) ∧
        (¬ Token.IsIdentifier l.name → ∀ source file tokens,
          Token.tokenize source file = .ok tokens → ∀ t ∈ tokens, t.kind ≠ .name l.name) := by
  have hfirst : ∀ {before l after e}, libraries = before ++ l :: after → Free builtinNames before →
      Refused (before.map (·.name) ++ builtinNames) l e →
      Interpreter.create libraries maxDepth = .error e := by
    rintro before l after e rfl hfree hr
    exact create_of_refused hfree hr after maxDepth
  refine ⟨⟨?_, fun hfree => ?_⟩, fun e => ⟨fun he => ?_, ?_⟩, fun i hi l hl => ?_⟩
  · rintro ⟨i, hi⟩
    rcases free_or_refused builtinNames libraries with hfree | ⟨before, l, after, e, hl, hfree, hr⟩
    · exact hfree
    · cases hi.symm.trans (hfirst hl hfree hr)
  · obtain ⟨i, hi, _⟩ := create_of_free hfree maxDepth
    exact ⟨i, hi⟩
  · rcases free_or_refused builtinNames libraries with hfree | ⟨before, l, after, e', hl, hfree, hr⟩
    · obtain ⟨i, hi, _⟩ := create_of_free hfree maxDepth
      cases hi.symm.trans he
    · cases (hfirst hl hfree hr).symm.trans he
      exact ⟨before, l, after, hl, hfree, hr⟩
  · rintro ⟨before, l, after, hl, hfree, hr⟩
    exact hfirst hl hfree hr
  · rcases free_or_refused builtinNames libraries with hfree | ⟨before, k, after, e, hk, hfree, hr⟩
    · obtain ⟨i', hi', hall⟩ := create_of_free hfree maxDepth
      cases hi.symm.trans hi'
      obtain ⟨r, fields, ho⟩ := hall l hl
      refine ⟨r, fields, ho, fun m pos hm hc hno => hm.step_name hi ho.bound hc hno,
        fun hname file answer => drive_name hi ho.bound hname file answer, ?_⟩
      intro hname source file tokens htokens t ht hk
      exact hname (Token.isIdentifier_of_token htokens ht hk)
    · cases hi.symm.trans (hfirst hk hfree hr)

theorem Token.isIdentifier_a : Token.IsIdentifier "a" :=
  ⟨⟨'a', [], rfl, by decide⟩, List.forall_mem_singleton.2 (by decide),
    fun word => by cases word <;> decide⟩

/-- One of two libraries, whose names are an identifier and one with a comment after it, is read. -/
theorem a_library_is_read_by_its_name : ∃ i r fields,
    Interpreter.create [⟨"a", [("x", .constant (.value .nil))]⟩, ⟨"b/**/", []⟩] 4 = .ok i ∧
    i.store.cell? r = some (.object i.objectClass fields) ∧ fields.has "x" = true ∧
    ∀ answer : (q : Request) → Id q.Reply, ∃ m j, i.start [] "a" "f" = .ok m ∧
      drive answer 8 m = some (j, .value (.object r)) := by
  obtain ⟨hcreate, _, hall⟩ := Interpreter.libraries_need_free_names
    [⟨"a", [("x", .constant (.value .nil))]⟩, ⟨"b/**/", []⟩] 4
  have hfree : Free builtinNames [⟨"a", [("x", .constant (.value .nil))]⟩, ⟨"b/**/", []⟩] := by
    refine ⟨?_, by decide, by decide⟩
    simp only [List.forall_mem_cons, ← Token.isName_iff]
    refine ⟨by decide, by decide, by simp⟩
  obtain ⟨i, hi⟩ := hcreate.2 hfree
  obtain ⟨r, fields, ho, _, hrun, _⟩ := hall i hi _ List.mem_cons_self
  exact ⟨i, r, fields, hi, ho.object, (ho.members "x").2 (by simp),
    fun answer => hrun Token.isIdentifier_a "f" answer⟩

/-- A name with a blank before it is no identifier, but a library of that name is added. A script
    that is the same text does not find it. -/
theorem a_library_name_may_have_a_blank : ¬ Token.IsIdentifier " a" ∧
    ∃ i m n f, Interpreter.create [⟨" a", []⟩] 4 = .ok i ∧ i.startSession [] " a" "f" = .ok m ∧
      m.after 2 = some n ∧ n.control = .give (.fault f) ∧ f.message = "'a' is not defined" := by
  refine ⟨fun h => ?_, ?_⟩
  · have := h.chars ' ' (by decide)
    cases this
  · have hrun : ((Interpreter.create [⟨" a", []⟩] 4).toOption.any fun i =>
        (i.startSession [] " a" "f").toOption.any fun m => (m.after 2).any fun n =>
          n.control.given?.any (·.fault?.any (·.message == "'a' is not defined"))) = true := by
      decide +kernel
    obtain ⟨i, hi, hrun⟩ := exists_ok_of_any hrun
    obtain ⟨m, hm, hrun⟩ := exists_ok_of_any hrun
    simp only [Option.any_eq_true, Control.given?_eq_some, Result.fault?_eq_some,
      beq_iff_eq] at hrun
    obtain ⟨n, hn, _, hgive, f, rfl, hmessage⟩ := hrun
    exact ⟨i, m, n, f, hi, hm, hn, hgive, hmessage⟩

end TinyScript

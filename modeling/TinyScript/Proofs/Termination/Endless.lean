/-
  TinyScript.Proofs.Termination.Endless — a value whose text has no end.

  A container is read when its turn comes. So a `str` method may put a new container into the one
  that is written next, and an object that is to be written before it, with the same method. Each
  call returns, but after each there is as much left to write as before it (`Refilling`).
-/

import TinyScript.Proofs.Property.Typing
import TinyScript.Proofs.Termination.Rendering

namespace TinyScript

open Relation Store TinyScript.Text

variable {k : Nat} {m n x : Machine} {base below stack : List Frame} {start : List Ref}
  {s t : Store} {r : Result} {v : Value} {pos pos' : Position} {label : String} {e owner : Expr}

namespace Machine

/-! ## Runs without the host -/

def Runs (k : Nat) : Machine → Machine → Prop :=
  ReflTransGen fun m n => k < m.stack.length ∧ m.step = .next n

namespace Runs

theorem returns (h : m.Runs base.length n) (hn : n.Gives base) : m.Returns base := by
  induction h using ReflTransGen.head_induction_on with
  | refl => exact .here hn
  | head hstep _ ih => exact .next hstep.2 ih

theorem ends (h : m.Runs base.length n) (hs : n.stack = base) (hc : n.control = .give r) :
    Ends base r n m := by
  induction h using ReflTransGen.head_induction_on with
  | refl => exact .here hs hc
  | head hstep _ ih => exact .next (not_gives_of_lt hstep.1) hstep.2 ih

/-- There is no other end. -/
theorem eq_of_ends (h : m.Runs base.length n) (hs : n.stack = base) (hc : n.control = .give r)
    {r' : Result} (he : Ends base r' x m) : x = n := by
  induction h using ReflTransGen.head_induction_on with
  | refl => exact (he.eq_of_gives hs hc).1
  | head hstep _ ih => exact ih (he.of_next (not_gives_of_lt hstep.1) hstep.2)

end Runs

/-- What is written for ever does not return. -/
theorem Writing.not_returns {P : Machine → Prop} (hm : m.Writing below start)
    (hP : ∀ m, P m → ∃ n, m.Writes below n ∧ P n) (hp : P m) : ¬ m.Returns below := by
  intro h
  have hacc := h.acc.transGen
  clear h
  induction hacc with
  | intro m _ ih =>
    obtain ⟨n, hn, hpn⟩ := hP m hp
    exact ih n (transGen_swap.2 (hm.goes hn)) (hm.writes hn) hpn

theorem CallsStr.unique {frame frame' : Frame} {first first' : Machine} (h : m.CallsStr frame first)
    (h' : m.CallsStr frame' first') : frame' = frame ∧ first' = first := by
  obtain ⟨hc, hf, hclass⟩ := h
  obtain ⟨hc', hf', hclass'⟩ := h'
  cases hc.symm.trans hc'
  cases hf.symm.trans hf'
  cases hclass.symm.trans hclass'
  exact ⟨rfl, rfl⟩

theorem writes_iff_of_step (hgo : ¬ m.Gives below)
    (hcalls : ∀ frame first, ¬ m.CallsStr frame first) (hstep : m.step = .next n) :
    m.Writes below x ↔ x = n := by
  refine ⟨fun h => ?_, fun h => h ▸ .step hgo hcalls hstep⟩
  cases h with
  | step _ _ hstep' => exact Step.next.inj (hstep'.symm.trans hstep)
  | call hcall => exact absurd hcall (hcalls _ _)

theorem writes_iff_of_call {frame : Frame} {first : Machine} (hcall : m.CallsStr frame first)
    (hruns : first.Runs (frame :: m.stack).length n) (hs : n.stack = frame :: m.stack)
    (hc : n.control = .give r) : m.Writes below x ↔ x = n := by
  refine ⟨fun h => ?_, fun h => h ▸ .call hcall (hruns.ends hs hc)⟩
  cases h with
  | step _ hcalls => exact absurd hcall (hcalls _ _)
  | call hcall' hends =>
    obtain ⟨rfl, rfl⟩ := hcall.unique hcall'
    exact hruns.eq_of_ends hs hc hends

/-! ## Code that is run -/

def put (m : Machine) (s : Store) (stack : List Frame) (c : Control) : Machine :=
  { m with store := s, stack := stack, control := c }

/-- The expression has this value and leaves this store, whatever frames wait for it. -/
def Evaluates (m : Machine) (s : Store) (e : Expr) (v : Value) (t : Store) : Prop :=
  ∀ k stack, k < stack.length →
    (m.put s stack (.eval e)).Runs k (m.put t stack (.give (.value v)))

namespace Evaluates

theorem name (h : s.lookup? m.scope label = some v) : m.Evaluates s (.name pos label) v s := by
  intro k stack hk
  refine .single ⟨hk, ?_⟩
  simp only [step, put, evaluate, lookup, h]
  rfl

theorem literal (l : Literal) : m.Evaluates s (.literal pos l) (.ofLiteral l) s :=
  fun _ _ hk => .single ⟨hk, rfl⟩

theorem member {u : Value} {t' : Store} (howner : m.Evaluates s owner u t)
    (h : t.member u label = .ok (v, t')) : m.Evaluates s (.member pos owner label) v t' := by
  intro k stack hk
  have hlt : k < (Frame.value (.member pos label) :: stack).length := Nat.lt_succ_of_lt hk
  have hlast : (m.put t (.value (.member pos label) :: stack) (.give (.value u))).step =
      .next (m.put t' stack (.give (.value v))) := by
    simp only [step, put, resume, resumeValue, h]
    rfl
  exact .head ⟨hk, rfl⟩ ((howner k _ hlt).tail ⟨hlt, hlast⟩)

/-- An object with one field. -/
theorem object (h : m.Evaluates s e v t) :
    m.Evaluates s (.object pos [(label, e)])
      (t.newObject m.objectClass ((∅ : Table Value).put label v)).1
      (t.newObject m.objectClass ((∅ : Table Value).put label v)).2 := by
  intro k stack hk
  have hlt : k < (Frame.value (.field ∅ label []) :: stack).length := Nat.lt_succ_of_lt hk
  exact .head ⟨hk, rfl⟩ ((h k _ hlt).tail ⟨hlt, rfl⟩)

/-- A field is set to a value. -/
theorem assign {r : Ref} {t' : Store} (howner : m.Evaluates s owner (.object r) t)
    (hvalue : m.Evaluates t e v t')
    (h : t'.setMember (.object r) label v pos = .ok (.setField r label v)) :
    m.Evaluates s (.assign pos .set (.member pos' owner label) e) v (t'.setField r label v) := by
  intro k stack hk
  have hlt : k < (Frame.value (.memberOwner pos .set label e) :: stack).length :=
    Nat.lt_succ_of_lt hk
  have hlt' : k < (Frame.value (.storeMember pos (.object r) label) :: stack).length :=
    Nat.lt_succ_of_lt hk
  have hlast : (m.put t' (.value (.storeMember pos (.object r) label) :: stack)
      (.give (.value v))).step =
        .next (m.put (t'.setField r label v) stack (.give (.value v))) := by
    simp only [step, put, resume, resumeValue, h]
    rfl
  have hrest := (hvalue k _ hlt').tail ⟨hlt', hlast⟩
  exact .head ⟨hk, rfl⟩ ((howner k _ hlt).trans (.head ⟨hlt, rfl⟩ hrest))

end Evaluates

/-- An expression and then a return statement, in the body of a function. -/
theorem runs_body {l : Literal} {p q : Position} (he : m.Evaluates s e v t)
    (hk : k < stack.length) :
    (m.put s (.flow (.sequence .nil [.returnValue p (some (.literal q l))]) :: stack)
      (.exec (.expr pos e))).Runs k (m.put t stack (.give (.flow (.returned (.ofLiteral l))))) := by
  let todo := Stmt.returnValue p (some (.literal q l))
  have hlt : ∀ f : Frame, k < (f :: stack).length := fun _ => Nat.lt_succ_of_lt hk
  have hlt' : ∀ f g : Frame, k < (f :: g :: stack).length := fun f _ => Nat.lt_succ_of_lt (hlt f)
  have hreturn : (m.put t (.flow (.sequence v []) :: stack) (.exec todo)).Runs k
      (m.put t stack (.give (.flow (.returned (.ofLiteral l))))) :=
    .head ⟨hlt _, rfl⟩ (.head ⟨hlt' _ _, rfl⟩ (.head ⟨hlt' _ _, rfl⟩ (.single ⟨hlt _, rfl⟩)))
  have hrest : (m.put t (.value .statement :: .flow (.sequence .nil [todo]) :: stack)
      (.give (.value v))).Runs k (m.put t stack (.give (.flow (.returned (.ofLiteral l))))) :=
    .head ⟨hlt' _ _, rfl⟩ (.head ⟨hlt _, rfl⟩ hreturn)
  exact .head ⟨hlt _, rfl⟩ ((he k _ (hlt' _ _)).trans hrest)

/-- A method without parameters is entered. -/
theorem callFunction_eq {f : Function} {stmt : Stmt} {todo : List Stmt}
    (hparams : f.decl.params = []) (hbody : f.decl.body = stmt :: todo) (hthis : f.this = some v)
    (hdepth : m.depth < m.maxDepth) {i : ScopeId}
    (hpush : m.store.push (m.store.leasedScope f.closure) .function = (i, s))
    (hnew : (s.scope i).bindings.get? "this" = none) :
    m.callFunction f [] [] pos =
      { m with
        store := s.bind i "this" ⟨v, true⟩
        scope := i
        depth := m.depth + 1
        stack := .flow (.sequence .nil todo) :: .flow .functionBody :: .exit (.scope m.scope) ::
          .exit (.call f [] pos) :: m.stack
        control := .exec stmt } := by
  have hle : ¬ m.maxDepth ≤ m.depth := Nat.not_le.2 hdepth
  have hcheck : ∀ home, m.store.checkArguments home [] [] pos = .ok () := fun _ => rfl
  simp [callFunction, hparams, hle, hcheck, proceed, enterScope, push, hpush, startBody, hthis,
    declare, hnew, changeAt, changed, bindArguments, hbody, sequence, exec, apply]

/-- A function whose scope nothing has captured is left. -/
theorem runs_leave {f : Function} {previous : ScopeId} (hr : m.reclaims = true)
    (hreturns : f.decl.returns = none)
    (hfree : ∀ held, s.release held m.scope = s.freeScope m.scope) :
    (m.put s (.flow .functionBody :: .exit (.scope previous) :: .exit (.call f [] pos) :: base)
      (.give (.flow (.returned v)))).Runs base.length
      { m with
        store := s.freeScope m.scope
        scope := previous
        depth := m.depth - 1
        stack := base
        control := .give (.value v) } := by
  have hlt : ∀ f g : Frame, base.length < (f :: g :: base).length := fun _ _ =>
    Nat.lt_succ_of_lt (Nat.lt_succ_self _)
  have hscope : (m.put s (.exit (.scope previous) :: .exit (.call f [] pos) :: base)
      (.give (.value v))).step = .next { m with
        store := s.freeScope m.scope
        scope := previous
        stack := .exit (.call f [] pos) :: base
        control := .give (.value v) } := by
    simp [step, put, resume, leave, hr, hfree]
  have hrest : (m.put s (.exit (.scope previous) :: .exit (.call f [] pos) :: base)
      (.give (.value v))).Runs base.length { m with
        store := s.freeScope m.scope
        scope := previous
        depth := m.depth - 1
        stack := base
        control := .give (.value v) } := by
    refine .head ⟨hlt _ _, hscope⟩ (.single ⟨Nat.lt_succ_self _, ?_⟩)
    simp [step, resume, leave, hreturns, checkIf, proceed, give, giving]
  exact .head ⟨Nat.lt_succ_of_lt (hlt _ _), rfl⟩ hrest

end Machine

/-! ## Fields -/

namespace Store

variable {x d : Ref} {fields : Table Value} {c : Class}

theorem classOf?_eq (hx : s.cell? x = some (.object d fields))
    (hd : s.cell? d = some (.classDef c)) : s.classOf? x = some (d, c) :=
  classOf?_eq_some.2 ⟨fields, object?_eq_some.2 hx, class?_eq_some.2 hd⟩

theorem member_field (hx : s.cell? x = some (.object d fields)) (hv : fields.get? label = some v) :
    s.member (.object x) label = .ok (v, s) := by
  have hfields : s.fields x = fields := by simp [Store.fields, object?, hx]
  simp only [member, ownMember, hfields, hv]
  rfl

/-- Where no property is declared, every field may be set. -/
theorem setMember_undeclared (hx : s.cell? x = some (.object d fields))
    (hd : s.cell? d = some (.classDef c)) (hc : c.properties = []) :
    s.setMember (.object x) label v pos = .ok (.setField x label v) := by
  simp only [setMember, classOf?_eq hx hd, checkProperty, hc, List.find?_nil]
  rfl

end Store

theorem toList_put {fields : Table Value} {u : Value} (h : fields.toList = [("a", u)]) (v : Value) :
    (fields.put "b" v).toList = [("a", u), ("b", v)] := by
  have he : fields.Equiv ((∅ : Table Value).put "a" u) := by
    apply Std.TreeMap.Equiv.of_toList_perm
    rw [h]
    exact .refl _
  exact (he.insert "b" v).toList_eq

/-! ## Containers that are refilled -/

/-- `this.hole = this.hole.b = {a: this}`, with the places of its parts. -/
def refill (p : Nat → Position) : Expr :=
  .assign (p 0) .set (.member (p 1) (.name (p 2) "this") "hole")
    (.assign (p 3) .set (.member (p 4) (.member (p 5) (.name (p 6) "this") "hole") "b")
      (.object (p 7) [("a", .name (p 8) "this")]))

def refillBody (p : Nat → Position) : List Stmt :=
  [.expr (p 9) (refill p), .returnValue (p 10) (some (.literal (p 11) (.string "")))]

/-- An object whose `str` method refills a container, with its class and the class of containers. -/
structure Refiller where
  object : Ref
  kind : Ref
  definition : Class
  method : Function
  places : Nat → Position
  plain : Ref
  containers : Class
  has_method : definition.methods.get? "str" = some method
  params : method.decl.params = []
  returns : method.decl.returns = none
  body : method.decl.body = refillBody places
  properties : definition.properties = []
  no_method : containers.methods.get? "str" = none
  no_properties : containers.properties = []
  not_user : containers.isUser = false

namespace Refiller

variable {w : Refiller} {hole : Ref} {i home : ScopeId}

def Holds (w : Refiller) (s : Store) (r : Ref) (entries : List (String × Value)) : Prop :=
  ∃ fields, s.cell? r = some (.object w.plain fields) ∧ fields.toList = entries

/-- The object is about to refill the container `hole`, which holds nothing but the object. -/
structure Fills (w : Refiller) (s : Store) (hole : Ref) : Prop where
  cell_lt : ∀ r c, s.cell? r = some c → r < s.next
  free_lt : ∀ j ∈ s.free, j < s.scopes.size
  object : ∃ fields, s.cell? w.object = some (.object w.kind fields) ∧
    fields.get? "hole" = some (.object hole)
  kind : s.cell? w.kind = some (.classDef w.definition)
  plain : s.cell? w.plain = some (.classDef w.containers)
  hole : w.Holds s hole [("a", .object w.object)]

structure Entered (s t : Store) (i home : ScopeId) (this : Value) : Prop where
  cells : t.cells = s.cells
  next : t.next = s.next + 1
  lt_size : i < t.scopes.size
  free_lt : ∀ j ∈ t.free, j < t.scopes.size
  scope : t.scope i = (Scope.fresh (some home) .function s.next).bind "this" ⟨this, true⟩

theorem entered_push (hfree : ∀ j ∈ s.free, j < s.scopes.size)
    (hpush : s.push home .function = (i, t)) (this : Value) :
    Entered s (t.bind i "this" ⟨this, true⟩) i home this := by
  have h := pushes_push s home .function hfree
  rw [hpush] at h
  have hi : i < t.scopes.size := by
    rcases h.place with ⟨hf, hsize⟩ | ⟨_, _, rfl, hsize⟩
    · rw [hsize]
      exact hfree i (hf ▸ List.mem_cons_self)
    · rw [hsize]
      exact Nat.lt_succ_self _
  have hb := changesScope_bind t "this" ⟨this, true⟩ hi
  refine ⟨hb.cells.trans h.cells, hb.next.trans h.next, hb.size ▸ hi, fun j hj => ?_, ?_⟩
  · rw [hb.free] at hj
    rw [hb.size]
    rcases h.place with ⟨hf, hsize⟩ | ⟨_, hf, _⟩
    · rw [hsize]
      exact hfree j (hf ▸ List.mem_cons_of_mem _ hj)
    · rw [hf] at hj
      cases hj
  · rw [hb.scope, if_pos rfl, h.scope_self]

namespace Entered

variable {this : Value} (h : Entered s t i home this)
include h

theorem cell? (r : Ref) : t.cell? r = s.cell? r := by rw [Store.cell?, Store.cell?, h.cells]

theorem lookup? : t.lookup? i "this" = some this := by
  obtain ⟨size, hsize⟩ := Nat.exists_eq_succ_of_ne_zero (Nat.ne_zero_of_lt h.lt_size)
  simp [Store.lookup?, binding?, chain, hsize, chainFrom, h.scope, Scope.bind]

theorem cell?_newObject (d : Ref) (fields : Table Value) (r : Ref) :
    (t.newObject d fields).2.cell? r =
      if r = s.next + 1 then some (.object d fields) else s.cell? r := by
  rw [← h.next, ← h.cell? r]
  exact cell?_alloc ..

end Entered

def refilled (w : Refiller) (t : Store) (hole : Ref) : Store :=
  let new := t.newObject w.plain ((∅ : Table Value).put "a" (.object w.object))
  (new.2.setField hole "b" new.1).setField w.object "hole" new.1

theorem sameScopes_refilled (t : Store) (hole : Ref) : SameScopes t (w.refilled t hole) := by
  have hreserve : SameScopes t t.reserve := ⟨rfl, rfl, rfl, rfl, rfl⟩
  have hnew := hreserve.trans (sameScopes_insertCell t.reserve t.next
    (.object w.plain ((∅ : Table Value).put "a" (.object w.object))))
  exact (hnew.trans (changesCell_setField _ _ _ _).same).trans (changesCell_setField _ _ _ _).same

theorem next_refilled (t : Store) (hole : Ref) : (w.refilled t hole).next = t.next + 1 := by
  rw [refilled, (changesCell_setField _ _ _ _).next, (changesCell_setField _ _ _ _).next]
  rfl

namespace Fills

variable (h : w.Fills s hole)
include h

theorem object_ne_hole : w.object ≠ hole := by
  intro he
  obtain ⟨fields, hobject, _⟩ := h.object
  obtain ⟨fields', hhole, _⟩ := h.hole
  rw [he, hhole] at hobject
  have hkind := (Cell.object.inj (Option.some.inj hobject)).1
  have hclass := h.plain
  rw [hkind, h.kind] at hclass
  have hmethod := w.has_method
  rw [Cell.classDef.inj (Option.some.inj hclass), w.no_method] at hmethod
  cases hmethod

theorem fresh : s.cell? s.next = none := by
  cases hc : s.cell? s.next with
  | none => rfl
  | some c => exact absurd (h.cell_lt _ c hc) (Nat.lt_irrefl _)

theorem ne_new {r : Ref} {c : Cell} (hr : s.cell? r = some c) : r ≠ s.next + 1 :=
  Nat.ne_of_lt (Nat.lt_succ_of_lt (h.cell_lt r c hr))

variable (ht : Entered s t i home (.object w.object))
include ht

theorem cell?_refilled (r : Ref) : (w.refilled t hole).cell? r =
    if r = w.object then (s.cell? r).map (Cell.setField "hole" (.object (s.next + 1)))
    else if r = hole then (s.cell? r).map (Cell.setField "b" (.object (s.next + 1)))
    else if r = s.next + 1 then
      some (.object w.plain ((∅ : Table Value).put "a" (.object w.object)))
    else s.cell? r := by
  obtain ⟨_, hobject, _⟩ := h.object
  obtain ⟨_, hhole, _⟩ := h.hole
  have hne := h.object_ne_hole
  have ho := h.ne_new hobject
  have hh := h.ne_new hhole
  have hfst : (t.newObject w.plain ((∅ : Table Value).put "a" (.object w.object))).1 =
      .object (s.next + 1) := congrArg Value.object ht.next
  simp only [refilled, (changesCell_setField _ _ _ _).cell?, ht.cell?_newObject, hfst]
  by_cases hr : r = w.object
  · simp [hr, hne, ho]
  · by_cases hr' : r = hole
    · simp [hr', hne.symm, hh]
    · simp [hr, hr']

theorem cell?_refilled_none {r : Ref} (hr : s.cell? r = none) (hne : r ≠ s.next + 1) :
    (w.refilled t hole).cell? r = none := by
  rw [h.cell?_refilled ht]
  simp [hr, hne]

theorem cell?_refilled_class {r : Ref} {c : Class} (hr : s.cell? r = some (.classDef c)) :
    (w.refilled t hole).cell? r = some (.classDef c) := by
  rw [h.cell?_refilled ht]
  simp [hr, h.ne_new hr, Cell.setField]

/-- Nothing has captured the scope that the method runs in. -/
theorem release_refilled (held : List Ref) :
    (w.refilled t hole).release held i = (w.refilled t hole).freeScope i := by
  have hscope := (sameScopes_refilled (w := w) t hole).scope i
  have hnone : (w.refilled t hole).liveLease? i = none := by
    cases hl : (w.refilled t hole).liveLease? i with
    | none => rfl
    | some lease =>
      obtain ⟨hlease, hmem⟩ := liveLease?_eq_some.1 hl
      rw [hscope, ht.scope] at hlease
      cases hlease
      exact absurd hmem (cell?_eq_none.1 (h.cell?_refilled_none ht h.fresh (Nat.ne_of_lt
        (Nat.lt_succ_self _))))
  simp [release, hscope, ht.scope, Scope.bind, Scope.fresh, hnone]

/-- When the method has run, there is a new hole, and it is in the old one. -/
theorem again : w.Fills ((w.refilled t hole).freeScope i) (s.next + 1) ∧
    w.Holds ((w.refilled t hole).freeScope i) hole
      [("a", .object w.object), ("b", .object (s.next + 1))] := by
  have hsame := sameScopes_refilled (w := w) t hole
  have hnext : (w.refilled t hole).next = s.next + 2 := by rw [next_refilled, ht.next]
  have hfrees := frees_freeScope (w.refilled t hole) (hsame.size ▸ ht.lt_size)
  have hcell : ∀ r, ((w.refilled t hole).freeScope i).cell? r = (w.refilled t hole).cell? r :=
    fun r => by rw [Store.cell?, Store.cell?, hfrees.cells]
  obtain ⟨fields, hobject, hfield⟩ := h.object
  obtain ⟨entries, hhole, hlist⟩ := h.hole
  have hne := h.object_ne_hole
  refine ⟨⟨fun r c hc => ?_, fun j hj => ?_, ?_, ?_, ?_, ?_⟩, ?_⟩
  · rw [hcell] at hc
    rw [hfrees.next, hnext]
    cases hr : s.cell? r with
    | some d => exact Nat.lt_add_right 2 (h.cell_lt r d hr)
    | none =>
      by_cases hnew : r = s.next + 1
      · exact hnew ▸ Nat.lt_succ_self _
      · rw [h.cell?_refilled_none ht hr hnew] at hc
        cases hc
  · rw [hfrees.size, hsame.size]
    rw [hfrees.free, hsame.free] at hj
    rcases List.mem_cons.1 hj with rfl | hj
    · exact ht.lt_size
    · exact ht.free_lt j hj
  · refine ⟨fields.put "hole" (.object (s.next + 1)), ?_, fields.get?_put_self ..⟩
    rw [hcell, h.cell?_refilled ht, if_pos rfl, hobject]
    rfl
  · rw [hcell, h.cell?_refilled_class ht h.kind]
  · rw [hcell, h.cell?_refilled_class ht h.plain]
  · refine ⟨(∅ : Table Value).put "a" (.object w.object), ?_, rfl⟩
    rw [hcell, h.cell?_refilled ht, if_neg (h.ne_new hobject).symm, if_neg (h.ne_new hhole).symm,
      if_pos rfl]
  · refine ⟨entries.put "b" (.object (s.next + 1)), ?_, toList_put hlist _⟩
    rw [hcell, h.cell?_refilled ht, if_neg hne.symm, if_pos rfl, hhole]
    rfl

theorem evaluates (hscope : m.scope = i) (hclass : m.objectClass = w.plain) :
    ∃ v, m.Evaluates t (refill w.places) v (w.refilled t hole) := by
  obtain ⟨fields, hobject, hfield⟩ := h.object
  obtain ⟨entries, hhole, _⟩ := h.hole
  let new := t.newObject w.plain ((∅ : Table Value).put "a" (.object w.object))
  have hnew : ∀ {r c}, s.cell? r = some c → new.2.cell? r = some c := by
    intro r c hr
    rw [ht.cell?_newObject, if_neg (h.ne_new hr), hr]
  have hput : ∀ {r c}, r ≠ hole → s.cell? r = some c →
      (new.2.setField hole "b" new.1).cell? r = some c := by
    intro r c hne hr
    rw [(changesCell_setField _ _ _ _).cell?, if_neg hne, hnew hr]
  have hkind : w.kind ≠ hole := by
    intro he
    cases (he ▸ h.kind).symm.trans hhole
  have hthis : ∀ p, m.Evaluates t (.name p "this") (.object w.object) t := fun p =>
    .name (by rw [hscope, ht.lookup?])
  have hmember : t.member (.object w.object) "hole" = .ok (.object hole, t) :=
    member_field ((ht.cell? _).trans hobject) hfield
  have hliteral : m.Evaluates t (.object (w.places 7) [("a", .name (w.places 8) "this")]) new.1
      new.2 := by
    have hobject : m.Evaluates t (.object (w.places 7) [("a", .name (w.places 8) "this")]) _ _ :=
      .object (hthis _)
    rwa [hclass] at hobject
  refine ⟨new.1, .assign (hthis _) (.assign ((hthis _).member hmember) hliteral ?_) ?_⟩
  · exact setMember_undeclared (hnew hhole) (hnew h.plain) w.no_properties
  · exact setMember_undeclared (hput h.object_ne_hole hobject) (hput hkind h.kind) w.properties

end Fills

/-! ## Calls of the method -/

def bound (w : Refiller) : Function := { w.method with this := some (.object w.object) }

structure Serves (w : Refiller) (m : Machine) (hole : Ref) : Prop where
  fills : w.Fills m.store hole
  reclaims : m.reclaims = true
  depth : m.depth < m.maxDepth
  plain : m.objectClass = w.plain

/-- Each call returns an empty text and leaves a new hole. -/
theorem Serves.runs_call (h : w.Serves m hole) (pos : Position) :
    ∃ s, w.Fills s (m.store.next + 1) ∧
      w.Holds s hole [("a", .object w.object), ("b", .object (m.store.next + 1))] ∧
      (m.callFunction w.bound [] [] pos).Runs m.stack.length
        (m.put s m.stack (.give (.value (.string "")))) := by
  obtain ⟨i, s, hpush⟩ : ∃ i s, m.store.push (m.store.leasedScope w.bound.closure) .function =
    (i, s) := ⟨_, _, rfl⟩
  have ht := entered_push h.fills.free_lt hpush (.object w.object)
  obtain ⟨hfills, hholds⟩ := h.fills.again ht
  refine ⟨_, hfills, hholds, ?_⟩
  have hpushes := pushes_push m.store (m.store.leasedScope w.bound.closure) .function
    h.fills.free_lt
  rw [hpush] at hpushes
  have hnew : (s.scope i).bindings.get? "this" = none := by
    rw [hpushes.scope_self]
    rfl
  rw [Machine.callFunction_eq (f := w.bound) w.params w.body rfl h.depth hpush hnew]
  let inside : Machine := { m with scope := i, depth := m.depth + 1 }
  obtain ⟨v, hv⟩ := h.fills.evaluates (m := inside) ht rfl h.plain
  have hlt : m.stack.length < (Frame.flow .functionBody :: .exit (.scope m.scope) ::
      .exit (.call w.bound [] pos) :: m.stack).length := by
    simp only [List.length_cons]
    omega
  exact (Machine.runs_body hv hlt).trans
    (Machine.runs_leave (m := inside) h.reclaims w.returns (h.fills.release_refilled ht))

/-! ## Writing for ever -/

/-- The container `r`, which is not on the path, holds the object and the hole. -/
structure Opens (w : Refiller) (m : Machine) (path : List Ref) (r hole : Ref) : Prop where
  serves : w.Serves m hole
  holds : w.Holds m.store r [("a", .object w.object), ("b", .object hole)]
  not_mem : r ∉ path
  hole_not_mem : hole ∉ r :: path
  lt_next : ∀ x ∈ path, x < m.store.next

def Precedes (path : List Ref) (pos : Position) (r : Ref) (f : Frame) : Prop :=
  ∃ opening closing held done label,
    f = .text (.parts opening closing held done label [("b: ", .object r)] path pos)

/-- The turns of writing for ever: a container is written, the object in it, what its method
    returned, and its text before the hole. -/
inductive Refilling (w : Refiller) (below : List Frame) : Machine → Prop
  | container {m : Machine} {r hole : Ref} {nested : Bool} {path : List Ref} {pos : Position} :
    m.control = .render (.object r) nested path pos → w.Opens m path r hole →
    below.length ≤ m.stack.length → Refilling w below m
  | object {m : Machine} {hole : Ref} {path : List Ref} {pos : Position} {f : Frame}
    {rest : List Frame} : m.control = .render (.object w.object) true path pos →
    m.stack = f :: rest → Precedes path pos hole f → w.Serves m hole → hole ∉ path →
    (∀ x ∈ path, x < m.store.next) → below.length ≤ rest.length → Refilling w below m
  | result {m : Machine} {r hole : Ref} {path : List Ref} {pos : Position} {f : Frame}
    {rest : List Frame} {name : String} : m.control = .give (.value (.string "")) →
    m.stack = .value (.strResult name pos) :: f :: rest → Precedes path pos r f →
    w.Opens m path r hole → below.length ≤ rest.length → Refilling w below m
  | text {m : Machine} {r hole : Ref} {path : List Ref} {pos : Position} {f : Frame}
    {rest : List Frame} : m.control = .give (.text "") → m.stack = f :: rest →
    Precedes path pos r f → w.Opens m path r hole → below.length ≤ rest.length → Refilling w below m

/-- From one turn the writing comes to the next one and to no other state, and if a method is called
    it returns. -/
def Turns (w : Refiller) (below : List Frame) (m : Machine) : Prop :=
  (∃ n, Refilling w below n ∧ ∀ x, m.Writes below x ↔ x = n) ∧
    ∀ frame first, m.CallsStr frame first → first.Returns (frame :: m.stack)

theorem turns_of_step (hgo : ¬ m.Gives below) (hcalls : ∀ frame first, ¬ m.CallsStr frame first)
    (hstep : m.step = .next n) (hn : Refilling w below n) : w.Turns below m :=
  ⟨⟨n, hn, fun _ => Machine.writes_iff_of_step hgo hcalls hstep⟩,
    fun frame first hcall => absurd hcall (hcalls frame first)⟩

theorem not_gives_of_render {u : Value} {nested : Bool} {path : List Ref}
    (hc : m.control = .render u nested path pos) : ¬ m.Gives below := by
  rintro ⟨_, r, hg⟩
  cases hc.symm.trans hg

theorem not_callsStr_of_give (hc : m.control = .give r) (frame : Frame) (first : Machine) :
    ¬ m.CallsStr frame first := by
  rintro ⟨hc', _, _⟩
  cases hc.symm.trans hc'

variable {path : List Ref} {c : Ref} {nested : Bool}

theorem Serves.elsewhere (h : w.Serves m hole) (stack : List Frame) (control : Control) :
    w.Serves (m.put m.store stack control) hole :=
  ⟨h.fills, h.reclaims, h.depth, h.plain⟩

theorem Opens.elsewhere (h : w.Opens m path c hole) (stack : List Frame) (control : Control) :
    w.Opens (m.put m.store stack control) path c hole :=
  ⟨h.serves.elsewhere _ _, h.holds, h.not_mem, h.hole_not_mem, h.lt_next⟩

theorem Opens.turns (h : w.Opens m path c hole)
    (hc : m.control = .render (.object c) nested path pos)
    (hbelow : below.length ≤ m.stack.length) : w.Turns below m := by
  obtain ⟨fields, hcell, hlist⟩ := h.holds
  have hclass := classOf?_eq hcell h.serves.fills.plain
  have hmethod : m.store.boundMethod? (.object c) "str" = none := by
    simp [boundMethod?, hclass, w.no_method]
  have hfields : m.store.labelledFields c =
      [("a: ", .object w.object), ("b: ", .object hole)] := by
    simp [labelledFields, Store.fields, object?, hcell, hlist]
  have hstep : m.step = .next (m.renderParts "\x7b" "\x7d" [.object w.object, .object hole] []
      (c :: path) pos [("a: ", .object w.object), ("b: ", .object hole)]) := by
    simp [Machine.step, hc, Machine.render, hmethod, Machine.renderObject, hclass, w.not_user,
      h.not_mem, hfields]
  refine turns_of_step (not_gives_of_render hc) ?_ hstep (.object rfl rfl ⟨_, _, _, _, _, rfl⟩
    (h.serves.elsewhere _ _) h.hole_not_mem ?_ hbelow)
  · rintro _ _ ⟨hc', hf, _⟩
    cases hc.symm.trans hc'
    cases hmethod.symm.trans hf
  · exact List.forall_mem_cons.2 ⟨h.serves.fills.cell_lt c _ hcell, h.lt_next⟩

theorem Serves.turns {f : Frame} {rest : List Frame} (h : w.Serves m hole)
    (hc : m.control = .render (.object w.object) true path pos) (hs : m.stack = f :: rest)
    (hf : Precedes path pos hole f) (hhole : hole ∉ path) (hpath : ∀ x ∈ path, x < m.store.next)
    (hbelow : below.length ≤ rest.length) : w.Turns below m := by
  obtain ⟨fields, hcell, _⟩ := h.fills.object
  obtain ⟨_, hholecell, _⟩ := h.fills.hole
  have hclass := classOf?_eq hcell h.fills.kind
  have hmethod : m.store.boundMethod? (.object w.object) "str" = some w.bound := by
    simp [boundMethod?, hclass, w.has_method, bound]
  have hcall := Machine.CallsStr.call hc hmethod hclass
  have hserves : w.Serves (m.push (.value (.strResult w.definition.name pos))) hole :=
    h.elsewhere _ _
  obtain ⟨s, hfills, hholds, hruns⟩ := hserves.runs_call pos
  have hnew : m.store.next + 1 < s.next := by
    obtain ⟨_, hnewcell, _⟩ := hfills.hole
    exact hfills.cell_lt _ _ hnewcell
  have hlt : ∀ x ∈ hole :: path, x < m.store.next :=
    List.forall_mem_cons.2 ⟨h.fills.cell_lt _ _ hholecell, hpath⟩
  let after := m.put s (.value (.strResult w.definition.name pos) :: m.stack)
    (.give (.value (.string "")))
  have hopens : w.Opens after path hole (m.store.next + 1) := by
    refine ⟨⟨hfills, h.reclaims, h.depth, h.plain⟩, hholds, hhole, fun hmem => ?_, fun x hx => ?_⟩
    · exact Nat.lt_irrefl _ (Nat.lt_trans (Nat.lt_succ_self _) (hlt _ hmem))
    · exact Nat.lt_trans (hpath x hx) (Nat.lt_trans (Nat.lt_succ_self _) hnew)
  have hrefilling : Refilling w below after := .result rfl (congrArg (_ :: ·) hs) hf hopens hbelow
  refine ⟨⟨after, hrefilling, fun _ => Machine.writes_iff_of_call hcall hruns rfl rfl⟩, ?_⟩
  intro frame first hcall'
  obtain ⟨rfl, rfl⟩ := hcall.unique hcall'
  exact hruns.returns ⟨rfl, _, rfl⟩

theorem Refilling.turns (h : Refilling w below m) : w.Turns below m := by
  have hlt : ∀ {f rest}, m.stack = f :: rest → below.length ≤ rest.length → ¬ m.Gives below := by
    intro f rest hs hbelow
    apply Machine.not_gives_of_lt
    rw [hs]
    exact Nat.lt_succ_of_le hbelow
  cases h with
  | container hc hopens hbelow => exact hopens.turns hc hbelow
  | object hc hs hf hserves hhole hpath hbelow => exact hserves.turns hc hs hf hhole hpath hbelow
  | result hc hs hf hopens hbelow =>
    refine turns_of_step (hlt hs (Nat.le_succ_of_le hbelow)) (not_callsStr_of_give hc)
      (Machine.step_give hc hs) ?_
    exact .text rfl rfl hf (hopens.elsewhere _ _) hbelow
  | text hc hs hf hopens hbelow =>
    obtain ⟨opening, closing, held, done, label, rfl⟩ := hf
    refine turns_of_step (hlt hs hbelow) (not_callsStr_of_give hc) (Machine.step_give hc hs) ?_
    exact .container rfl (hopens.elsewhere _ _) (Nat.le_succ_of_le hbelow)

/-- The text does not come to its end, although each call returns. -/
theorem Refilling.endless (h : Refilling w below m) (hm : m.Writing below start) :
    (∀ x frame first, ReflTransGen (Machine.Writes below) m x → x.CallsStr frame first →
      first.Returns (frame :: x.stack)) ∧ ¬ m.Returns below := by
  have hreach : ∀ x, ReflTransGen (Machine.Writes below) m x → Refilling w below x := by
    intro x hx
    induction hx with
    | refl => exact h
    | tail _ hw ih =>
      obtain ⟨⟨n, hn, hiff⟩, _⟩ := ih.turns
      exact (hiff _).1 hw ▸ hn
  refine ⟨fun x frame first hx => (hreach x hx).turns.2 frame first, hm.not_returns ?_ h⟩
  intro m h
  obtain ⟨⟨n, hn, hiff⟩, _⟩ := h.turns
  exact ⟨n, (hiff n).2 rfl, hn⟩

end Refiller

/-! ## A script that writes for ever -/

def Value.object? : Value → Option Ref
  | .object r => some r
  | _ => none

def Store.links (s : Store) (r : Ref) : Option (Ref × List (String × Option Ref)) :=
  (s.object? r).map fun x => (x.1, x.2.toList.map fun entry => (entry.1, entry.2.object?))

theorem eq_of_object? {found : List (String × Value)} {entries : List (String × Ref)}
    (h : found.map (fun entry => (entry.1, entry.2.object?)) =
      entries.map fun entry => (entry.1, some entry.2)) :
    found = entries.map fun entry => (entry.1, .object entry.2) := by
  induction found generalizing entries with
  | nil =>
    cases entries with
    | nil => rfl
    | cons => cases h
  | cons first found ih =>
    cases entries with
    | nil => cases h
    | cons entry entries =>
      obtain ⟨hfirst, hrest⟩ := List.cons.inj h
      obtain ⟨hname, hvalue⟩ := Prod.mk.inj hfirst
      have hobject : first.2 = .object entry.2 := by
        unfold Value.object? at hvalue
        split at hvalue
        next he => rw [he, Option.some.inj hvalue]
        next => cases hvalue
      rw [ih hrest, List.map_cons, ← hname, ← hobject]

theorem Store.eq_of_links {x d : Ref} (entries : List (String × Ref))
    (h : s.links x = some (d, entries.map fun entry => (entry.1, some entry.2))) :
    ∃ fields, s.cell? x = some (.object d fields) ∧
      fields.toList = entries.map fun entry => (entry.1, .object entry.2) := by
  obtain ⟨⟨d', fields⟩, hobject, he⟩ := Option.map_eq_some_iff.1 h
  obtain ⟨rfl, hlist⟩ := Prod.mk.inj he
  exact ⟨fields, object?_eq_some.1 hobject, eq_of_object? hlist⟩

def refills : List Stmt → Bool
  | [.expr _ (.assign _ .set (.member _ (.name _ a) b)
      (.assign _ .set (.member _ (.member _ (.name _ c) d) e) (.object _ [(f, .name _ g)]))),
      .returnValue _ (some (.literal _ (.string t)))] =>
    decide ([a, b, c, d, e, f, g, t] = ["this", "hole", "this", "hole", "b", "a", "this", ""])
  | _ => false

theorem exists_refillBody {body : List Stmt} (h : refills body = true) :
    ∃ p, body = refillBody p := by
  unfold refills at h
  split at h
  · simp only [decide_eq_true_eq, List.cons.injEq, and_true] at h
    obtain ⟨rfl, rfl, rfl, rfl, rfl, rfl, rfl, rfl⟩ := h
    exact ⟨fun i => [_, _, _, _, _, _, _, _, _, _, _, _].getD i default, rfl⟩
  · cases h

def endlessScript : String :=
  "class G \x7b str() \x7b this.hole = this.hole.b = \x7ba: this\x7d; return ''; \x7d \x7d " ++
    "let g = G(); g.hole = \x7ba: g\x7d; '' + \x7ba: g, b: g.hole\x7d;"

def Control.written? : Control → Option (Ref × Bool × List Ref)
  | .render (.object r) nested path _ => some (r, nested, path)
  | _ => none

theorem exists_refilling : ∃ i m n w pos, Interpreter.create [] 4 = .ok i ∧
    i.startSession [] endlessScript "a" = .ok m ∧ ReflTransGen (Machine.Leads .any) m n ∧
    n.control = .render (.object 13) false [] pos ∧ Refiller.Refilling w n.stack n := by
  have hrun : ((Interpreter.create [] 4).toOption.any fun i =>
      (i.startSession [] endlessScript "a").toOption.any fun m =>
        (m.answered (Request.among []) 32).any fun n =>
          decide (n.control.written? = some (13, false, [])) &&
          decide (n.depth < n.maxDepth ∧ n.objectClass = 1) &&
          decide (n.store.links 11 = some (10, [("hole", some 12)]) ∧
            n.store.links 12 = some (1, [("a", some 11)]) ∧
            n.store.links 13 = some (1, [("a", some 11), ("b", some 12)])) &&
          ((n.store.class? 10).any fun c => c.properties.isEmpty &&
            (c.methods.get? "str").any fun f => f.decl.params.isEmpty && f.decl.returns.isNone &&
              refills f.decl.body) &&
          (n.store.class? 1).any fun c => c.properties.isEmpty && !c.isUser &&
            (c.methods.get? "str").isNone) = true := by
    decide +kernel
  obtain ⟨i, hi, hrun⟩ := exists_ok_of_any hrun
  obtain ⟨m, hm, hrun⟩ := exists_ok_of_any hrun
  simp only [Option.any_eq_true, Bool.and_eq_true, decide_eq_true_eq, List.isEmpty_iff,
    Option.isNone_iff_eq_none, Bool.not_eq_true'] at hrun
  obtain ⟨n, hn, ⟨⟨⟨hwrites, hdepth, hplain⟩, hobject, hhole, hcontainer⟩, c, hc, hprops, f, hf,
    ⟨hparams, hreturns⟩, hbody⟩, d, hd, ⟨hprops', huser⟩, hnone⟩ := hrun
  obtain ⟨pos, hcontrol⟩ : ∃ pos, n.control = .render (.object 13) false [] pos := by
    unfold Control.written? at hwrites
    split at hwrites
    next hc =>
      cases hwrites
      exact ⟨_, hc⟩
    next => cases hwrites
  obtain ⟨places, hplaces⟩ := exists_refillBody hbody
  have hleads := Machine.leads_answered (w := .any) (fun _ => trivial) hn
  have hreached : Reached [] 4 (.running n) := ((Reached.create hi).session hm).runsTo hleads
  let w : Refiller := ⟨11, 10, c, f, places, 1, d, hf, hparams, hreturns, hplaces, hprops, hnone,
    hprops', huser⟩
  obtain ⟨fields, hcell, hlist⟩ := eq_of_links [("hole", 12)] hobject
  have hfield : fields.get? "hole" = some (.object 12) := by
    apply Std.TreeMap.mem_toList_iff_getElem?_eq_some.1
    rw [hlist]
    exact List.mem_cons_self
  have hfills : w.Fills n.store 12 := by
    refine ⟨fun r x hx => ?_, fun j hj => ?_, ⟨fields, hcell, hfield⟩, class?_eq_some.1 hc,
      class?_eq_some.1 hd, eq_of_links [("a", 11)] hhole⟩
    · obtain ⟨_, _, _, ht⟩ := hreached.inStep
      exact ht.tracks.orderly.leases.cellLt r (mem_cells.2 ⟨x, hx⟩)
    · exact hreached.filed.lt_size j (List.mem_append_right _ hj)
  have hopens : w.Opens n [] 13 12 :=
    ⟨⟨hfills, hreached.reclaims, hdepth, hplain⟩,
      eq_of_links [("a", 11), ("b", 12)] hcontainer, List.not_mem_nil, by decide,
      fun _ hx => absurd hx List.not_mem_nil⟩
  exact ⟨i, m, n, w, pos, hi, hm, hleads, hcontrol, .container hcontrol hopens (Nat.le_refl _)⟩

/-- A session that writes a value for ever, although each call of a `str` method returns. -/
theorem a_text_without_end : ∃ i m n v pos, Interpreter.create [] 4 = .ok i ∧
    i.startSession [] endlessScript "a" = .ok m ∧ ReflTransGen (Machine.Leads .any) m n ∧
    n = n.begin n.stack (.text v false [] pos) ∧
    (∀ x frame first, ReflTransGen (Machine.Writes n.stack) n x → x.CallsStr frame first →
      first.Returns (frame :: x.stack)) ∧ ¬ n.Returns n.stack := by
  obtain ⟨i, m, n, w, pos, hi, hm, hleads, hcontrol, hrefilling⟩ := exists_refilling
  have hbegin : n = n.begin n.stack (.text (.object 13) false [] pos) := by
    rw [Machine.begin, ← hcontrol]
  have hwriting := n.writing_begin n.stack (.object 13) false [] pos
  rw [← hbegin] at hwriting
  exact ⟨i, m, n, _, pos, hi, hm, hleads, hbegin, hrefilling.endless hwriting⟩

end TinyScript

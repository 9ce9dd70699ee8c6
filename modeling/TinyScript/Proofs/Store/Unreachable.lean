/-
  TinyScript.Proofs.Store.Unreachable — a collection frees what cannot be reached.

  Here reachability is said without counting and walking. A cell is alive unless it is dropped. A
  retained scope whose lease is alive is a candidate; from its lease a path leads on to what is
  bound in it. From any other cell a path leads along the references that a collection looks into
  (`Edge`). Whatever holds a reference but was not inspected from a candidate is outside.

  In disciplined hands a collection frees exactly the retained scopes whose lease is not alive, or
  to which no path leads from outside or from a scope above one that runs (`Unreachable`). If a
  retained scope may be captured that nobody holds any more, then a scope above one that runs can be
  freed.
-/

import TinyScript.Proofs.Store.Discipline

namespace TinyScript

open Store

/-- The references from one cell to another that a collection looks into. -/
inductive Edge : Cell → Ref → Prop
  | item {items : Array Value} {v : Value} {r : Ref} :
    v ∈ items → v.ref? = some r → Edge (.array items) r
  | objectClass {c : Ref} {fields : Table Value} : Edge (.object c fields) c
  | field {c : Ref} {fields : Table Value} {name : String} {v : Value} {r : Ref} :
    fields.get? name = some v → v.ref? = some r → Edge (.object c fields) r
  | closure {f : Function} : Edge (.function f) f.closure
  | this {f : Function} {v : Value} {r : Ref} :
    f.this = some v → v.ref? = some r → Edge (.function f) r
  | method {c : Class} {name : String} {f : Function} {r : Ref} :
    c.methods.get? name = some f → Edge (.function f) r → Edge (.classDef c) r
  | classScope {c : Class} {r : Ref} : c.scope = some r → Edge (.classDef c) r
  | member {name : String} {symbols : List Ref} {r : Ref} :
    r ∈ symbols → Edge (.namespaceDef name symbols) r
  | symbolValue {name : String} {v : Value} {constant : Bool} {r : Ref} :
    v.ref? = some r → Edge (.symbol name v constant) r
  | leaseAbove {i : ScopeId} {r : Ref} : Edge (.lease i (some r)) r

theorem mem_functionRefs {f : Function} {r : Ref} : r ∈ f.refs ↔ Edge (.function f) r := by
  rw [Function.refs, List.mem_cons, Option.mem_toList, Option.bind_eq_some_iff]
  constructor
  · rintro (rfl | ⟨v, hv, hr⟩)
    · exact .closure
    · exact .this hv hr
  · intro h
    cases h with
    | closure => exact .inl rfl
    | this hv hr => exact .inr ⟨_, hv, hr⟩

/-- These are the references that a walk follows. -/
theorem mem_links {c : Cell} {r : Ref} : r ∈ c.links ↔ Edge c r := by
  cases c with
  | array items =>
    have : (Cell.array items).links = (Cell.array items).refs := rfl
    rw [this, refs_array, valueRefs, List.mem_filterMap]
    constructor
    · rintro ⟨v, hv, hr⟩
      exact .item (by simpa using hv) hr
    · intro h
      cases h with
      | item hv hr => exact ⟨_, by simpa using hv, hr⟩
  | object c fields =>
    rw [Cell.links, List.mem_cons, mem_mapRefs]
    constructor
    · rintro (rfl | ⟨name, v, hv, hr⟩)
      · exact .objectClass
      · exact .field hv (Value.mem_refs.1 hr)
    · intro h
      cases h with
      | objectClass => exact .inl rfl
      | field hv hr => exact .inr ⟨_, _, hv, Value.mem_refs.2 hr⟩
  | function f => exact mem_functionRefs
  | native n =>
    constructor
    · intro h
      cases h
    · intro h
      cases h
  | classDef c =>
    rw [Cell.links, Class.refs, List.mem_append, mem_mapRefs, Option.mem_toList]
    constructor
    · rintro (⟨name, f, hf, hr⟩ | hr)
      · exact .method hf (mem_functionRefs.1 hr)
      · exact .classScope hr
    · intro h
      cases h with
      | method hf hr => exact .inl ⟨_, _, hf, mem_functionRefs.2 hr⟩
      | classScope hr => exact .inr hr
  | namespaceDef name symbols =>
    exact ⟨fun h => .member h, fun h => by cases h with | member h => exact h⟩
  | symbol name v constant =>
    exact ⟨fun h => .symbolValue (Value.mem_refs.1 h),
      fun h => by cases h with | symbolValue h => exact Value.mem_refs.2 h⟩
  | lease i above =>
    rw [Cell.links, Option.mem_toList]
    constructor
    · rintro rfl
      exact .leaseAbove
    · intro h
      cases h
      rfl

namespace Store

variable {s : Store} {held : List Ref} {i j : ScopeId} {r x y : Ref}

/-! ## Paths -/

def Alive (s : Store) (held : List Ref) (r : Ref) : Prop := r ∈ s.cells ∧ ¬ Dropped s held r

def Binds (s : Store) (i : ScopeId) (r : Ref) : Prop :=
  ∃ name b, (s.scope i).bindings.get? name = some b ∧ b.value.ref? = some r

def Candidate (s : Store) (held : List Ref) (i : ScopeId) (r : Ref) : Prop :=
  i ∈ s.retained ∧ (s.scope i).lease = some r ∧ s.Alive held r

/-- A reference that leads on: of a cell, or of the scope that a lease stands for. -/
inductive Refers (s : Store) (held : List Ref) : Ref → Ref → Prop
  | cell {x y : Ref} {c : Cell} :
    s.Alive held x → s.cell? x = some c → Edge c y → Refers s held x y
  | scope {i : ScopeId} {x y : Ref} : s.Candidate held i x → s.Binds i y → Refers s held x y

def Path (s : Store) (held : List Ref) : Ref → Ref → Prop := Relation.ReflTransGen (s.Refers held)

def Inspected (s : Store) (held : List Ref) (x : Ref) : Prop :=
  ∃ i r, s.Candidate held i r ∧ s.Path held r x

/-- Someone holds the cell who is neither a candidate nor inspected, or whose references nobody
    looks into. -/
inductive Outside (s : Store) (held : List Ref) : Ref → Prop
  | held {r : Ref} : r ∈ held → Outside s held r
  | globalLease : Outside s held s.globalLease
  | bound {i : ScopeId} {r : Ref} : (∀ x, ¬ s.Candidate held i x) → s.Binds i r → Outside s held r
  | uninspected {x r : Ref} {c : Cell} : s.Alive held x → s.cell? x = some c →
    ¬ s.Inspected held x → Edge c r → Outside s held r
  /-- The receiver of a method, or what a function of the host keeps. -/
  | native {x r : Ref} {n : Native} {v : Value} : s.Alive held x →
    s.cell? x = some (.native n) → n.held? = some v → v.ref? = some r → Outside s held r

def Below (s : Store) : ScopeId → ScopeId → Prop :=
  Relation.TransGen fun i p => (s.scope i).parent = some p

/-- The lease of a scope above one that runs. -/
def AboveRunning (s : Store) (r : Ref) : Prop :=
  ∃ i j, (s.scope i).released = false ∧ s.Below i j ∧ (s.scope j).lease = some r

/-- The lease of the scope is not alive, or no path leads to it from outside or from above a scope
    that runs. -/
def Unreachable (s : Store) (held : List Ref) (i : ScopeId) : Prop :=
  (∀ r, (s.scope i).lease = some r → ¬ s.Alive held r) ∨
    ∃ r, (s.scope i).lease = some r ∧ s.Alive held r ∧
      ∀ root, s.Outside held root ∨ s.AboveRunning root → ¬ s.Path held root r

/-! ## In the settled store -/

def OpenAbove (s : Store) (r : Ref) : Prop :=
  ∃ i j, (s.scope i).released = false ∧ s.Below i j ∧ (s.scope j).released = false ∧
    (s.scope j).lease = some r

theorem alive_iff (hl : Linked s) : s.Alive held r ↔ r ∈ (s.settle held).cells :=
  (mem_settle hl).symm

theorem alive_cell?_iff (hl : Linked s) {c : Cell} :
    s.Alive held x ∧ s.cell? x = some c ↔ (s.settle held).cell? x = some c := by
  rw [alive_iff hl]
  constructor
  · rintro ⟨hm, hc⟩
    rw [cell?_of_mem_settle hm, hc]
  · intro hc
    have hm := mem_cells.2 ⟨c, hc⟩
    exact ⟨hm, by rw [← cell?_of_mem_settle hm, hc]⟩

theorem binds_iff : s.Binds i r ↔ r ∈ (s.scope i).refs := by
  rw [Scope.refs, mem_mapRefs]
  simp only [Binds, Value.mem_refs]

theorem candidate_iff (hl : Linked s) : s.Candidate held i r ↔
    i ∈ (s.settle held).candidates ∧ (s.settle held).liveLease? i = some r := by
  have hsame := sameScopes_settle s held
  rw [Candidate, alive_iff hl, mem_candidates, hsame.retained, liveLease?_eq_some, hsame.scope]
  constructor
  · rintro ⟨hr, hlease, hm⟩
    refine ⟨⟨hr, ?_⟩, hlease, hm⟩
    exact liveLease?_isSome.2 ⟨r, by rw [hsame.scope, hlease], hm⟩
  · rintro ⟨⟨hr, _⟩, hlease, hm⟩
    exact ⟨hr, hlease, hm⟩

/-- What a bound value refers to is alive. -/
theorem alive_of_bound (hm : r ∈ s.cells) (hr : r ∈ s.refsAt x) (hx : x ∈ (s.scope i).refs) :
    s.Alive held r := by
  obtain ⟨c, hc, hr⟩ := mem_refsAt.1 hr
  refine ⟨hm, fun hd => ?_⟩
  obtain ⟨_, _, _, hcells⟩ := hd
  obtain ⟨_, _, hscopes, _⟩ := hcells x c hc hr
  exact hscopes i hx

/-- A scope above one that runs can be reached while its lease is alive. -/
theorem not_unreachable_of_below (hopen : (s.scope i).released = false) (hal : s.Alive held r)
    (hb : s.Below i j) (hj : (s.scope j).lease = some r) : ¬ s.Unreachable held j := by
  rintro (hdead | ⟨x, hx, _, hno⟩)
  · exact hdead r hj hal
  · cases hj.symm.trans hx
    exact hno r (.inr ⟨i, j, hopen, hb, hj⟩) .refl

variable (hl : Linked s) (ho : Orderly (s.settle held))
include hl ho

/-- References that lead on are those that the walks follow. -/
theorem refers_iff : s.Refers held x y ↔
    y ∈ (s.settle held).follow (s.settle held).candidates x := by
  have ha := apart_candidates ho.places ho.leases
  rw [follow, successors_eq, List.mem_append, mem_boundAt ha, mem_linksAt]
  constructor
  · intro h
    cases h with
    | cell hx hc he => exact .inr ⟨_, (alive_cell?_iff hl).1 ⟨hx, hc⟩, mem_links.2 he⟩
    | @scope i _ _ hc hb =>
      obtain ⟨hi, hlease⟩ := (candidate_iff hl).1 hc
      exact .inl ⟨i, hi, hlease, by rw [(sameScopes_settle s held).scope]; exact binds_iff.1 hb⟩
  · rintro (⟨i, hi, hlease, hy⟩ | ⟨c, hc, hy⟩)
    · rw [(sameScopes_settle s held).scope] at hy
      exact .scope ((candidate_iff hl).2 ⟨hi, hlease⟩) (binds_iff.2 hy)
    · obtain ⟨hx, hc⟩ := (alive_cell?_iff hl).2 hc
      exact .cell hx hc (mem_links.1 hy)

theorem path_iff : s.Path held x y ↔
    Leads ((s.settle held).follow (s.settle held).candidates) x y := by
  unfold Path Leads
  have : s.Refers held = fun x y => y ∈ (s.settle held).follow (s.settle held).candidates x := by
    funext x y
    exact propext (refers_iff hl ho)
  rw [this]

theorem inspected_iff : s.Inspected held x ↔ (s.settle held).Node (s.settle held).candidates x := by
  unfold Inspected Node
  refine exists_congr fun i => ?_
  rw [← exists_and_left]
  refine exists_congr fun r => ?_
  rw [candidate_iff hl, path_iff hl ho, and_assoc]

/-- To be held outside is to be held by someone who is not in the graph. -/
theorem outside_iff : s.Outside held r ↔ (s.settle held).HeldOutside held r := by
  have hsame := sameScopes_settle s held
  constructor
  · intro h
    cases h with
    | held h => exact .inl (.inr h)
    | globalLease => exact .inl (.inl hsame.globalLease.symm)
    | @bound i _ hno hb =>
      refine .inr (.inl ⟨i, fun hi => ?_, by rw [hsame.scope]; exact binds_iff.1 hb⟩)
      obtain ⟨x, hx⟩ := Option.isSome_iff_exists.1 (mem_candidates.1 hi).2
      exact hno x ((candidate_iff hl).2 ⟨hi, hx⟩)
    | @uninspected x _ c hx hc hno he =>
      have hc := (alive_cell?_iff hl).1 ⟨hx, hc⟩
      refine .inr (.inr ⟨x, mem_refsAt.2 ⟨c, hc, ?_⟩, fun hn => ?_⟩)
      · have := mem_links.2 he
        rcases links_cases c with e | e
        · rwa [e] at this
        · simp [e] at this
      · exact absurd ((inspected_iff hl ho).2 hn) hno
    | @native x _ n v hx hc hv hr =>
      have hc := (alive_cell?_iff hl).1 ⟨hx, hc⟩
      refine .inr (.inr ⟨x, mem_refsAt.2 ⟨_, hc, mem_refs_native.2 ⟨v, hv, hr⟩⟩, fun _ hm => ?_⟩)
      obtain ⟨c, hc', hm⟩ := mem_linksAt.1 hm
      cases hc.symm.trans hc'
      cases hm
  · rintro ((h | h) | ⟨i, hi, hr⟩ | ⟨x, hr, hno⟩)
    · rw [h, hsame.globalLease]
      exact .globalLease
    · exact .held h
    · rw [hsame.scope] at hr
      exact .bound (fun x hx => hi ((candidate_iff hl).1 hx).1) (binds_iff.2 hr)
    · obtain ⟨c, hc, hr⟩ := mem_refsAt.1 hr
      obtain ⟨hx, hc'⟩ := (alive_cell?_iff hl).2 hc
      by_cases hlink : r ∈ c.links
      · refine .uninspected hx hc' (fun hin => ?_) (mem_links.1 hlink)
        exact hno ((inspected_iff hl ho).1 hin) (mem_linksAt.2 ⟨c, hc, hlink⟩)
      · -- only what native functions keep is not looked into
        cases c with
        | native n =>
          obtain ⟨v, hv, hr⟩ := mem_refs_native.1 hr
          exact .native hx hc' hv hr
        | _ => exact absurd hr hlink

omit hl in
/-- Scopes above those that run are on their chains. -/
theorem below_iff : (s.settle held).Above j ↔ ∃ i, (s.scope i).released = false ∧ s.Below i j := by
  have hscope := (sameScopes_settle s held).scope
  have hpath : ∀ {p : ScopeId} {chain : List ScopeId}, Chain (s.settle held) p chain →
      (j ∈ chain ↔ Relation.ReflTransGen (fun i p => (s.scope i).parent = some p) p j) := by
    intro p chain hc
    constructor
    · intro hj
      induction hc with
      | top => cases List.mem_singleton.1 hj; exact .refl
      | under hp _ ih =>
        rcases List.mem_cons.1 hj with rfl | hj
        · exact .refl
        · exact .head (hscope _ ▸ hp) (ih hj)
    · intro hj
      induction hj with
      | refl => exact hc.head_mem
      | tail _ hp ih => exact hc.parent_mem ih (by rw [hscope, hp])
  constructor
  · rintro ⟨i, p, chain, hopen, hp, hc, hj⟩
    rw [hscope] at hopen hp
    exact ⟨i, hopen, .head' hp ((hpath hc).1 hj)⟩
  · rintro ⟨i, hopen, hb⟩
    obtain ⟨p, hp, hj⟩ := Relation.TransGen.head'_iff.1 hb
    have hopen' : ((s.settle held).scope i).released = false := by rw [hscope, hopen]
    have hp' : ((s.settle held).scope i).parent = some p := by rw [hscope, hp]
    obtain ⟨chain, hc⟩ := ho.rooted p (ho.upward i p (.inl hopen') hp')
    exact ⟨i, p, chain, hopen', hp', hc, (hpath hc).2 hj⟩

omit hl in
/-- A retained scope and an open one do not share a lease. -/
theorem not_retained_of_open (hi : i ∈ s.retained) (hopen : (s.scope j).released = false)
    (hri : (s.scope i).lease = some r) (hrj : (s.scope j).lease = some r) : False := by
  have hsame := sameScopes_settle s held
  have hij : i = j :=
    ho.leases.distinct i j r (by rw [hsame.scope, hri]) (by rw [hsame.scope, hrj])
  have hrel := ((ho.places.mem_retained i).1 (hsame.retained ▸ hi)).2.1
  rw [hsame.scope, hij, hopen] at hrel
  cases hrel

omit hl in
/-- A retained scope above one that runs is where the second walk starts. -/
theorem reached_or_open_of_below (hi : (s.scope i).released = false) (hb : s.Below i j)
    (hx : (s.scope j).lease = some x) :
    (s.settle held).Reached held x ∨ s.OpenAbove x := by
  have hscope := (sameScopes_settle s held).scope
  cases hrel : (s.scope j).released with
  | false => exact .inr ⟨i, j, hi, hb, hrel, hx⟩
  | true =>
    have habove := (below_iff ho).2 ⟨i, hi, hb⟩
    obtain ⟨_, _, chain, hi', hp', hc, hj⟩ := id habove
    have hu := hc.forall_mem ho.upward (ho.upward _ _ (.inl hi') hp') j hj
    obtain ⟨hlt, hf⟩ := ho.places.lt_of_inUse hu
    have hret := (ho.places.mem_retained j).2 ⟨hlt, by rw [hscope, hrel], hf⟩
    obtain ⟨r, hr, hcand⟩ := ho.candidate_of_inUse hu hret
    have hrx := (liveLease?_eq_some.1 hr).1
    rw [hscope, hx] at hrx
    cases hrx
    exact .inl ⟨x, .inr ⟨j, hcand, habove, hr⟩, .refl⟩

/-- A reference from within the graph leads on there, and one from elsewhere into it comes from
    outside. -/
theorem reached_of_refers (hxy : s.Refers held x y)
    (hx : (s.settle held).Node (s.settle held).candidates x → (s.settle held).Reached held x)
    (hy : (s.settle held).Node (s.settle held).candidates y) : (s.settle held).Reached held y := by
  by_cases hn : (s.settle held).Node (s.settle held).candidates x
  · obtain ⟨r, hr, hlead⟩ := hx hn
    exact ⟨r, hr, hlead.tail ((refers_iff hl ho).1 hxy)⟩
  · cases hxy with
    | cell hal hc he =>
      have hout : s.Outside held y :=
        .uninspected hal hc (fun h => hn ((inspected_iff hl ho).1 h)) he
      exact ⟨y, .inl ⟨hy, (outside_iff hl ho).1 hout⟩, .refl⟩
    | scope hc _ => exact absurd ((inspected_iff hl ho).1 ⟨_, _, hc, .refl⟩) hn

/-- The lease of an open scope leads to nothing but the lease above it. -/
theorem reached_or_open_of_refers (hxy : s.Refers held x y) (hx : s.OpenAbove x) :
    (s.settle held).Reached held y ∨ s.OpenAbove y := by
  obtain ⟨i, j, hi, hb, hopen, hj⟩ := hx
  cases hxy with
  | cell hal hc he =>
    have hsame := sameScopes_settle s held
    have hm := (alive_iff hl).1 hal
    have hcell := ho.leases.isLease j x (liveLease?_eq_some.2 ⟨by rw [hsame.scope, hj], hm⟩)
    rw [cell?_of_mem_settle hm, hc, hsame.leaseAbove] at hcell
    cases hcell
    generalize hab : s.leaseAbove j = above at he
    cases he with
    | leaseAbove =>
      obtain ⟨p, hp, hlease⟩ := Option.bind_eq_some_iff.1 hab
      exact reached_or_open_of_below ho hi (hb.tail hp) hlease
  | scope hc _ =>
    obtain ⟨hret, hlease, _⟩ := hc
    exact (not_retained_of_open ho hret hopen hlease hj).elim

/-- Along a path from outside, or from above a scope that runs, everything that is in the graph is
    reached. Leases of open scopes are left out, which need not be reached themselves. -/
theorem reached_of_path {root : Ref} (hroot : s.Outside held root ∨ s.AboveRunning root)
    (hp : s.Path held root x) :
    ((s.settle held).Node (s.settle held).candidates x → (s.settle held).Reached held x) ∨
      s.OpenAbove x := by
  induction hp with
  | refl =>
    rcases hroot with hout | ⟨i, j, hi, hb, hj⟩
    · exact .inl fun hn => ⟨root, .inl ⟨hn, (outside_iff hl ho).1 hout⟩, .refl⟩
    · exact (reached_or_open_of_below ho hi hb hj).imp_left fun hr _ => hr
  | tail _ hxy ih =>
    rcases ih with ih | hopen
    · exact .inl (reached_of_refers hl ho hxy ih)
    · exact (reached_or_open_of_refers hl ho hxy hopen).imp_left fun hr _ => hr

/-- A retained scope stays unless it is unreachable. -/
theorem stays_iff (hi : i ∈ s.retained) :
    (s.settle held).Stays held i ↔ ¬ s.Unreachable held i := by
  have hsame := sameScopes_settle s held
  constructor
  · rintro ⟨r, hlive, root, hroot, hlead⟩ hun
    obtain ⟨hlease, hm⟩ := liveLease?_eq_some.1 hlive
    rw [hsame.scope] at hlease
    rcases hun with hdead | ⟨x, hx, _, hno⟩
    · exact hdead r hlease ((alive_iff hl).2 hm)
    · cases hlease.symm.trans hx
      refine hno root ?_ ((path_iff hl ho).2 hlead)
      rcases hroot with ⟨_, hout⟩ | ⟨j, _, hab, hj⟩
      · exact .inl ((outside_iff hl ho).2 hout)
      · obtain ⟨k, hk, hb⟩ := (below_iff ho).1 hab
        refine .inr ⟨k, j, hk, hb, ?_⟩
        rw [← hsame.scope]
        exact (liveLease?_eq_some.1 hj).1
  · intro hun
    simp only [Unreachable, not_or, not_forall, not_exists, not_and, not_not] at hun
    obtain ⟨⟨r, hlease, hal⟩, hpath⟩ := hun
    obtain ⟨root, hroot, hp⟩ := hpath r hlease hal
    have hm := (alive_iff hl).1 hal
    have hlive : (s.settle held).liveLease? i = some r :=
      liveLease?_eq_some.2 ⟨by rw [hsame.scope, hlease], hm⟩
    refine ⟨r, hlive, ?_⟩
    have hret : i ∈ (s.settle held).retained := hsame.retained ▸ hi
    rcases reached_of_path hl ho hroot hp with hr | ⟨_, j, _, _, hopen, hj⟩
    · exact hr ⟨i, mem_candidates.2 ⟨hret, by simp [hlive]⟩, r, hlive, .refl⟩
    · exact (not_retained_of_open ho hi hopen hlease hj).elim

end Store

namespace Holding

variable {h : Holding}

/-- In disciplined hands a collection frees the retained scopes that are unreachable, and no
    others. -/
theorem collect_frees_unreachable (hr : Reach true h) (i : ScopeId) :
    i ∈ (h.store.collect h.held).free ↔
      i ∈ h.store.free ∨ i ∈ h.store.retained ∧ h.store.Unreachable h.held i := by
  have hi := reach_inv hr
  have hsame := sameScopes_settle h.store h.held
  rw [(collects_collect hi.settled).mem_free, hsame.free, hsame.retained]
  refine or_congr_right (and_congr_right fun hret => ?_)
  rw [stays_iff hi.linked hi.settled hret, not_not]

def keeper (lease : Ref) : Cell := .classDef ⟨"K", ∅, [], some lease, true⟩

/-- Two scopes bind a class that keeps its own scope. To one there is a handle, and the other is
    freed. -/
theorem collect_frees_a_circle : ∃ h : Holding, Reach true h ∧ h.store.retained = #[1, 2] ∧
    (h.store.collect h.held).free = [1] ∧ h.store.Unreachable h.held 1 ∧
    ¬ h.store.Unreachable h.held 2 := by
  have h1 : Reach true _ :=
    .step .init (.push _ 0 .function (by decide +kernel) (by decide +kernel))
  have h2 := h1.step (.capture _ 1 (by decide +kernel) (fun _ => .inl (by decide +kernel)))
  have h3 := h2.step (.make _ (keeper 1) (by decide +kernel))
  have h4 := h3.step (.declare _ 1 "k" (.type (.classRef 2)) false _ (by decide +kernel)
    (by decide +kernel) rfl)
  have h5 := h4.step (.drop _ 2 (by decide +kernel))
  have h6 := h5.step (.drop _ 1 (by decide +kernel))
  have h7 := h6.step (.release _ 1 (by decide +kernel) (by decide +kernel))
  have h8 := h7.step (.push _ 0 .function (by decide +kernel) (by decide +kernel))
  have h9 := h8.step (.capture _ 2 (by decide +kernel) (fun _ => .inl (by decide +kernel)))
  have h10 := h9.step (.make _ (keeper 3) (by decide +kernel))
  have h11 := h10.step (.declare _ 2 "k" (.type (.classRef 4)) false _ (by decide +kernel)
    (by decide +kernel) rfl)
  have h12 := h11.step (.drop _ 4 (by decide +kernel))
  have h13 := h12.step (.release _ 2 (by decide +kernel) (by decide +kernel))
  refine ⟨_, h13, by decide +kernel, by decide +kernel, ?_, fun hun => ?_⟩
  · have hfree := (collect_frees_unreachable h13 1).1 (by decide +kernel)
    exact (hfree.resolve_left (by decide +kernel)).2
  · have hfree := (collect_frees_unreachable h13 2).2 (.inr ⟨by decide +kernel, hun⟩)
    revert hfree
    decide +kernel

/-- If retained scopes may be captured that nobody holds, the place of a scope above one that runs
    can be taken by another, whose end then hides the scopes above it from a collection. -/
theorem a_scope_above_is_freed : ∃ h : Holding, Reach false h ∧
    1 ∈ h.store.retained ∧ ¬ h.store.Unreachable h.held 1 ∧ 1 ∈ (h.store.collect h.held).free := by
  have h1 : Reach false _ := .step .init (.push _ 0 .block (by decide +kernel) (by decide +kernel))
  have h2 := h1.step (.push _ 0 .block (by decide +kernel) (by decide +kernel))
  have h3 := h2.step (.push _ 2 .block (by decide +kernel) (by decide +kernel))
  have h4 := h3.step (.capture _ 3 (by decide +kernel) (by simp))
  have h5 := h4.step (.release _ 3 (by decide +kernel) (by decide +kernel))
  have h6 := h5.step (.drop _ 3 (by decide +kernel))
  have h7 := h6.step (.release _ 2 (by decide +kernel) (by decide +kernel))
  -- scope 3 is captured below a free place, which another scope takes
  have h8 := h7.step (.capture _ 3 (by decide +kernel) (by simp))
  have h9 := h8.step (.push _ 1 .block (by decide +kernel) (by decide +kernel))
  have h10 := h9.step (.push _ 3 .block (by decide +kernel) (by decide +kernel))
  have h11 := h10.step (.capture _ 1 (by decide +kernel) (by simp))
  have h12 := h11.step (.make _ (keeper 1) (by decide +kernel))
  have h13 := h12.step (.declare _ 1 "k" (.type (.classRef 7)) false _ (by decide +kernel)
    (by decide +kernel) rfl)
  have h14 := h13.step (.drop _ 7 (by decide +kernel))
  have h15 := h14.step (.drop _ 1 (by decide +kernel))
  have h16 := h15.step (.capture _ 2 (by decide +kernel) (by simp))
  have h17 := h16.step (.release _ 2 (by decide +kernel) (by decide +kernel))
  have h18 := h17.step (.drop _ 5 (by decide +kernel))
  have h19 := h18.step (.release _ 1 (by decide +kernel) (by decide +kernel))
  refine ⟨_, h19, by decide +kernel, not_unreachable_of_below (i := 4) (j := 1) (r := 1) rfl
    ?_ ?_ rfl, by decide +kernel⟩
  · exact alive_of_bound (x := 7) (i := 1) (by decide +kernel) (by decide +kernel)
      (by decide +kernel)
  · exact .tail (b := 2) (.tail (b := 3) (.single rfl) rfl) rfl

end Holding

end TinyScript

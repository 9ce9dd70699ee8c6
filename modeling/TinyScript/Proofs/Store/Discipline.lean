/-
  TinyScript.Proofs.Store.Discipline — a store in disciplined hands.

  Whoever uses a store holds handles and values outside of it. The use is disciplined (`Step`) if
  every operation names a scope that is open or retained, a scope is released only after all that
  were pushed under it, and a scope that was pushed under a released one has a handle to it until it
  is released itself. Then places are never mixed up (`Arena`).

  There is one more rule: capturing a scope and binding a name above it need a scope that is open,
  or that something still holds, or above which no scope was freed (`strict`). A retained scope that
  nobody holds any more may outlive the scopes above it. Who captures it then, or hoists a name
  through it, reaches into a freed place.
-/

import TinyScript.Proofs.Store.Leasing
import TinyScript.Proofs.Store.Releasing

namespace TinyScript

open Store

/-- A store, and what is held from outside of it: a cell once for everyone who holds it. -/
structure Holding where
  store : Store
  held : List Ref

namespace Holding

variable {h k : Holding} {i j p : ScopeId} {r : Ref}

def empty : Holding := ⟨Store.empty, []⟩

def Live (h : Holding) (i : ScopeId) : Prop := i < h.store.scopes.size ∧ i ∉ h.store.free

def HasHandle (h : Holding) (i : ScopeId) : Prop := ∃ r ∈ h.held, (h.store.scope i).lease = some r

/-- Every open scope that is under a released one has a handle to it. -/
def Anchored (h : Holding) : Prop :=
  ∀ j < h.store.scopes.size, (h.store.scope j).released = false →
    ∀ p ∈ (h.store.scope j).parent, (h.store.scope p).released = true → h.HasHandle p

def Kept (h : Holding) (i : ScopeId) : Prop := (h.store.settle h.held).InUse i

/-- No scope above this one was freed: all of them are there, and were there before the ones below
    them. A place that was used again has a younger lease. -/
def Unbroken (h : Holding) (i : ScopeId) : Prop :=
  ∃ chain, Chain h.store i chain ∧ ∀ j ∈ chain, h.Live j ∧ ∀ p ∈ (h.store.scope j).parent,
    ∀ x ∈ (h.store.scope p).lease, ∀ y ∈ (h.store.scope j).lease, x < y

def Attached (h : Holding) (i : ScopeId) : Prop := h.Kept i ∨ h.Unbroken i

instance : Decidable (h.Live i) := inferInstanceAs (Decidable (_ ∧ _))

instance : Decidable (h.HasHandle i) :=
  inferInstanceAs (Decidable (∃ r ∈ h.held, (h.store.scope i).lease = some r))

instance : Decidable h.Anchored :=
  inferInstanceAs (Decidable (∀ j < h.store.scopes.size, (h.store.scope j).released = false →
    ∀ p ∈ (h.store.scope j).parent, (h.store.scope p).released = true → h.HasHandle p))

instance : Decidable (h.Kept i) := inferInstanceAs (Decidable ((h.store.settle h.held).InUse i))

/-- What a disciplined user does. -/
inductive Step (strict : Bool) : Holding → Holding → Prop
  | push (h : Holding) (p : ScopeId) (kind : ScopeKind) : h.Live p →
    ((h.store.scope p).released = true → h.HasHandle p) →
    Step strict h ⟨(h.store.push p kind).2, h.held⟩
  | capture (h : Holding) (i : ScopeId) : h.Live i → (strict = true → h.Attached i) →
    Step strict h ⟨((h.store.settle h.held).capture i).2,
      ((h.store.settle h.held).capture i).1 :: h.held⟩
  /-- Makes a value of others that are held. -/
  | make (h : Holding) (c : Cell) : (∀ r ∈ c.refs, r ∈ h.held) →
    Step strict h ⟨(h.store.alloc c).2, (h.store.alloc c).1 :: h.held⟩
  /-- Holds something once more that is still there. -/
  | hold (h : Holding) (r : Ref) : r ∈ (h.store.settle h.held).cells →
    Step strict h ⟨h.store, r :: h.held⟩
  /-- Lets go of a handle or a value. -/
  | drop (h : Holding) (r : Ref) : Anchored ⟨h.store, h.held.erase r⟩ →
    Step strict h ⟨h.store, h.held.erase r⟩
  | declare (h : Holding) (i : ScopeId) (name : String) (v : Value) (constant : Bool) (c : Change) :
    h.Live i → (∀ r ∈ v.refs, r ∈ h.held) → h.store.declare i name v constant = .ok c →
    Step strict h ⟨h.store.apply c, h.held⟩
  | declareVar (h : Holding) (i : ScopeId) (name : String) (v : Value) (c : Change) :
    h.Live i → (strict = true → h.Attached i) → (∀ r ∈ v.refs, r ∈ h.held) →
    h.store.declareVar i name v = .ok c → Step strict h ⟨h.store.apply c, h.held⟩
  | assign (h : Holding) (i : ScopeId) (name : String) (v : Value) (c : Change) :
    h.Live i → (∀ r ∈ v.refs, r ∈ h.held) → h.store.assign i name v = .ok c →
    Step strict h ⟨h.store.apply c, h.held⟩
  /-- Changes an array or an object. -/
  | change (h : Holding) (c : Change) : (∀ i name b, c ≠ .bind i name b) →
    (∀ r ∈ putBy c, r ∈ h.held) → Step strict h ⟨h.store.apply c, h.held⟩
  | release (h : Holding) (i : ScopeId) : h.Live i →
    (∀ j < h.store.scopes.size, (h.store.scope j).parent = some i →
      (h.store.scope j).released = true) →
    Step strict h ⟨h.store.release h.held i, h.held⟩
  | collect (h : Holding) : Step strict h ⟨h.store.collect h.held, h.held⟩

inductive Reach (strict : Bool) : Holding → Prop
  | init : Reach strict empty
  | step {h k : Holding} : Reach strict h → Step strict h k → Reach strict k

/-! ## What disciplined use keeps -/

structure Inv (h : Holding) : Prop where
  orderly : Orderly h.store
  linked : Linked h.store
  limits : Limits h.store
  anchored : h.Anchored
  /-- What is held is there. -/
  present : ∀ r ∈ h.held, r ∈ h.store.cells

theorem inv_empty : Inv empty := by
  refine ⟨orderly_empty, linked_empty, limits_empty, fun j _ _ p hp => ?_, fun r hr => ?_⟩
  · have hp : (Store.empty.scope j).parent = some p := hp
    rw [parent_empty] at hp
    cases hp
  · cases hr

namespace Inv

variable (hi : Inv h)
include hi

/-- A scope above an open one is open, or it has a handle. -/
theorem anchor (ho : (h.store.scope j).released = false) (hp : (h.store.scope j).parent = some p) :
    (h.store.scope p).released = false ∨ h.HasHandle p := by
  cases hrel : (h.store.scope p).released with
  | false => exact .inl rfl
  | true => exact .inr (hi.anchored j (hi.orderly.places.lt_of_open ho).1 ho p hp hrel)

theorem inUse_of_handle (hh : h.HasHandle i) : h.Kept i := by
  obtain ⟨r, hr, hl⟩ := hh
  refine .inr (liveLease?_isSome.2 ⟨r, ?_, mem_settle_of_held (hi.present r hr) (.inr hr)⟩)
  rw [(sameScopes_settle h.store h.held).scope, hl]

/-- Settling leaves the leases above open scopes, because they have handles. -/
theorem settled : Orderly (h.store.settle h.held) := by
  refine hi.orderly.settle fun j p ho hp => ?_
  rcases hi.anchor ho hp with hopen | hh
  · exact .inl (by rw [(sameScopes_settle h.store h.held).scope, hopen])
  · exact hi.inUse_of_handle hh

theorem present_settled (hr : r ∈ h.held) : r ∈ (h.store.settle h.held).cells :=
  mem_settle_of_held (hi.present r hr) (.inr hr)

/-- A scope is pushed under one in use. -/
theorem inUse_of_pushed (hh : (h.store.scope p).released = true → h.HasHandle p) :
    h.store.InUse p := by
  cases hrel : (h.store.scope p).released with
  | false => exact .inl hrel
  | true => exact inUse_of_settle (hi.inUse_of_handle (hh hrel))

end Inv

theorem anchored_of (ha : ∀ j p, (h.store.scope j).released = false →
    (h.store.scope j).parent = some p → (h.store.scope p).released = false ∨ h.HasHandle p) :
    h.Anchored := by
  intro j _ ho p hp hrel
  rcases ha j p ho hp with hopen | hh
  · simp [hrel] at hopen
  · exact hh

theorem HasHandle.mono {held : List Ref} (hh : h.HasHandle i) (hsub : ∀ r ∈ h.held, r ∈ held)
    {t : Store} (hl : (t.scope i).lease = (h.store.scope i).lease) :
    HasHandle ⟨t, held⟩ i := by
  obtain ⟨r, hr, he⟩ := hh
  exact ⟨r, hsub r hr, hl.trans he⟩

/-! ## One step -/

/-- Working on cells and bindings keeps everything, if what is held is there. -/
theorem Inv.sameFrame (hi : Inv h) {t : Store} (hf : SameFrame h.store t) (hl : Linked t)
    {held : List Ref} (hsub : ∀ r ∈ h.held, r ∈ held) (hpres : ∀ r ∈ held, r ∈ t.cells) :
    Inv ⟨t, held⟩ := by
  refine ⟨hf.orderly hi.orderly, hl, hf.limits hi.limits, anchored_of fun j p ho hp => ?_, hpres⟩
  have ho : (t.scope j).released = false := ho
  have hp : (t.scope j).parent = some p := hp
  rw [hf.released] at ho
  rw [hf.parent] at hp
  rcases hi.anchor ho hp with hopen | hh
  · exact .inl ((hf.released p).trans hopen)
  · exact .inr (hh.mono hsub (hf.lease p))

/-- Changes of what is bound or contained keep everything. -/
theorem Inv.apply (hi : Inv h) (c : Change)
    (hc : ∀ i name b, c = .bind i name b → h.Live i) (hv : ∀ r ∈ putBy c, r ∈ h.held) :
    Inv ⟨h.store.apply c, h.held⟩ := by
  refine hi.sameFrame (sameFrame_apply hi.orderly.leases c hc) ?_ (fun _ hr => hr) fun r hr => ?_
  · exact linked_apply hi.linked c fun r hr => hi.present r (hv r hr)
  · exact (mem_cells_apply _ c).2 (hi.present r hr)

theorem declare_eq {s : Store} {name : String} {v : Value} {constant : Bool} {c : Change}
    (h : s.declare i name v constant = .ok c) : c = .bind i name ⟨v, constant⟩ := by
  unfold declare at h
  split at h
  · cases h
  · cases h
    rfl

/-- A new value goes to a scope that binds the name, and no free place binds any. -/
theorem assign_eq {s : Store} {name : String} {v : Value} {c : Change} (hp : Places s)
    (h : s.assign i name v = .ok c) :
    ∃ j, c = .bind j name ⟨v, false⟩ ∧ j < s.scopes.size ∧ j ∉ s.free := by
  unfold assign at h
  split at h
  next => cases h
  next j hj =>
    have hhas : (s.scope j).bindings.has name = true := by
      unfold binder? at hj
      simpa using List.find?_some hj
    have hlive : j < s.scopes.size ∧ j ∉ s.free := by
      refine ⟨?_, fun hf => ?_⟩
      · by_contra hlt
        rw [scope_of_ge (Nat.not_lt.1 hlt)] at hhas
        cases hhas
      · rw [hp.vacant j hf] at hhas
        cases hhas
    split at h
    · cases h
    · cases h
      exact ⟨j, rfl, hlive⟩

/-- A name is hoisted along the chain. -/
theorem hoistTarget_mem {s : Store} (hc : Chain s i (s.chain i)) : s.hoistTarget i ∈ s.chain i := by
  show (((s.chain i).find? fun j => (s.scope j).kind ≠ .block).orElse fun _ =>
    (s.chain i).getLast?).getD i ∈ s.chain i
  cases hf : (s.chain i).find? fun j => (s.scope j).kind ≠ .block with
  | some j => exact List.mem_of_find?_eq_some hf
  | none =>
    obtain ⟨top, hl, _⟩ := hc.getLast?_parent
    simpa [hl] using List.mem_of_getLast? hl

/-- The scopes above an attached one are there. -/
theorem Attached.exists_chain (ha : h.Attached i) (hi : Inv h) :
    ∃ chain, Chain h.store i chain ∧ ∀ j ∈ chain, h.Live j := by
  rcases ha with hk | ⟨chain, hc, hlive⟩
  · obtain ⟨chain, hc, hu⟩ := hi.orderly.chain_inUse (inUse_of_settle hk)
    exact ⟨chain, hc, fun j hj => hi.orderly.places.lt_of_inUse (hu j hj)⟩
  · exact ⟨chain, hc, fun j hj => (hlive j hj).1⟩

/-- Names are hoisted from it to a scope that is there. -/
theorem Attached.live_hoistTarget (ha : h.Attached i) (hi : Inv h) :
    h.Live (h.store.hoistTarget i) := by
  obtain ⟨chain, hc, hlive⟩ := ha.exists_chain hi
  have he := hc.chain_eq fun j hj => (hlive j hj).1
  rw [← he] at hc hlive
  exact hlive _ (hoistTarget_mem hc)

/-- Capturing it gives leases along the chain. -/
theorem Attached.capture_gives (ha : h.Attached i) (hi : Inv h) :
    ∃ chain, Chain (h.store.settle h.held) i chain ∧
      ((h.store.settle h.held).scope i).lease = some ((h.store.settle h.held).capture i).1 ∧
      GivesLeases (h.store.settle h.held) ((h.store.settle h.held).capture i).2 chain := by
  have hsame := sameScopes_settle h.store h.held
  obtain ⟨chain, hc, hlive⟩ := ha.exists_chain hi
  have hc : Chain (h.store.settle h.held) i chain := hc.congr fun j _ => by rw [hsame.scope]
  refine ⟨chain, hc, hc.capture_gives hi.settled fun j hj => ?_⟩
  rw [hsame.size, hsame.free]
  exact hlive j hj

theorem Inv.push (hi : Inv h) (kind : ScopeKind)
    (hh : (h.store.scope p).released = true → h.HasHandle p) :
    Inv ⟨(h.store.push p kind).2, h.held⟩ := by
  have hpush := pushes_push h.store p kind hi.orderly.places.freeLt
  generalize (h.store.push p kind).1 = i, (h.store.push p kind).2 = t at hpush
  have hup : (h.store.scope p).released = false ∨ h.HasHandle p := by
    cases hrel : (h.store.scope p).released with
    | false => exact .inl rfl
    | true => exact .inr (hh hrel)
  have huse := hi.inUse_of_pushed hh
  refine ⟨hpush.orderly hi.orderly huse, hpush.linked hi.linked, hpush.limits hi.limits,
    anchored_of fun j q ho hq => ?_, fun r hr => ?_⟩
  · have hsame : ∀ k, h.store.InUse k → t.scope k = h.store.scope k := fun k hk =>
      hpush.scope_of_ne (hpush.ne_of_inUse hi.orderly.places hk)
    have ho : (t.scope j).released = false := ho
    have hq : (t.scope j).parent = some q := hq
    by_cases hj : j = i
    · rw [hj, hpush.scope_self] at hq
      cases hq
      rcases hup with hopen | hh
      · exact .inl ((congrArg Scope.released (hsame _ huse)).trans hopen)
      · exact .inr (hh.mono (fun _ hr => hr) (congrArg Scope.lease (hsame _ huse)))
    · rw [hpush.scope_of_ne hj] at ho hq
      have hq' := hsame q (hi.orderly.upward j q (.inl ho) hq)
      rcases hi.anchor ho hq with hopen | hh
      · exact .inl ((congrArg Scope.released hq').trans hopen)
      · exact .inr (hh.mono (fun _ hr => hr) (congrArg Scope.lease hq'))
  · show r ∈ t.cells
    rw [hpush.cells]
    exact hi.present r hr

theorem Inv.capture (hi : Inv h) (ha : h.Attached i) :
    Inv ⟨((h.store.settle h.held).capture i).2,
      ((h.store.settle h.held).capture i).1 :: h.held⟩ := by
  have hsame := sameScopes_settle h.store h.held
  obtain ⟨chain, hc, hlease, hg⟩ := ha.capture_gives hi
  generalize ((h.store.settle h.held).capture i).1 = r, ((h.store.settle h.held).capture i).2 = t
    at hlease hg
  have hscope : ∀ j, t.scope j = h.store.scope j := fun j =>
    (hg.same.scope j).trans (hsame.scope j)
  refine ⟨hg.orderly hi.settled hc, hg.linked (linked_settle hi.linked _) hc,
    hg.same.limits (hsame.limits hi.limits), anchored_of fun j p ho hp => ?_, fun q hq => ?_⟩
  · have ho : (t.scope j).released = false := ho
    have hp : (t.scope j).parent = some p := hp
    rw [hscope] at ho hp
    rcases hi.anchor ho hp with hopen | hh
    · exact .inl ((congrArg Scope.released (hscope p)).trans hopen)
    · exact .inr (hh.mono (fun _ hr => List.mem_cons_of_mem _ hr) (congrArg Scope.lease (hscope p)))
  · rcases List.mem_cons.1 hq with rfl | hq
    · obtain ⟨x, hx, hm⟩ := liveLease?_isSome.1 (hg.there i hc.head_mem)
      rw [hg.same.scope, hlease] at hx
      cases hx
      exact hm
    · exact hg.mem_cells (hi.present_settled hq)

/-- What is held is there after a collection, and handles are still to the same scopes. -/
theorem Inv.collect (hi : Inv h) : Inv ⟨h.store.collect h.held, h.held⟩ := by
  have hc := collects_collect hi.settled
  have hsame := sameScopes_settle h.store h.held
  generalize h.store.collect h.held = t at hc
  refine ⟨hc.orderly hi.settled, hc.linked (linked_settle hi.linked _), hc.limits,
    anchored_of fun j p ho hp => ?_, fun r hr => hc.mem_cells.2 (hi.present_settled hr)⟩
  have hj := hc.scope_of_inUse (i := j) (.inl ho)
  have hq := hc.scope_of_inUse (hc.upward hi.settled (i := j) (.inl ho) hp)
  have ho : (t.scope j).released = false := ho
  have hp : (t.scope j).parent = some p := hp
  rw [hsame.scope] at hj hq
  rw [hj] at ho hp
  rcases hi.anchor ho hp with hopen | hh
  · exact .inl ((congrArg Scope.released hq).trans hopen)
  · exact .inr (hh.mono (fun _ hr => hr) (congrArg Scope.lease hq))

theorem Inv.release (hi : Inv h) (hbelow : ∀ j < h.store.scopes.size,
    (h.store.scope j).parent = some i → (h.store.scope j).released = true) :
    Inv ⟨h.store.release h.held i, h.held⟩ := by
  have hbelow' : ∀ j, (h.store.scope j).released = false → (h.store.scope j).parent ≠ some i := by
    intro j ho hp
    have := hbelow j (hi.orderly.places.lt_of_open ho).1 hp
    simp [ho] at this
  obtain ⟨horder, hlinked, hlimits⟩ := hi.orderly.release hi.linked hi.limits hi.settled hbelow'
  by_cases hrel : (h.store.scope i).released = true
  · rwa [release_of_released h.held hrel]
  have hopen : (h.store.scope i).released = false := by simpa using hrel
  refine ⟨horder, hlinked, hlimits, anchored_of fun j p ho hp => ?_, fun r hr => ?_⟩
  · -- neither an open scope nor the one above it was touched
    have hj := release_scope hi.settled hi.linked hopen (j := j) (.inl ho)
    have hq := release_scope hi.settled hi.linked hopen (horder.upward j p (.inl ho) hp)
    have ho : ((h.store.release h.held i).scope j).released = false := ho
    have hp : ((h.store.release h.held i).scope j).parent = some p := hp
    have hji : j ≠ i := by
      intro e
      rw [if_pos e] at hj
      simp [hj] at ho
    rw [if_neg hji] at hj
    rw [hj] at ho hp
    have hpi : p ≠ i := fun e => hbelow' j ho (e ▸ hp)
    rw [if_neg hpi] at hq
    rcases hi.anchor ho hp with hopen | hh
    · exact .inl ((congrArg Scope.released hq).trans hopen)
    · exact .inr (hh.mono (fun _ hr => hr) (congrArg Scope.lease hq))
  · exact mem_cells_release hi.settled hi.linked hopen (hi.present_settled hr)

theorem step_inv (hi : Inv h) (hs : Step true h k) : Inv k := by
  cases hs with
  | push p kind _ hh => exact hi.push kind hh
  | capture i _ hk => exact hi.capture (hk rfl)
  | make c hc =>
    have hf := sameFrame_alloc hi.orderly.leases c
    have hkeep : ∀ r ∈ h.store.cells, r ∈ (h.store.alloc c).2.cells := by
      intro r hr
      obtain ⟨d, hd⟩ := mem_cells.1 hr
      have hne := Nat.ne_of_lt (hi.orderly.leases.cellLt r hr)
      exact mem_cells.2 ⟨d, by rw [cell?_alloc, if_neg hne, hd]⟩
    refine hi.sameFrame hf (linked_alloc hi.linked fun r hr => hi.present r (hc r hr))
      (fun _ hr => List.mem_cons_of_mem _ hr) fun r hr => ?_
    rcases List.mem_cons.1 hr with rfl | hr
    · exact mem_cells.2 ⟨c, by rw [cell?_alloc, alloc_fst, if_pos rfl]⟩
    · exact hkeep r (hi.present r hr)
  | hold r hr =>
    refine hi.sameFrame (.refl _) hi.linked (fun _ hq => List.mem_cons_of_mem _ hq) fun q hq => ?_
    rcases List.mem_cons.1 hq with rfl | hq
    · exact mem_cells_of_settle hr
    · exact hi.present q hq
  | drop r ha =>
    exact ⟨hi.orderly, hi.linked, hi.limits, ha,
      fun q hq => hi.present q (List.mem_of_mem_erase hq)⟩
  | declare i name v constant c hlive hv hc =>
    cases declare_eq hc
    refine hi.apply _ (fun j name b e => ?_) hv
    cases e
    exact hlive
  | declareVar i name v c _ hk hv hc =>
    cases declare_eq hc
    refine hi.apply _ (fun j name b e => ?_) hv
    cases e
    exact (hk rfl).live_hoistTarget hi
  | assign i name v c _ hv hc =>
    obtain ⟨j, rfl, hlive⟩ := assign_eq hi.orderly.places hc
    refine hi.apply _ (fun k name b e => ?_) hv
    cases e
    exact hlive
  | change c hc hv => exact hi.apply c (fun i name b e => absurd e (hc i name b)) hv
  | release i _ hbelow => exact hi.release hbelow
  | collect => exact hi.collect

theorem reach_inv (hr : Reach true h) : Inv h := by
  induction hr with
  | init => exact inv_empty
  | step _ hs ih => exact step_inv ih hs

end Holding

/-! ## The arena -/

structure Arena (s : Store) : Prop where
  free_nodup : s.free.Nodup
  free_valid : ∀ i ∈ s.free, i < s.scopes.size
  retained_nodup : s.retained.toList.Nodup
  retained_not_free : ∀ i ∈ s.retained, i ∉ s.free
  /-- Retained is what is released and not freed. -/
  mem_retained : ∀ i, i ∈ s.retained ↔
    i < s.scopes.size ∧ (s.scope i).released = true ∧ i ∉ s.free
  global_stays : Store.global ∉ s.free
  liveCount : s.liveCount = s.scopes.countP (fun scope => !scope.released) + s.retained.size
  below_limit : s.retained.size < s.limit
  least_limit : 64 ≤ s.limit
  /-- A freed place binds nothing and belongs to no chain. -/
  freed : ∀ i ∈ s.free,
    (s.scope i).bindings = ∅ ∧ (s.scope i).parent = none ∧ (s.scope i).lease = none

theorem countP_eq_sum {α : Type} (p : α → Bool) (xs : List α) :
    xs.countP p = (xs.map fun x => if p x then 1 else 0).sum := by
  induction xs with
  | nil => rfl
  | cons x xs ih => rw [List.countP_cons, ih, List.map_cons, List.sum_cons, Nat.add_comm]

/-- Every place is open, retained or free. -/
theorem Store.Places.size_eq {s : Store} (h : Places s) : s.scopes.size =
    s.scopes.countP (fun scope => !scope.released) + s.retained.size + s.free.length := by
  have hopen : s.scopes.countP (fun scope => !scope.released) =
      ((Finset.range s.scopes.size).filter fun i => ¬ (s.scope i).released = true).card := by
    rw [Finset.card_filter, ← Array.countP_toList, countP_eq_sum, sum_scopes]
    refine Finset.sum_congr rfl fun i _ => ?_
    show (if (!(s.scope i).released) = true then 1 else 0) = _
    simp
  have hreleased : ((Finset.range s.scopes.size).filter fun i => (s.scope i).released = true) =
      s.retained.toList.toFinset ∪ s.free.toFinset := by
    ext i
    rw [Finset.mem_filter, Finset.mem_range, Finset.mem_union, List.mem_toFinset, List.mem_toFinset,
      Array.mem_toList_iff, h.mem_retained]
    constructor
    · rintro ⟨hlt, hrel⟩
      by_cases hf : i ∈ s.free
      · exact .inr hf
      · exact .inl ⟨hlt, hrel, hf⟩
    · rintro (⟨hlt, hrel, _⟩ | hf)
      · exact ⟨hlt, hrel⟩
      · exact ⟨h.freeLt i hf, by rw [h.vacant i hf]; rfl⟩
  have hdisjoint : Disjoint s.retained.toList.toFinset s.free.toFinset := by
    rw [Finset.disjoint_left]
    intro i hr hf
    rw [List.mem_toFinset, Array.mem_toList_iff, h.mem_retained] at hr
    exact hr.2.2 (List.mem_toFinset.1 hf)
  have hcard := Finset.card_filter_add_card_filter_not (s := Finset.range s.scopes.size)
    fun i => (s.scope i).released = true
  rw [hreleased, Finset.card_union_of_disjoint hdisjoint,
    List.toFinset_card_of_nodup h.retainedNodup, List.toFinset_card_of_nodup h.freeNodup,
    Finset.card_range, ← hopen, Array.length_toList] at hcard
  omega

namespace Holding

variable {h : Holding}

/-- In disciplined hands the places of scopes are well kept. -/
theorem arena_of_disciplined (hr : Reach true h) : Arena h.store := by
  have hi := reach_inv hr
  have hp := hi.orderly.places
  refine ⟨hp.freeNodup, hp.freeLt, hp.retainedNodup, fun i hi => ((hp.mem_retained i).1 hi).2.2,
    hp.mem_retained, hp.globalStays, ?_, hi.limits.below, hi.limits.least, fun i hf => ?_⟩
  · have := hp.size_eq
    unfold liveCount
    omega
  · rw [hp.vacant i hf]
    exact ⟨rfl, rfl, rfl⟩

/-- A block in a function, captured, with both released and a block under it that came and went. -/
theorem arena_of_nested_blocks : ∃ h : Holding, Reach true h ∧
    h.store.free = [3] ∧ h.store.retained = #[2, 1] ∧ Arena h.store := by
  have h1 : Reach true _ :=
    .step .init (.push _ 0 .function (by decide +kernel) (by decide +kernel))
  have h2 := h1.step (.push _ 1 .block (by decide +kernel) (by decide +kernel))
  have h3 := h2.step (.capture _ 2 (by decide +kernel) (fun _ => .inl (by decide +kernel)))
  have h4 := h3.step (.release _ 2 (by decide +kernel) (by decide +kernel))
  have h5 := h4.step (.release _ 1 (by decide +kernel) (by decide +kernel))
  have h6 := h5.step (.push _ 2 .block (by decide +kernel) (by decide +kernel))
  have h7 := h6.step (.release _ 3 (by decide +kernel) (by decide +kernel))
  exact ⟨_, h7, by decide +kernel, by decide +kernel, arena_of_disciplined h7⟩

/-- A block is retained, its handle is dropped, and its parent, another block, is freed then. -/
theorem exists_orphaned_block : ∃ h : Holding, Reach false h ∧ h.Live 2 ∧ 1 ∈ h.store.free ∧
    h.store.declareVar 2 "x" .nil = .ok (.bind 1 "x" ⟨.nil, false⟩) ∧
    (h.store.scope 1).bindings.get? "x" = none ∧ (h.store.scope 1).kind = .block ∧
    1 < h.store.scopes.size := by
  have h1 : Reach false _ := .step .init (.push _ 0 .block (by decide +kernel) (by decide +kernel))
  have h2 := h1.step (.push _ 1 .block (by decide +kernel) (by decide +kernel))
  have h3 := h2.step (.capture _ 2 (by decide +kernel) (by simp))
  have h4 := h3.step (.release _ 2 (by decide +kernel) (by decide +kernel))
  have h5 := h4.step (.drop _ 2 (by decide +kernel))
  have h6 := h5.step (.release _ 1 (by decide +kernel) (by decide +kernel))
  exact ⟨_, h6, by decide +kernel, by decide +kernel, rfl, rfl, rfl, by decide +kernel⟩

/-- Without the last rule a name is hoisted into a freed place. -/
theorem a_retained_scope_reaches_a_freed_place :
    ∃ h : Holding, Reach false h ∧ ¬ Arena h.store := by
  obtain ⟨h, hr, hlive, hfree, hvar, _, _, hlt⟩ := exists_orphaned_block
  refine ⟨_, hr.step (.declareVar h 2 "x" .nil _ hlive (by simp) (by simp [Value.refs, Value.ref?])
    hvar), fun ha => ?_⟩
  have hc := changesScope_bind h.store "x" ⟨.nil, false⟩ hlt
  have hempty : ((h.store.bind 1 "x" ⟨.nil, false⟩).scope 1).bindings = ∅ :=
    (ha.freed 1 (hc.free ▸ hfree)).1
  have hbound := Table.get?_put_self (h.store.scope 1).bindings "x" ⟨.nil, false⟩
  rw [hc.scope, if_pos rfl] at hempty
  cases (congrArg (·.get? "x") hempty).symm.trans hbound

end Holding

end TinyScript

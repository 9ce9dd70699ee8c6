/-
  TinyScript.Proofs.Twin.Machine — two machines in step.

  The second machine does not reclaim. Both have the same control and the same frames, up to the
  places of scopes (`Stacks`), and the store of the first tracks that of the second (`Twins`).

  The stack tells which scopes are open: one for each frame that leaves a scope, and those that are
  open between runs. A scope that was pushed under a released one has a frame below that holds the
  lease of it, because a function is held while it runs. So it can be released when its turn comes.
-/

import TinyScript.Machine.Step
import TinyScript.Proofs.Twin.Making
import TinyScript.Proofs.Twin.Reclaiming

namespace TinyScript

open Store

variable {G H : Ref → Prop} {s t s' t' : Store} {i j p q prev prev' : ScopeId}
  {base opened : List ScopeId} {stack stack' : List Frame} {kept : List Ref} {session : Option Ref}
  {kind : ScopeKind}

/-- Frames that leave no scope. Those of calls have a lease of the scope that the function was made
    in, and those that write texts hold what they still have to write. -/
def Frame.Plain (s : Store) : Frame → Prop
  | .exit (.scope _) | .exit (.session _) => False
  | .exit (.call f _ _) => IsLease s f.closure
  | .text (.parts _ _ held _ _ todo _ _) => todo.map (·.2) ⊆ held
  | .text (.texts _ held _ todo _) => todo ⊆ held
  | _ => True

theorem Frame.Plain.mono {f : Frame} (h : f.Plain s)
    (hlease : ∀ q ∈ f.refs, IsLease s q → IsLease s' q) : f.Plain s' := by
  cases f with
  | exit f =>
    cases f with
    | call f held pos => exact hlease _ List.mem_cons_self h
    | _ => exact h
  | text f => cases f <;> exact h
  | _ => trivial

abbrev stackRefs (stack : List Frame) : List Ref := stack.flatMap Frame.refs

theorem good_held {m : Machine} : Good G m.held ↔ G m.objectClass ∧ Good G m.session.toList ∧
    Good G m.modules.values ∧ Good G m.kept ∧ Good G m.control.refs ∧
    Good G (stackRefs m.stack) := by
  simp [Machine.held, good_cons, good_append]

def Base (s : Store) (session : Option Ref) (base : List ScopeId) : Prop :=
  match session with
  | none => base = [Store.global]
  | some lease => ∃ i, (s.scope i).lease = some lease ∧ (s.scope i).parent = some Store.global ∧
    base = [i, Store.global]

/-- The stacks have the same frames, up to the places of scopes, while these scopes are open, the
    last one first, and the machines run in `i` and `j`. -/
inductive Stacks (G : Ref → Prop) (s t : Store) (base : List ScopeId) :
    List ScopeId → ScopeId → ScopeId → List Frame → List Frame → Prop
  | nil : Stacks G s t base base Store.global Store.global [] []
  /-- The scope above was open, or someone further down holds its lease. -/
  | scope {opened : List ScopeId} {i j p prev prev' : ScopeId} {stack stack' : List Frame} :
    Twin G s t i j → (s.scope i).parent = some p →
    (p ∈ opened ∨ ∃ r ∈ stackRefs stack, (s.scope p).lease = some r) →
    Stacks G s t base opened prev prev' stack stack' →
    Stacks G s t base (i :: opened) i j (.exit (.scope prev) :: stack)
      (.exit (.scope prev') :: stack')
  | session {opened : List ScopeId} {i j prev prev' : ScopeId} {stack stack' : List Frame} :
    Twin G s t i j → i ∈ base → Stacks G s t base opened prev prev' stack stack' →
    Stacks G s t base opened i j (.exit (.session prev) :: stack) (.exit (.session prev') :: stack')
  | frame {opened : List ScopeId} {i j : ScopeId} {f : Frame} {stack stack' : List Frame} :
    f.Plain s → Good G f.refs → Stacks G s t base opened i j stack stack' →
    Stacks G s t base opened i j (f :: stack) (f :: stack')

namespace Stacks

theorem twin (h : Stacks G s t base opened i j stack stack') (ht : Tracks G s t) :
    Twin G s t i j := by
  induction h with
  | nil => exact ht.twin_global
  | scope hij => exact hij
  | session hij => exact hij
  | frame _ _ _ ih => exact ih

/-- With nothing on the stack both machines are in the global scope. -/
theorem of_nil (h : Stacks G s t base opened i j [] stack') :
    opened = base ∧ i = Store.global ∧ j = Store.global ∧ stack' = [] := by
  cases h
  exact ⟨rfl, rfl, rfl, rfl⟩

/-- What a frame that leaves a scope says. -/
theorem of_scope (h : Stacks G s t base opened i j (.exit (.scope prev) :: stack)
    (.exit (.scope prev') :: stack')) :
    ∃ rest, opened = i :: rest ∧ Twin G s t i j ∧
      Stacks G s t base rest prev prev' stack stack' := by
  cases h with
  | frame hplain => exact absurd hplain id
  | scope hij _ _ hs => exact ⟨_, rfl, hij, hs⟩

/-- The other machine has a frame of the same kind on top. -/
theorem of_cons {f : Frame} (h : Stacks G s t base opened i j (f :: stack) stack') :
    ∃ f' rest, stack' = f' :: rest ∧
      ((∃ prev prev', f = .exit (.scope prev) ∧ f' = .exit (.scope prev')) ∨
        (∃ prev prev', f = .exit (.session prev) ∧ f' = .exit (.session prev') ∧
          Stacks G s t base opened prev prev' stack rest) ∨
        f.Plain s ∧ f' = f ∧ Good G f.refs ∧ Stacks G s t base opened i j stack rest) := by
  cases h with
  | scope => exact ⟨_, _, rfl, .inl ⟨_, _, rfl, rfl⟩⟩
  | session _ _ hs => exact ⟨_, _, rfl, .inr (.inl ⟨_, _, rfl, rfl, hs⟩)⟩
  | frame hf hg hs => exact ⟨_, _, rfl, .inr (.inr ⟨hf, rfl, hg, hs⟩)⟩

theorem base_sub (h : Stacks G s t base opened i j stack stack') : ∀ k ∈ base, k ∈ opened := by
  induction h with
  | nil => exact fun _ hk => hk
  | scope _ _ _ _ ih => exact fun k hk => List.mem_cons_of_mem _ (ih k hk)
  | session _ _ _ ih => exact ih
  | frame _ _ _ ih => exact ih

theorem mem_opened (h : Stacks G s t base opened i j stack stack') (hg : Store.global ∈ base) :
    i ∈ opened := by
  induction h with
  | nil => exact hg
  | scope => exact List.mem_cons_self
  | session _ hi h => exact h.base_sub _ hi
  | frame _ _ _ ih => exact ih

theorem good (h : Stacks G s t base opened i j stack stack') : Good G (stackRefs stack) := by
  induction h with
  | nil => exact good_nil
  | scope _ _ _ _ ih => exact ih
  | session _ _ _ ih => exact ih
  | frame _ hf _ ih => exact good_append.2 ⟨hf, ih⟩

/-- A function that runs has a lease of the scope that it was made in. -/
theorem called (h : Stacks G s t base opened i j stack stack') {f : Function} {held : List Value}
    {pos : Text.Position} (hf : Frame.exit (.call f held pos) ∈ stack) :
    IsLease s f.closure ∧ G f.closure := by
  induction h with
  | nil => cases hf
  | scope _ _ _ _ ih => exact ih ((List.mem_cons.1 hf).resolve_left fun he => nomatch he)
  | session _ _ _ ih => exact ih ((List.mem_cons.1 hf).resolve_left fun he => nomatch he)
  | frame hplain hgood _ ih =>
    rcases List.mem_cons.1 hf with rfl | hf
    · exact ⟨hplain, hgood _ List.mem_cons_self⟩
    · exact ih hf

/-- Above every scope on the stack is an open one, or one that the stack holds a lease of. -/
theorem anchor (h : Stacks G s t base opened i j stack stack') {k : ScopeId} (hk : k ∈ opened)
    (hb : k ∉ base) (hp : (s.scope k).parent = some p) :
    p ∈ opened ∨ ∃ r ∈ stackRefs stack, (s.scope p).lease = some r := by
  induction h with
  | nil => exact absurd hk hb
  | scope _ hq ha _ ih =>
    rcases List.mem_cons.1 hk with rfl | hk
    · cases hp.symm.trans hq
      exact ha.imp_left (List.mem_cons_of_mem _)
    · exact (ih hk).imp_left (List.mem_cons_of_mem _)
  | session _ _ _ ih => exact ih hk
  | frame _ _ _ ih =>
    rcases ih hk with ho | ⟨r, hr, hl⟩
    · exact .inl ho
    · exact .inr ⟨r, List.mem_append_right _ hr, hl⟩

/-- Stacks match as long as the open scopes are what they were, and what the frames hold is good. -/
theorem mono (h : Stacks G s t base opened i j stack stack')
    (htwin : ∀ i ∈ opened, ∀ j, Twin G s t i j → Twin H s' t' i j)
    (hparent : ∀ i ∈ opened, (s'.scope i).parent = (s.scope i).parent)
    (hlease : ∀ i ∈ opened, ∀ p, (s.scope i).parent = some p →
      (s'.scope p).lease = (s.scope p).lease)
    (hkept : ∀ q ∈ stackRefs stack, IsLease s q → IsLease s' q)
    (hgood : Good H (stackRefs stack)) : Stacks H s' t' base opened i j stack stack' := by
  induction h with
  | nil => exact .nil
  | @scope opened i j p _ _ _ _ hij hp ha _ ih =>
    have hi : i ∈ i :: opened := List.mem_cons_self
    refine .scope (htwin i hi j hij) ((hparent i hi).trans hp) ?_
      (ih (fun k hk => htwin k (List.mem_cons_of_mem _ hk))
        (fun k hk => hparent k (List.mem_cons_of_mem _ hk))
        (fun k hk => hlease k (List.mem_cons_of_mem _ hk)) hkept hgood)
    rwa [hlease i hi p hp]
  | @session _ i j _ _ _ _ hij hi hs ih =>
    exact .session (htwin i (hs.base_sub i hi) j hij) hi (ih htwin hparent hlease hkept hgood)
  | frame hf _ _ ih =>
    obtain ⟨hf', hgood⟩ := good_append.1 hgood
    obtain ⟨hkept', hkept⟩ := List.forall_mem_append.1 hkept
    exact .frame (hf.mono hkept') hf' (ih htwin hparent hlease hkept hgood)

end Stacks

structure Opened (s : Store) (opened : List ScopeId) : Prop where
  apart : opened.Pairwise fun i k => k ≠ i ∧ (s.scope k).parent ≠ some i
  open_iff : ∀ i, (s.scope i).released = false ↔ i ∈ opened

/-- The machines are in step, while the host holds these cells. The first one reclaims, the second
    does not. -/
structure Twins (kept : List Ref) (G : Ref → Prop) (m m' : Machine) : Prop where
  tracks : Tracks G m.store m'.store
  modules : m'.modules = m.modules
  session : m'.session = m.session
  objectClass : m'.objectClass = m.objectClass
  maxDepth : m'.maxDepth = m.maxDepth
  keeping : m.kept = kept
  kept : m'.kept = m.kept
  control : m'.control = m.control
  depth : m'.depth = m.depth
  loading : m'.loading = m.loading
  reclaims : m.reclaims = true
  keeps : m'.reclaims = false
  goodModules : Good G m.modules.values
  goodSession : Good G m.session.toList
  goodClass : G m.objectClass
  goodKept : Good G m.kept
  goodControl : Good G m.control.refs
  frames : ∃ base opened, Base m.store m.session base ∧ Opened m.store opened ∧
    Stacks G m.store m'.store base opened m.scope m'.scope m.stack m'.stack

def InStep (kept : List Ref) (m m' : Machine) : Prop := ∃ G, Twins kept G m m'

def BothMade {α : Type} (kept : List Ref) (refs : α → List Ref) (G : Ref → Prop)
    (x y : α × Machine) : Prop :=
  y.1 = x.1 ∧ ∃ H, Twins kept H x.2 y.2 ∧ Good H (refs x.1) ∧ ∀ r, G r → H r

theorem Base.global_mem (h : Base s session base) : Store.global ∈ base := by
  cases session with
  | none =>
    cases (h : base = [Store.global])
    exact List.mem_cons_self
  | some lease =>
    obtain ⟨i, _, _, rfl⟩ := h
    simp

/-- The scopes that are open between runs stay so, if neither lease nor parent changes. -/
theorem Base.mono (h : Base s session base)
    (hs : ∀ i ∈ base, (s'.scope i).lease = (s.scope i).lease ∧
      (s'.scope i).parent = (s.scope i).parent) : Base s' session base := by
  cases session with
  | none => exact h
  | some lease =>
    obtain ⟨i, hl, hp, rfl⟩ := h
    obtain ⟨hl', hp'⟩ := hs i List.mem_cons_self
    exact ⟨i, hl'.trans hl, hp'.trans hp, rfl⟩

theorem Opened.sameShape (h : Opened s opened) (hs : SameShape s s') : Opened s' opened := by
  refine ⟨h.apart.imp fun {i k} hk => ⟨hk.1, ?_⟩, fun i => (hs.released i) ▸ h.open_iff i⟩
  rw [hs.parent k]
  exact hk.2

namespace Twins

variable {m m' : Machine}

section

variable (h : Twins kept G m m')
include h

theorem twin : Twin G m.store m'.store m.scope m'.scope := by
  obtain ⟨_, _, _, _, hs⟩ := h.frames
  exact hs.twin h.tracks

/-- The current scope is open. -/
theorem scope_open : (m.store.scope m.scope).released = false := by
  obtain ⟨_, _, hb, ho, hs⟩ := h.frames
  exact (ho.open_iff _).2 (hs.mem_opened hb.global_mem)

theorem global_open : (m.store.scope Store.global).released = false := by
  obtain ⟨_, _, hb, ho, hs⟩ := h.frames
  exact (ho.open_iff _).2 (hs.base_sub _ hb.global_mem)

theorem goodHeld : Good G m.held := by
  obtain ⟨_, _, _, _, hs⟩ := h.frames
  exact good_held.2
    ⟨h.goodClass, h.goodSession, h.goodModules, h.goodKept, h.goodControl, hs.good⟩

/-- Whatever is above an open scope is open, or its lease is held. -/
theorem anchored : Anchored m.store m.held := by
  obtain ⟨base, opened, hb, ho, hs⟩ := h.frames
  intro i p hi hp
  by_cases hbase : i ∈ base
  · -- above the scope of the session is the global one, which has none above it
    refine .inl ?_
    have hglobal : p = Store.global := by
      have htop := (h.tracks.orderly.places.top Store.global h.tracks.orderly.places.globalLt
        h.tracks.orderly.places.globalStays).2 rfl
      cases hse : m.session with
      | none =>
        rw [hse] at hb
        cases (hb : base = [Store.global])
        cases List.mem_singleton.1 hbase
        simp [htop] at hp
      | some lease =>
        rw [hse] at hb
        obtain ⟨k, _, hk, rfl⟩ := hb
        rcases List.mem_cons.1 hbase with rfl | hbase
        · exact Option.some.inj (hp.symm.trans hk)
        · cases List.mem_singleton.1 hbase
          simp [htop] at hp
    rw [hglobal]
    exact h.global_open
  · rcases hs.anchor ((ho.open_iff i).1 hi) hbase hp with hp | ⟨r, hr, hl⟩
    · exact .inl ((ho.open_iff p).2 hp)
    · exact .inr ⟨r, List.mem_append_right _ hr, hl⟩

end

/-! ## Control and frames -/

theorem controlled (h : Twins kept G m m') {c : Control} (hc : Good G c.refs) :
    Twins kept G { m with control := c } { m' with control := c } :=
  { h with control := rfl, goodControl := hc }

theorem giving (h : Twins kept G m m') {r : Result} (hr : Good G r.refs) :
    Twins kept G (m.giving r) (m'.giving r) :=
  h.controlled hr

theorem give (h : Twins kept G m m') {v : Value} (hv : Good G v.refs) :
    Twins kept G (m.give v) (m'.give v) :=
  h.controlled hv

theorem fault (h : Twins kept G m m') (f : Fault) : Twins kept G (m.fault f) (m'.fault f) :=
  h.controlled good_nil

theorem fail (h : Twins kept G m m') (pos : Text.Position) (f : Failure) :
    Twins kept G (m.fail pos f) (m'.fail pos f) :=
  h.controlled good_nil

theorem push (h : Twins kept G m m') {f : Frame} (hf : f.Plain m.store) (hg : Good G f.refs) :
    Twins kept G (m.push f) (m'.push f) := by
  obtain ⟨base, opened, hb, ho, hs⟩ := h.frames
  exact { h with frames := ⟨base, opened, hb, ho, .frame hf hg hs⟩ }

theorem deeper (h : Twins kept G m m') (f : Nat → Nat) :
    Twins kept G { m with depth := f m.depth } { m' with depth := f m'.depth } :=
  { h with depth := congrArg f h.depth }

theorem loaded (h : Twins kept G m m') (f : List String → List String) :
    Twins kept G { m with loading := f m.loading } { m' with loading := f m'.loading } :=
  { h with loading := congrArg f h.loading }

/-! ## The store -/

theorem advance (h : Twins kept G m m') (ha : Advances G m.store m'.store H s' t') :
    Twins kept H { m with store := s' } { m' with store := t' } := by
  obtain ⟨base, opened, hb, ho, hs⟩ := h.frames
  exact { h with
    tracks := ha.tracks
    goodModules := ha.good h.goodModules
    goodSession := ha.good h.goodSession
    goodClass := ha.mono _ h.goodClass
    goodKept := ha.good h.goodKept
    goodControl := ha.good h.goodControl
    frames := ⟨base, opened, hb.mono fun i _ => ⟨ha.left.lease i, ha.left.parent i⟩,
      ho.sameShape ha.left, hs.mono (fun i _ j => ha.twin) (fun i _ => ha.left.parent i)
        (fun _ _ p _ => ha.left.lease p) (fun q _ => ha.isLease q) (ha.good hs.good)⟩ }

end Twins

/-! ## Scopes come -/

/-- A new scope is open before all others. -/
theorem Opened.push (ho : Opened s opened) (horder : Orderly s) (hs : Pushes s s' i p kind) :
    Opened s' (i :: opened) := by
  have hsame : ∀ {k}, s.InUse k → k ≠ i ∧ s'.scope k = s.scope k := fun hk =>
    ⟨hs.ne_of_inUse horder.places hk, hs.scope_of_ne (hs.ne_of_inUse horder.places hk)⟩
  have hopen : ∀ {k}, k ∈ opened → k ≠ i ∧ s'.scope k = s.scope k := fun hk =>
    hsame (.inl ((ho.open_iff _).2 hk))
  refine ⟨List.pairwise_cons.2 ⟨fun k hk => ⟨(hopen hk).1, fun hp => ?_⟩, ?_⟩, fun k => ?_⟩
  · rw [(hopen hk).2] at hp
    exact (hsame (horder.upward k i (.inl ((ho.open_iff k).2 hk)) hp)).1 rfl
  · refine ho.apart.imp_of_mem fun _ hk hi => ⟨hi.1, ?_⟩
    rw [(hopen hk).2]
    exact hi.2
  · rw [List.mem_cons]
    by_cases hk : k = i
    · simp [hk, hs.scope_self, Scope.fresh]
    · rw [hs.scope_of_ne hk, ho.open_iff]
      simp [hk]

theorem Stacks.push (h : Stacks G s t base opened i j stack stack') (ho : Opened s opened)
    (horder : Orderly s) (hs : Pushes s s' p q kind)
    (htwin : ∀ k l, Twin G s t k l → Twin G s' t' k l) :
    Stacks G s' t' base opened i j stack stack' := by
  have hsame : ∀ {k}, s.InUse k → s'.scope k = s.scope k := fun hk =>
    hs.scope_of_ne (hs.ne_of_inUse horder.places hk)
  have hopen : ∀ {k}, k ∈ opened → s.InUse k := fun hk => .inl ((ho.open_iff _).2 hk)
  refine h.mono (fun k _ l => htwin k l) (fun k hk => by rw [hsame (hopen hk)])
    (fun k hk p hp => by rw [hsame (horder.upward k p (hopen hk) hp)]) ?_ h.good
  rintro r _ ⟨k, above, hr⟩
  exact ⟨k, above, by rw [cell?, hs.cells]; exact hr⟩

theorem Base.push (hb : Base s session base) (h : Stacks G s t base opened i j stack stack')
    (ho : Opened s opened) (horder : Orderly s) (hs : Pushes s s' p q kind) :
    Base s' session base := by
  refine hb.mono fun k hk => ?_
  have hk : s.InUse k := .inl ((ho.open_iff k).2 (h.base_sub k hk))
  rw [hs.scope_of_ne (hs.ne_of_inUse horder.places hk)]
  exact ⟨rfl, rfl⟩

namespace Twins

variable {m m' : Machine}

/-- Both go on in a new scope, under one that is open or that the stack holds a lease of. -/
theorem enterScope (h : Twins kept G m m') (hpq : Twin G m.store m'.store p q)
    (ha : (m.store.scope p).released = false ∨
      ∃ r ∈ stackRefs m.stack, (m.store.scope p).lease = some r) (kind : ScopeKind) :
    Twins kept G (m.enterScope p kind) (m'.enterScope q kind) := by
  obtain ⟨base, opened, hb, ho, hs⟩ := h.frames
  obtain ⟨htracks, hnew, htwin⟩ := h.tracks.push hpq kind
  have horder := h.tracks.orderly
  have hpush := pushes_push m.store p kind horder.places.freeLt
  refine { h with
    tracks := htracks
    frames := ⟨base, _ :: opened, hb.push hs ho horder hpush, ho.push horder hpush,
      .scope (p := p) hnew ?_ ?_ (hs.push ho horder hpush htwin)⟩ }
  · show ((m.store.push p kind).2.scope (m.store.push p kind).1).parent = some p
    rw [hpush.scope_self]
    rfl
  · have hp : (m.store.push p kind).2.scope p = m.store.scope p :=
      hpush.scope_of_ne (hpush.ne_of_inUse horder.places (h.tracks.inUse hpq))
    rcases ha with hopen | ⟨r, hr, hl⟩
    · exact .inl ((ho.open_iff p).1 hopen)
    · exact .inr ⟨r, hr, (congrArg Scope.lease hp).trans hl⟩

/-- Both go on in a new scope under the current one. -/
theorem enterInner (h : Twins kept G m m') (kind : ScopeKind) :
    Twins kept G (m.enterScope m.scope kind) (m'.enterScope m'.scope kind) :=
  h.enterScope h.twin (.inl h.scope_open) kind

/-- Both go on in a new scope under the global one. -/
theorem enterGlobal (h : Twins kept G m m') (kind : ScopeKind) :
    Twins kept G (m.enterScope Store.global kind) (m'.enterScope Store.global kind) :=
  h.enterScope h.tracks.twin_global (.inl h.global_open) kind

end Twins

/-! ## Scopes go -/

section

variable {held : List Ref} {O : ScopeId → Prop} {v : Store} (hv : Shrinks G held O s t v)
include hv

theorem Opened.shrink (hO : ∀ k, O k ↔ k ∈ opened)
    (ha : opened.Pairwise fun i k => k ≠ i ∧ (s.scope k).parent ≠ some i) : Opened v opened := by
  refine ⟨ha.imp_of_mem fun _ hk hi => ⟨hi.1, ?_⟩, fun k => (hv.reclaims.opened k).trans (hO k)⟩
  rw [hv.reclaims.parent (.inl ((hv.reclaims.opened _).2 ((hO _).2 hk)))]
  exact hi.2

theorem Stacks.shrink (h : Stacks G s t base opened i j stack stack') (hO : ∀ k ∈ opened, O k)
    (hheld : ∀ r ∈ stackRefs stack, r ∈ held) :
    Stacks (Needed s held O) v t base opened i j stack stack' := by
  have huse : ∀ {k}, k ∈ opened → v.InUse k := fun hk =>
    .inl ((hv.reclaims.opened _).2 (hO _ hk))
  refine h.mono (fun k hk l => hv.twin k l (hO k hk)) (fun k hk => hv.reclaims.parent (huse hk))
    (fun k hk p hp => ?_) (fun q hq hl => ?_) fun r hr => .held (hheld r hr)
  · rw [← hv.reclaims.parent (huse hk)] at hp
    exact hv.reclaims.lease (hv.reclaims.orderly.upward k p (huse hk) hp)
  · obtain ⟨k, above, hl⟩ := hl
    exact ⟨k, above, (hv.reclaims.cell q (.held (hheld q hq))).trans hl⟩

theorem Base.shrink (h : Base s session base) (hO : ∀ k ∈ base, O k) :
    Base v session base := by
  refine h.mono fun k hk => ?_
  have hk : v.InUse k := .inl ((hv.reclaims.opened k).2 (hO k hk))
  exact ⟨hv.reclaims.lease hk, hv.reclaims.parent hk⟩

end

namespace Twins

variable {m m' : Machine}

/-- Both leave the current scope. The first one releases it, the second only marks it. -/
theorem leaveScope (h : Twins kept G m m') (hm : m.stack = .exit (.scope prev) :: stack)
    (hm' : m'.stack = .exit (.scope prev') :: stack') (r : Result) :
    InStep kept ({ m with stack := stack }.leave r (.scope prev))
      ({ m' with stack := stack' }.leave r (.scope prev')) := by
  have hheld : ({ m with stack := stack } : Machine).held = m.held := by
    simp [Machine.held, hm, Frame.refs, ExitFrame.refs]
  have hsub : ∀ r ∈ stackRefs stack, r ∈ m.held := by
    rw [← hheld]
    exact fun r hr => List.mem_append_right _ hr
  obtain ⟨base, opened, hb, ho, hs⟩ := h.frames
  rw [hm, hm'] at hs
  obtain ⟨opened, rfl, hij, hs⟩ := hs.of_scope
  obtain ⟨hfirst, hapart⟩ := List.pairwise_cons.1 ho.apart
  have hbelow : ∀ k, (m.store.scope k).released = false →
      (m.store.scope k).parent ≠ some m.scope := by
    intro k hk hkp
    rcases List.mem_cons.1 ((ho.open_iff k).1 hk) with rfl | hk
    · obtain ⟨x, hx, _⟩ := hij
      exact absurd (h.tracks.older m.scope m.scope x x (.inl h.scope_open) hkp hx hx)
        (Nat.lt_irrefl _)
    · exact (hfirst k hk).2 hkp
  have hO : ∀ k, (m.store.scope k).released = false ∧ k ≠ m.scope ↔ k ∈ opened := by
    intro k
    rw [ho.open_iff, List.mem_cons]
    refine ⟨fun ⟨hk, hne⟩ => hk.resolve_left hne, fun hk => ⟨.inr hk, (hfirst k hk).1⟩⟩
  have hv := h.tracks.release h.goodHeld h.anchored h.scope_open hbelow
  obtain ⟨htracks, htwin⟩ := hv.tracks.retire hij.lt
  obtain ⟨hclass, hsession, hmodules, hkept, hcontrol, _⟩ := good_held.1 fun r hr =>
    Needed.held (O := fun k => (m.store.scope k).released = false ∧ k ≠ m.scope) hr
  have hleft : ({ m with stack := stack } : Machine).leave r (.scope prev) =
      { m with stack := stack, store := m.store.release m.held m.scope, scope := prev } := by
    simp only [Machine.leave, h.reclaims, if_true, hheld]
  have hright : ({ m' with stack := stack' } : Machine).leave r (.scope prev') =
      { m' with stack := stack', store := m'.store.retire m'.scope, scope := prev' } := by
    simp [Machine.leave, h.keeps]
  rw [hleft, hright]
  refine ⟨_, { h with
    tracks := htracks
    goodModules := hmodules
    goodSession := hsession
    goodClass := hclass
    goodKept := hkept
    goodControl := hcontrol
    frames := ⟨base, opened, hb.shrink hv fun k hk => (hO k).2 (hs.base_sub k hk),
      .shrink hv hO hapart, ?_⟩ }⟩
  have hs := hs.shrink hv (fun k hk => (hO k).2 hk) hsub
  exact hs.mono (fun k _ l => (htwin k l).2) (fun _ _ => rfl) (fun _ _ _ _ => rfl)
    (fun _ _ hl => hl) hs.good

/-- The first machine collects, the second does nothing. -/
theorem collected (h : Twins kept G m m') :
    InStep kept (if m.reclaims then { m with store := m.store.collect m.held } else m)
      (if m'.reclaims then { m' with store := m'.store.collect m'.held } else m') := by
  rw [if_pos h.reclaims, if_neg (by simp [h.keeps])]
  obtain ⟨base, opened, hb, ho, hs⟩ := h.frames
  have hv := h.tracks.collect h.goodHeld h.anchored
  obtain ⟨hclass, hsession, hmodules, hkept, hcontrol, _⟩ := good_held.1 fun r hr =>
    Needed.held (O := fun k => (m.store.scope k).released = false) hr
  exact ⟨_, { h with
    tracks := hv.tracks
    goodModules := hmodules
    goodSession := hsession
    goodClass := hclass
    goodKept := hkept
    goodControl := hcontrol
    frames := ⟨base, opened, hb.shrink hv fun k hk => (ho.open_iff k).2 (hs.base_sub k hk),
      .shrink hv ho.open_iff ho.apart,
      hs.shrink hv (fun k hk => (ho.open_iff k).2 hk) fun r hr => List.mem_append_right _ hr⟩ }⟩

end Twins

end TinyScript

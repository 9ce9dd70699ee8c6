/-
  TinyScript.Proofs.Twin.Reached — no scope in use is missing.

  The states that an interpreter comes to: it is created, runs programs, sessions and texts step by
  step with whatever the host answers, and rests in between, while the host holds values that it was
  given (`Reached`). In each of them a machine that frees nothing is in step (`Reached.matched`), so
  the scopes that the script runs in, and those that its functions and classes were made in, are
  sound (`Store.Sound`): from each of them the scopes above lead to the global one, all are there,
  and each is older than the one below it. A place that was freed and used again would hold a scope
  that is younger.
-/

import TinyScript.Proofs.Twin.Resting

namespace TinyScript

open Store

/-! ## States -/

inductive State where
  /-- Between runs, while the host holds these cells. -/
  | resting (kept : List Ref) (interpreter : Interpreter)
  | running (machine : Machine)

def State.machine : State → Machine
  | resting kept i => i.ready kept (.give (.value .nil))
  | running m => m

inductive Reached (libraries : List Library) (maxDepth : Nat) : State → Prop
  | create {i : Interpreter} : Interpreter.create libraries maxDepth = .ok i →
    Reached libraries maxDepth (.resting [] i)
  /-- The host lets go of something. -/
  | forget {kept rest : List Ref} {i : Interpreter} :
    Reached libraries maxDepth (.resting kept i) → rest ⊆ kept →
    Reached libraries maxDepth (.resting rest i)
  | run {kept : List Ref} {i : Interpreter} {source file : String} {m : Machine} :
    Reached libraries maxDepth (.resting kept i) → i.start kept source file = .ok m →
    Reached libraries maxDepth (.running m)
  | session {kept : List Ref} {i : Interpreter} {source file : String} {m : Machine} :
    Reached libraries maxDepth (.resting kept i) → i.startSession kept source file = .ok m →
    Reached libraries maxDepth (.running m)
  | render {kept rest : List Ref} {i : Interpreter} {v : Value} :
    Reached libraries maxDepth (.resting kept i) → v.refs ⊆ kept → rest ⊆ kept →
    Reached libraries maxDepth (.running (i.startRender rest v))
  | next {m n : Machine} : Reached libraries maxDepth (.running m) → m.step = .next n →
    Reached libraries maxDepth (.running n)
  /-- Whatever the host answers. -/
  | ask {m : Machine} {request : Request} {resume : request.Reply → Machine}
    (reply : request.Reply) : Reached libraries maxDepth (.running m) →
    m.step = .ask request resume → Reached libraries maxDepth (.running (resume reply))
  /-- The host may hold the result. -/
  | done {m n : Machine} {r : Result} : Reached libraries maxDepth (.running m) →
    m.step = .done n r → Reached libraries maxDepth (.resting (r.refs ++ m.kept) n.toInterpreter)

/-! ## What is in order there -/

/-- The scopes from `i` upward lead to the global one. They are the ones in which names are looked
    up, none of them is free, and each is older than the one below it. -/
structure Store.Sound (s : Store) (i : ScopeId) : Prop where
  chain : Chain s i (s.chain i)
  last : (s.chain i).getLast? = some Store.global
  live : ∀ k ∈ s.chain i, k < s.scopes.size ∧ k ∉ s.free
  older : (s.chain i).IsChain fun k p =>
    ∃ a b, (s.scope k).lease = some a ∧ (s.scope p).lease = some b ∧ b < a

namespace Machine

/-- The script may still come to the cell. -/
def Reaches (m : Machine) (r : Ref) : Prop :=
  Needed m.store m.held (fun i => (m.store.scope i).released = false) r

/-- The handle of a function or class that the script may come to, or of a function that runs. -/
def HasHandle (m : Machine) (q : Ref) : Prop :=
  (∃ r c, m.Reaches r ∧ m.store.cell? r = some c ∧ q ∈ c.handles) ∨
    ∃ f held pos, Frame.exit (.call f held pos) ∈ m.stack ∧ q = f.closure

/-- Every scope that the script runs in, and every scope that it has a handle of, is sound. A handle
    is the lease of its scope. -/
structure Intact (m : Machine) : Prop where
  current : m.store.Sound m.scope
  opened : ∀ i, (m.store.scope i).released = false → m.store.Sound i
  handles : ∀ q, m.HasHandle q → ∃ i above, m.store.cell? q = some (.lease i above) ∧
    (m.store.scope i).lease = some q ∧ m.store.Sound i

end Machine

variable {libraries : List Library} {maxDepth : Nat} {kept : List Ref} {G : Ref → Prop}
  {s t : Store} {i : ScopeId} {chain : List ScopeId} {m m' : Machine} {x : State}

/-! ## Sound scopes -/

/-- Up a chain of scopes in use, each is older than the one below, and the last one is global. -/
theorem Store.Tracks.sound_chain (h : Tracks G s t) (hc : Chain s i chain) (hi : s.InUse i) :
    chain.getLast? = some Store.global ∧ chain.IsChain fun k p =>
      ∃ a b, (s.scope k).lease = some a ∧ (s.scope p).lease = some b ∧ b < a := by
  have hleased : ∀ {k}, s.InUse k → ∃ a, (s.scope k).lease = some a := fun hk =>
    Option.isSome_iff_exists.1 (h.orderly.places.leased _ (h.orderly.places.lt_of_inUse hk).1
      (h.orderly.places.lt_of_inUse hk).2)
  induction hc with
  | top hp =>
    obtain ⟨hlt, hfree⟩ := h.orderly.places.lt_of_inUse hi
    rw [(h.orderly.places.top _ hlt hfree).1 hp]
    exact ⟨rfl, .singleton _⟩
  | @under i p chain hp hc ih =>
    have hup := h.orderly.upward i p hi hp
    obtain ⟨hlast, holder⟩ := ih hup
    obtain ⟨a, ha⟩ := hleased hi
    obtain ⟨b, hb⟩ := hleased hup
    obtain ⟨above, rfl⟩ : ∃ above, chain = p :: above := by
      cases hc <;> exact ⟨_, rfl⟩
    exact ⟨by rw [List.getLast?_cons_cons, hlast],
      .cons_cons ⟨a, b, ha, hb, h.older i p a b hi hp ha hb⟩ holder⟩

theorem Store.Tracks.sound (h : Tracks G s t) (hi : s.InUse i) : s.Sound i := by
  have hc := h.orderly.chain_eq hi
  obtain ⟨hlast, holder⟩ := h.sound_chain hc hi
  exact ⟨hc, hlast, fun k hk => h.orderly.places.lt_of_inUse
    (hc.forall_mem h.orderly.upward hi k hk), holder⟩

/-- A machine that is in step with another is intact. -/
theorem InStep.intact (h : InStep kept m m') : m.Intact := by
  obtain ⟨G, h⟩ := h
  refine ⟨h.tracks.sound (.inl h.scope_open), fun i hi => h.tracks.sound (.inl hi), fun q hq => ?_⟩
  have hlease : IsLease m.store q ∧ G q := by
    rcases hq with ⟨r, c, hr, hc, hq⟩ | ⟨f, held, pos, hf, rfl⟩
    · have hr : G r := Needed.good h.tracks h.goodHeld (fun _ hi => hi) hr
      exact ⟨h.tracks.handles r c hr hc q hq,
        h.tracks.closed r c hr hc q (Cell.mem_refs_of_handles hq)⟩
    · obtain ⟨_, _, _, _, hs⟩ := h.frames
      exact hs.called hf
  obtain ⟨⟨i, above, hcell⟩, hq⟩ := hlease
  obtain ⟨c, d, hc, _, hcd⟩ := h.tracks.cell q hq
  cases hcell.symm.trans hc
  cases hcd with
  | same hno => exact absurd rfl (hno i above)
  | lease _ hi hj =>
    exact ⟨i, above, hcell, hi, h.tracks.sound (h.tracks.inUse (.of_lease hi hj hq))⟩

/-! ## Every state is matched -/

def State.Matched : State → Prop
  | resting kept i => ∃ i', AtRest kept i i'
  | running m => ∃ m', InStep m.kept m m'

theorem State.matched_running (h : InStep kept m m') : (running m).Matched := by
  obtain ⟨G, h⟩ := h
  refine ⟨m', G, ?_⟩
  rw [h.keeping]
  exact h

/-- Starts that succeed start in step. -/
theorem State.matched_of_start {start start' : Except Fault Machine}
    (h : SameResult (InStep kept) start start') (hm : start = .ok m) : (running m).Matched := by
  cases h with
  | ok h =>
    cases hm
    exact matched_running h
  | error => cases hm

theorem Reached.matched (h : Reached libraries maxDepth x) : x.Matched := by
  induction h with
  | create hi => exact ⟨_, atRest_create hi⟩
  | forget _ hrest ih =>
    obtain ⟨i', hi⟩ := ih
    exact ⟨i', hi.mono hrest⟩
  | run _ hm ih =>
    obtain ⟨i', hi⟩ := ih
    exact State.matched_of_start (hi.start _ _) hm
  | session _ hm ih =>
    obtain ⟨i', hi⟩ := ih
    exact State.matched_of_start (hi.startSession _ _) hm
  | render _ hv hrest ih =>
    obtain ⟨i', hi⟩ := ih
    exact State.matched_running (hi.startRender hv hrest)
  | next _ hstep ih =>
    obtain ⟨m', hm⟩ := ih
    have hsame := hm.step
    rw [hstep] at hsame
    generalize m'.step = y at hsame
    cases hsame with
    | next hn => exact State.matched_running hn
  | ask reply _ hstep ih =>
    obtain ⟨m', hm⟩ := ih
    have hsame := hm.step
    rw [hstep] at hsame
    generalize m'.step = y at hsame
    cases hsame with
    | ask hn => exact State.matched_running (hn reply)
  | done _ hstep ih =>
    obtain ⟨m', hm⟩ := ih
    have hsame := hm.step
    rw [hstep] at hsame
    generalize m'.step = y at hsame
    cases hsame with
    | done hn hstack hc => exact ⟨_, hn.atRest hstack hc⟩

/-- No scope dangles. In every state that an interpreter comes to, the scopes above the current one,
    above every open one, and above every one that a function or class within reach was made in,
    lead to the global scope, and none of them was freed or used again. -/
theorem Reached.no_scope_dangles (h : Reached libraries maxDepth x) : x.machine.Intact := by
  have hm := h.matched
  cases x with
  | resting kept i =>
    obtain ⟨i', hi⟩ := hm
    exact hi.intact
  | running m =>
    obtain ⟨m', hm⟩ := hm
    exact hm.intact

/-! ## A function whose scope was left -/

def Machine.after : Nat → Machine → Option Machine
  | 0, m => some m
  | n + 1, m =>
    match m.step with
    | .next m => after n m
    | _ => none

theorem Reached.after {n : Nat} (h : Reached libraries maxDepth (.running m))
    (hn : m.after n = some m') : Reached libraries maxDepth (.running m') := by
  induction n generalizing m with
  | zero =>
    cases hn
    exact h
  | succ n ih =>
    unfold Machine.after at hn
    split at hn
    next hstep => exact ih (h.next hstep) hn
    next => cases hn

/-- A function is called that was made in a scope that has been left, so the current scope is under
    a released one. -/
theorem no_scope_dangles_under_a_released_one :
    ∃ m p, Reached [] 4 (.running m) ∧ (m.store.scope m.scope).parent = some p ∧
      (m.store.scope p).released = true ∧ m.Intact := by
  have hrun : (match Interpreter.create [] 4 with
      | .ok i =>
        match i.startSession [] "func g() { let x = nil; return func() { return x; }; } g()();"
          "a" with
        | .ok m => (m.after 20).any fun m =>
          (m.store.scope m.scope).parent.any fun p => (m.store.scope p).released
        | .error _ => false
      | .error _ => false) = true := by decide +kernel
  split at hrun
  next i hi =>
    split at hrun
    next m hm =>
      obtain ⟨k, hk, hrun⟩ := (Option.any_eq_true _ _).1 hrun
      obtain ⟨p, hp, hrel⟩ := (Option.any_eq_true _ _).1 hrun
      have hreach : Reached [] 4 (.running k) := ((Reached.create hi).session hm).after hk
      exact ⟨k, p, hreach, hp, hrel, hreach.no_scope_dangles⟩
    next => cases hrun
  next => cases hrun

end TinyScript

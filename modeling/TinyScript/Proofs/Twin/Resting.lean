/-
  TinyScript.Proofs.Twin.Resting — interpreters between runs.

  A created interpreter tracks itself, because all that was done to its store was done to one store
  twice. Between runs two interpreters are at rest (`AtRest`); whatever is started on both starts in
  step, and runs in step end with the same result and with interpreters at rest (`drive_same`).
-/

import TinyScript.Interpreter
import TinyScript.Proofs.Twin.Stepping

namespace TinyScript

open Store TinyScript.Text

namespace Store

variable {G : Ref → Prop} {s t : Store}

/-! ## The first store -/

theorem tracks_empty : Tracks (· = 0) empty empty := by
  refine ⟨orderly_empty, linked_empty, limits_empty, fun i p a b _ hp => ?_, leases_empty, rfl, rfl,
    rfl, rfl, ?_, ?_, ?_, ?_, ?_⟩
  · rw [parent_empty] at hp
    cases hp
  · rintro r rfl
    exact ⟨_, _, rfl, rfl, .lease none rfl rfl⟩
  · rintro r c rfl hc
    cases hc
    exact good_nil
  · rintro r c rfl hc
    cases hc
    exact fun _ hq => nomatch hq
  · rintro i j ⟨r, hi, hj, _⟩
    obtain ⟨rfl, rfl⟩ := lease_empty hi
    obtain ⟨rfl, _⟩ := lease_empty hj
    exact ⟨rfl, rfl, good_nil, .none⟩
  · intro i hi
    have hglobal : i = global := by
      by_contra hne
      rw [scope_empty, if_neg hne] at hi
      cases hi
    subst hglobal
    exact ⟨global, 0, rfl, rfl, .inr rfl⟩

/-- One after the other, what advances both stores advances them. -/
theorem advances_foldl {α : Type} {f : Store → α → Store} {l : List α}
    (hf : ∀ a ∈ l, ∀ G s t, Tracks G s t → ∃ H, Advances G s t H (f s a) (f t a))
    (h : Tracks G s t) : ∃ H, Advances G s t H (l.foldl f s) (l.foldl f t) := by
  induction l generalizing G s t with
  | nil => exact ⟨G, .refl h⟩
  | cons a l ih =>
    obtain ⟨H, hH⟩ := hf a List.mem_cons_self G s t h
    obtain ⟨K, hK⟩ := ih (fun b hb => hf b (List.mem_cons_of_mem _ hb)) hH.tracks
    exact ⟨K, hH.trans hK⟩

namespace Tracks

theorem bindGlobal (h : Tracks G s t) {v : Value} (hv : Good G v.refs) (name : String) :
    Advances G s t G (s.bindGlobal name v) (t.bindGlobal name v) :=
  h.bind h.twin_global name hv

theorem addNative (h : Tracks G s t) {n : Native} (hn : Good G (Cell.native n).refs) :
    ∃ H, Advances G s t H (s.addNative n) (t.addNative n) := by
  obtain ⟨he, H, ha, hg⟩ := h.newNative hn
  simp only [Store.addNative]
  rw [he]
  exact ⟨H, ha.trans (ha.tracks.bindGlobal hg n.name)⟩

theorem addBuiltins (h : Tracks G s t) : ∃ H, Advances G s t H s.addBuiltins t.addBuiltins := by
  obtain ⟨H, ha⟩ := advances_foldl (f := Store.addNative)
    (l := [.print, .input, .typeof, .str, .len, .range]) (fun n hn G s t h => by
      cases n with
      | method | host => simp at hn
      | _ => exact h.addNative good_nil) h
  obtain ⟨K, hk⟩ := advances_foldl
    (f := fun s (t : BuiltinType) => s.bindGlobal t.name (.type (.builtin t)))
    (l := BuiltinType.all.filter (· ≠ .nil))
    (fun n _ G s t h => ⟨G, h.bindGlobal good_nil n.name⟩) ha.tracks
  exact ⟨K, ha.trans hk⟩

section

variable {objectClass : Ref} {keeps : Value}

theorem provideAll (h : Tracks G s t) (hc : G objectClass) (hkeeps : Good G keeps.refs)
    (members : List (String × Provided)) {fields : Table Value}
    (hf : Good G (mapRefs Value.refs fields)) :
    SameMade (mapRefs Value.refs) G s t (s.provideAll objectClass keeps members fields)
      (t.provideAll objectClass keeps members fields) := by
  induction members generalizing G s t fields with
  | nil => exact .of_good h hf
  | cons e members ih =>
    have hknown : Good G (valueRefs [keeps]) := good_values_cons.2 ⟨hkeeps, good_values_nil⟩
    obtain ⟨he, H, ha, hg⟩ := h.place hc hknown (e.2.made e.1)
    simp only [Store.provideAll]
    rw [he]
    exact .after ha (ih ha.tracks (ha.mono _ hc) (ha.good hkeeps) (good_put (ha.good hf) hg))

theorem addLibrary (h : Tracks G s t) (hc : G objectClass) (hkeeps : Good G keeps.refs)
    (l : Library) :
    SameResult (fun s' t' => ∃ H, Advances G s t H s' t') (s.addLibrary objectClass keeps l)
      (t.addLibrary objectClass keeps l) := by
  unfold Store.addLibrary
  rw [h.binding? h.twin_global]
  split
  · exact .error _
  · split
    · exact .error _
    · have hnone : Good G (mapRefs Value.refs (∅ : Table Value)) := good_nil
      obtain ⟨he, H, ha, hg⟩ := h.provideAll hc hkeeps l.members hnone
      obtain ⟨he', K, hk, hg'⟩ := ha.tracks.newObject (ha.mono _ hc) hg
      simp only []
      rw [he, he']
      exact .ok ⟨K, (ha.trans hk).trans (hk.tracks.bindGlobal hg' l.name)⟩

theorem addLibraries (h : Tracks G s t) (hc : G objectClass) (hkeeps : Good G keeps.refs)
    (libraries : List Library) :
    SameResult (fun s' t' => ∃ H, Advances G s t H s' t')
      (libraries.foldlM (fun s l => s.addLibrary objectClass keeps l) s)
      (libraries.foldlM (fun s l => s.addLibrary objectClass keeps l) t) := by
  induction libraries generalizing G s t with
  | nil => exact .ok ⟨G, .refl h⟩
  | cons l libraries ih =>
    have hl := h.addLibrary hc hkeeps l
    simp only [List.foldlM_cons]
    generalize s.addLibrary objectClass keeps l = a, t.addLibrary objectClass keeps l = b at hl
    cases hl with
    | error e => exact .error e
    | ok hs =>
      obtain ⟨H, ha⟩ := hs
      exact (ih ha.tracks (ha.mono _ hc) (ha.good hkeeps)).imp fun _ _ ⟨K, hk⟩ => ⟨K, ha.trans hk⟩

end

end Tracks

end Store

variable {kept rest : List Ref} {G : Ref → Prop} {i i' : Interpreter} {m m' : Machine}

/-! ## At rest -/

def AtRest (kept : List Ref) (i i' : Interpreter) : Prop :=
  InStep kept (i.ready kept (.give (.value .nil))) (i'.ready kept (.give (.value .nil)))

namespace AtRest

/-- Both machines start in step, with something that the host holds. -/
theorem ready (h : AtRest kept i i') {c : Control} (hrest : rest ⊆ kept) (hc : c.refs ⊆ kept) :
    InStep rest (i.ready rest c) (i'.ready rest c) := by
  obtain ⟨G, h⟩ := h
  exact ⟨G, { h with
    keeping := rfl
    kept := rfl
    control := rfl
    goodKept := fun r hr => h.goodKept r (hrest hr)
    goodControl := fun r hr => h.goodKept r (hc hr) }⟩

theorem mono (h : AtRest kept i i') (hrest : rest ⊆ kept) : AtRest rest i i' :=
  h.ready hrest (List.nil_subset _)

theorem shownType (h : AtRest kept i i') {v : Value} (hv : v.refs ⊆ kept) :
    i'.store.shownType v = i.store.shownType v := by
  obtain ⟨G, h⟩ := h
  exact h.tracks.shownType fun r hr => h.goodKept r (hv hr)

end AtRest

/-- Machines that have come to an end leave interpreters at rest, and the host may hold the
    result. -/
theorem InStep.atRest (h : InStep kept m m') (hm : m.stack = []) {r : Result}
    (hc : m.control = .give r) :
    AtRest (r.refs ++ kept) m.toInterpreter m'.toInterpreter := by
  obtain ⟨G, h⟩ := h
  obtain ⟨base, opened, hb, ho, hs⟩ := h.frames
  rw [hm] at hs
  obtain ⟨rfl, _⟩ := hs.of_nil
  have hresult := h.goodControl
  rw [hc] at hresult
  have hkept := h.goodKept
  rw [h.keeping] at hkept
  exact ⟨G, { h with
    keeping := rfl
    kept := rfl
    control := rfl
    depth := rfl
    loading := rfl
    goodKept := good_append.2 ⟨hresult, hkept⟩
    goodControl := good_nil
    frames := ⟨_, _, hb, ho, .nil⟩ }⟩

/-- A created interpreter and one that keeps everything. -/
theorem atRest_create {libraries : List Library} {maxDepth : Nat}
    (h : Interpreter.create libraries maxDepth = .ok i) :
    AtRest [] i { i with reclaims := false } := by
  obtain ⟨_, G, ha, hg⟩ := tracks_empty.alloc_same (c := .classDef .plain)
    (fun _ _ he => nomatch he) (good_append.2 ⟨good_nil, good_nil⟩) fun _ hq => nomatch hq
  obtain ⟨K, hbuiltins⟩ := ha.tracks.addBuiltins
  have hempty : Good K (valueRefs (#[] : Array Value).toList) := good_nil
  obtain ⟨_, H, hkeeps, hgood⟩ := hbuiltins.tracks.newArray hempty
  have hb := hbuiltins.trans hkeeps
  have hlibraries := hb.tracks.addLibraries (hb.mono _ (good_cons.1 hg).1) hgood libraries
  simp only [Interpreter.create] at h
  generalize libraries.foldlM (fun (s : Store) l =>
    s.addLibrary (empty.alloc (.classDef .plain)).1 _ l) _ = a at hlibraries h
  cases hlibraries with
  | error e => cases h
  | ok hs =>
    cases h
    obtain ⟨K, hk⟩ := hs
    have hshape := ((ha.trans hb).trans hk).left
    have hopen : Opened empty [Store.global] := by
      refine ⟨List.pairwise_singleton _ _, fun i => ?_⟩
      rw [scope_empty]
      split <;> simp_all [Scope.fresh, Scope.vacant]
    exact ⟨K, {
      tracks := hk.tracks
      modules := rfl
      session := rfl
      objectClass := rfl
      maxDepth := rfl
      keeping := rfl
      kept := rfl
      control := rfl
      depth := rfl
      loading := rfl
      reclaims := rfl
      keeps := rfl
      goodModules := good_nil
      goodSession := good_nil
      goodClass := hk.mono _ (hb.mono _ (good_cons.1 hg).1)
      goodKept := good_nil
      goodControl := good_nil
      frames := ⟨_, _, rfl, hopen.sameShape hshape, .nil⟩ }⟩

/-! ## Starting -/

namespace Twins

/-- Both machines go on in the scope of the session. -/
theorem enterSession (h : Twins kept G m m') (hm : m.stack = []) :
    ∃ H, Twins kept H
      { (Interpreter.sessionScope m).2.push
          (.exit (.session (Interpreter.sessionScope m).2.scope)) with
        scope := (Interpreter.sessionScope m).1 }
      { (Interpreter.sessionScope m').2.push
          (.exit (.session (Interpreter.sessionScope m').2.scope)) with
        scope := (Interpreter.sessionScope m').1 } := by
  obtain ⟨base, opened, hb, ho, hs⟩ := h.frames
  simp only [Interpreter.sessionScope, h.session]
  cases hse : m.session with
  | some lease =>
    have hlease : G lease := h.goodSession lease (by simp [hse])
    -- the lease is that of a scope that is open between runs
    have hmem : m.store.leasedScope lease ∈ base := by
      rcases h.tracks.lease_leasedScope hlease with hg | hl
      · rw [hg]
        exact hb.global_mem
      · rw [hse] at hb
        obtain ⟨k, hk, _, rfl⟩ := hb
        rw [h.tracks.orderly.leases.distinct _ _ _ hl hk]
        exact List.mem_cons_self
    exact ⟨G, { h with
      frames := ⟨base, opened, hb, ho, .session (h.tracks.leasedScope hlease) hmem hs⟩ }⟩
  | none =>
    rw [hse] at hb
    cases (hb : base = [Store.global])
    rw [hm] at hs
    obtain ⟨rfl, hi, hj, hm'⟩ := hs.of_nil
    have horder := h.tracks.orderly
    have hpush := pushes_push m.store Store.global .module horder.places.freeLt
    obtain ⟨htracks, hnew, _⟩ := h.tracks.push h.tracks.twin_global .module
    obtain ⟨_, _, hlease, _⟩ := capture_gives htracks.orderly (htracks.inUse hnew)
    obtain ⟨he, H, ha, hg⟩ := htracks.capture_same hnew
    have hbase : Base ((m.store.push Store.global .module).2.capture
        (m.store.push Store.global .module).1).2
        (some ((m.store.push Store.global .module).2.capture
          (m.store.push Store.global .module).1).1)
        [(m.store.push Store.global .module).1, Store.global] := by
      refine ⟨_, (ha.left.lease _).trans hlease, (ha.left.parent _).trans ?_, rfl⟩
      rw [hpush.scope_self]
      rfl
    refine ⟨H, { h with
      tracks := ha.tracks
      session := congrArg some he
      goodModules := ha.good h.goodModules
      goodSession := hg
      goodClass := ha.mono _ h.goodClass
      goodKept := ha.good h.goodKept
      goodControl := ha.good h.goodControl
      frames := ⟨_, _, hbase, (ho.push horder hpush).sameShape ha.left, ?_⟩ }⟩
    simp only [Machine.push, hm, hm', hi, hj]
    exact .session (ha.twin hnew) List.mem_cons_self .nil

end Twins

namespace AtRest

theorem start (h : AtRest kept i i') (source file : String) :
    SameResult (InStep kept) (i.start kept source file) (i'.start kept source file) := by
  unfold Interpreter.start
  cases parseSource source file with
  | error f => exact .error f
  | ok program =>
    exact .ok (h.ready (c := .enter file program) (List.Subset.refl _) (List.nil_subset _))

theorem startSession (h : AtRest kept i i') (source file : String) :
    SameResult (InStep kept) (i.startSession kept source file)
      (i'.startSession kept source file) := by
  unfold Interpreter.startSession
  cases parseSource source file with
  | error f => exact .error f
  | ok program =>
    obtain ⟨G, h⟩ := h
    obtain ⟨H, hm⟩ := h.enterSession rfl
    exact .ok (hm.program good_nil program)

theorem startRender (h : AtRest kept i i') {v : Value} (hv : v.refs ⊆ kept) (hrest : rest ⊆ kept) :
    InStep (v.refs ++ rest) (i.startRender rest v) (i'.startRender rest v) :=
  h.ready (c := .render v false [] _) (List.append_subset.2 ⟨hv, hrest⟩) hv

end AtRest

/-! ## Whole runs -/

inductive SameEnd (kept : List Ref) :
    Option (Interpreter × Result) → Option (Interpreter × Result) → Prop
  | none : SameEnd kept none none
  | some {i i' : Interpreter} {r : Result} : AtRest (r.refs ++ kept) i i' →
    SameEnd kept (some (i, r)) (some (i', r))

/-- Hosts that answer alike see the same questions, and the runs come to the same end. -/
theorem drive_same {σ : Type} (answer : (r : Request) → StateM σ r.Reply) (fuel : Nat)
    (h : InStep kept m m') (d : σ) :
    SameEnd kept ((drive answer fuel m).run d).1 ((drive answer fuel m').run d).1 ∧
      ((drive answer fuel m').run d).2 = ((drive answer fuel m).run d).2 := by
  induction fuel generalizing m m' d with
  | zero => exact ⟨.none, rfl⟩
  | succ n ih =>
    have hstep := h.step
    simp only [drive]
    generalize m.step = x, m'.step = y at hstep
    cases hstep with
    | next hnext => exact ih hnext d
    | @ask request resume resume' hask =>
      exact ih (hask ((answer request).run d).1) ((answer request).run d).2
    | done hdone hm hc => exact ⟨.some (hdone.atRest hm hc), rfl⟩

end TinyScript

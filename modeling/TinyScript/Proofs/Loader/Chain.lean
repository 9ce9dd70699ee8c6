/-
  TinyScript.Proofs.Loader.Chain — the files that run.

  Every file that runs has a frame on the stack, and the files that run are those of the frames, the
  first one first (`Chained`). A file is opened only if it is neither loaded nor running, so none
  runs twice, and the modules that run are not loaded yet (`Machine.Loader`). Nothing else that a
  machine does touches the files that run or those that are loaded (`Quiet`).
-/

import TinyScript.Proofs.Control.Leading

namespace TinyScript

open Relation TinyScript.Text

variable {f : Frame}

/-! ## Frames of files -/

def Frame.isFile : Frame → Bool
  | .exit (.module _) | .exit (.run true) => true
  | _ => false

inductive Chained : List Frame → List String → Prop
  | nil : Chained [] []
  | module {stack : List Frame} {files : List String} (path : String) : Chained stack files →
    Chained (.exit (.module path) :: stack) (files ++ [path])
  | run {stack : List Frame} {files : List String} (path : String) : Chained stack files →
    Chained (.exit (.run true) :: stack) (files ++ [path])
  | other {f : Frame} {stack : List Frame} {files : List String} : f.isFile = false →
    Chained stack files → Chained (f :: stack) files

namespace Chained

variable {stack : List Frame} {files : List String}

theorem append (h : Chained stack files) {above : List Frame} (ha : ∀ f ∈ above, f.isFile = false) :
    Chained (above ++ stack) files := by
  induction above with
  | nil => exact h
  | cons f above ih =>
    obtain ⟨hf, ha⟩ := List.forall_mem_cons.1 ha
    exact .other hf (ih ha)

theorem tail (h : Chained (f :: stack) files) (hf : f.isFile = false) :
    Chained stack files := by
  cases h with
  | module => cases hf
  | run => cases hf
  | other _ h => exact h

/-- The innermost file is the last one. -/
theorem dropLast (h : Chained (f :: stack) files) (hf : f.isFile = true) :
    Chained stack files.dropLast := by
  cases h with
  | module path h => rwa [List.dropLast_concat]
  | run path h => rwa [List.dropLast_concat]
  | other hf' _ =>
    rw [hf] at hf'
    cases hf'

theorem eq_nil (h : Chained [] files) : files = [] := by
  cases h
  rfl

theorem eq_concat {path : String} (h : Chained (.exit (.module path) :: stack) files) :
    ∃ before, files = before ++ [path] ∧ Chained stack before := by
  cases h with
  | module _ h => exact ⟨_, rfl, h⟩
  | other hf _ => cases hf

theorem mem (h : Chained stack files) {path : String} (hp : .exit (.module path) ∈ stack) :
    path ∈ files := by
  induction h with
  | nil => cases hp
  | module other _ ih =>
    rcases List.mem_cons.1 hp with he | hp
    · cases he
      simp
    · exact List.mem_append_left _ (ih hp)
  | run _ _ ih =>
    rcases List.mem_cons.1 hp with he | hp
    · cases he
    · exact List.mem_append_left _ (ih hp)
  | other hf _ ih =>
    rcases List.mem_cons.1 hp with he | hp
    · rw [← he] at hf
      cases hf
    · exact ih hp

end Chained

/-! ## The loader of a machine -/

namespace Machine

/-- The files that run are those of the frames, each once, and the modules among them are not loaded
    yet. -/
structure Chain (m : Machine) : Prop where
  chained : Chained m.stack m.loading
  nodup : m.loading.Nodup
  uncached : ∀ path, .exit (.module path) ∈ m.stack → m.modules.get? path = none

/-- Moreover, a file that is read is neither loaded nor running, and a program is entered only where
    nothing runs. -/
structure Loader (m : Machine) : Prop extends Chain m where
  load : ∀ path pos, m.control = .load path pos → m.modules.get? path = none ∧ path ∉ m.loading
  enter : ∀ file p, m.control = .enter file p → m.stack = []

end Machine

structure Quiet (base n : Machine) : Prop where
  stack : ∃ above, n.stack = above ++ base.stack ∧ ∀ f ∈ above, f.isFile = false
  loading : n.loading = base.loading
  modules : n.modules = base.modules
  load : ∀ path pos, n.control = .load path pos → n.modules.get? path = none ∧ path ∉ n.loading
  enter : ∀ file p, n.control ≠ .enter file p

variable {base m n : Machine} {w : World} {x y : State}

namespace Quiet

theorem push (h : Quiet base n) (hf : f.isFile = false) : Quiet base (n.push f) := by
  obtain ⟨above, hstack, habove⟩ := h.stack
  exact ⟨⟨f :: above, congrArg (f :: ·) hstack, List.forall_mem_cons.2 ⟨hf, habove⟩⟩, h.loading,
    h.modules, h.load, h.enter⟩

theorem go (h : Quiet base n) {c : Control} (hc : c.opensFile = false) :
    Quiet base { n with control := c } := by
  refine ⟨h.stack, h.loading, h.modules, fun path pos hl => ?_, fun file p he => ?_⟩
  · rw [show c = .load path pos from hl] at hc
    cases hc
  · rw [show c = .enter file p from he] at hc
    cases hc

/-- Without a file to open, moves leave files alone. -/
theorem of_moves (hm : Moves base n) (hc : base.control.opensFile = false) : Quiet base n := by
  induction hm with
  | refl =>
    refine ⟨⟨[], rfl, by simp⟩, rfl, rfl, fun path pos hl => ?_, fun file p he => ?_⟩
    · rw [hl] at hc
      cases hc
    · rw [he] at hc
      cases hc
  | go _ hgo ih => exact ih.go hgo
  | load _ _ hnone hpath ih =>
    refine ⟨ih.stack, ih.loading, ih.modules, fun path pos hl => ?_, fun file p he => ?_⟩
    · cases hl
      exact ⟨hnone, hpath⟩
    · cases he
  | push _ hf ih =>
    refine ih.push ?_
    unfold Frame.isFile
    split
    · exact absurd rfl (hf _)
    · exact absurd rfl (hf _)
    · rfl
  | enterScope parent kind _ _ ih =>
    exact ⟨(ih.push rfl).stack, ih.loading, ih.modules, ih.load, ih.enter⟩
  | changed _ _ ih => exact ⟨ih.stack, ih.loading, ih.modules, ih.load, ih.enter⟩
  | make _ _ ih => exact ⟨ih.stack, ih.loading, ih.modules, ih.load, ih.enter⟩
  | capture _ ih => exact ⟨ih.stack, ih.loading, ih.modules, ih.load, ih.enter⟩
  | enterCall f held pos _ _ ih =>
    exact ⟨(ih.push rfl).stack, ih.loading, ih.modules, ih.load, ih.enter⟩
  | loadModule _ hl _ =>
    rw [hl] at hc
    cases hc
  | loadProgram _ _ he _ =>
    rw [he] at hc
    cases hc

theorem program (m : Machine) (last : Value) (p : Program) : Quiet m (m.program last p) := by
  cases p with
  | nil => exact ⟨⟨[], rfl, by simp⟩, rfl, rfl, by simp [Machine.program, Machine.give,
      Machine.giving], by simp [Machine.program, Machine.give, Machine.giving]⟩
  | cons s todo => exact ⟨⟨[_], rfl, by simp [Frame.isFile]⟩, rfl, rfl, by simp [Machine.program,
      Machine.exec], by simp [Machine.program, Machine.exec]⟩

/-- Frames that are not those of files may have been there before. -/
theorem under (h : Quiet m n) (above : List Frame) (hs : m.stack = above ++ base.stack)
    (ha : ∀ f ∈ above, f.isFile = false) (hl : m.loading = base.loading)
    (hm : m.modules = base.modules) : Quiet base n := by
  obtain ⟨more, hstack, hmore⟩ := h.stack
  refine ⟨⟨more ++ above, ?_, fun f hf => ?_⟩, h.loading.trans hl, h.modules.trans hm, h.load,
    h.enter⟩
  · rw [hstack, hs, List.append_assoc]
  · exact (List.mem_append.1 hf).elim (hmore f) (ha f)

/-- A module that is opened runs last and has a frame of its own. -/
theorem enterModule (m : Machine) {path source : String} {p : Program}
    (hp : parseSource source path = .ok p) :
    Quiet { m with stack := .exit (.module path) :: m.stack, loading := m.loading ++ [path] }
      (m.enterModule path source) := by
  simp only [Machine.enterModule, Machine.proceed, hp]
  exact (program _ .nil p).under [_, _] rfl (by simp [Frame.isFile]) rfl rfl

theorem enterProgram (m : Machine) (path : Option String) (p : Program) :
    Quiet
      { m with stack := .exit (.run path.isSome) :: m.stack, loading := m.loading ++ path.toList }
      (m.enterProgram path p) :=
  (program _ .nil p).under [_] rfl (by simp [Frame.isFile]) rfl rfl

theorem loader (h : Quiet base n) (hb : base.Chain) : n.Loader := by
  obtain ⟨above, hstack, habove⟩ := h.stack
  refine ⟨⟨?_, h.loading ▸ hb.nodup, fun path hp => ?_⟩, h.load, fun file p he => ?_⟩
  · rw [hstack, h.loading]
    exact hb.chained.append habove
  · rw [h.modules]
    rw [hstack] at hp
    rcases List.mem_append.1 hp with hp | hp
    · cases habove _ hp
    · exact hb.uncached path hp
  · exact absurd he (h.enter file p)

end Quiet

/-! ## Exits -/

/-- The exit of a file takes the last one away. -/
theorem Machine.leave_loading (m : Machine) (r : Result) (e : ExitFrame) :
    (m.leave r e).loading = if (Frame.exit e).isFile then m.loading.dropLast else m.loading := by
  cases e with
  | scope previous =>
    simp only [leave]
    split <;> rfl
  | call f held pos =>
    cases r with
    | value v =>
      simp only [leave, proceed]
      split <;> rfl
    | _ => rfl
  | module path =>
    simp only [leave]
    split <;> rfl
  | run located =>
    cases located <;> simp only [leave, Bool.false_eq_true, if_false, if_true] <;> split <;> rfl
  | session previous => rfl

/-- Only a module that ends with a namespace is loaded. -/
theorem Machine.leave_modules (m : Machine) (r : Result) (e : ExitFrame) :
    (m.leave r e).modules = m.modules ∨ ∃ path space, e = .module path ∧
      r = .value (.namespaceRef space) ∧ (m.leave r e).modules = m.modules.put path space := by
  cases e with
  | scope previous =>
    simp only [leave]
    split <;> exact .inl rfl
  | call f held pos =>
    cases r with
    | value v =>
      simp only [leave, proceed]
      split <;> exact .inl rfl
    | _ => exact .inl rfl
  | module path =>
    simp only [leave]
    split
    · exact .inr ⟨path, _, rfl, rfl, rfl⟩
    · exact .inl rfl
  | run located =>
    simp only [leave]
    split <;> split <;> exact .inl rfl
  | session previous => exact .inl rfl

theorem Machine.leave_opensFile {r : Result} (hc : m.control = .give r) (e : ExitFrame) :
    (m.leave r e).control.opensFile = false := by
  rcases Machine.leave_control hc e with hr | ⟨f, hf⟩
  · rw [hr]
    rfl
  · rw [hf]
    rfl

/-- An exit that is not that of a file leaves files alone. -/
theorem Quiet.leave {r : Result} (hc : m.control = .give r) {e : ExitFrame}
    (he : (Frame.exit e).isFile = false) : Quiet m (m.leave r e) := by
  have hcontrol := Machine.leave_opensFile hc e
  refine ⟨⟨[], Machine.leave_stack m r e, by simp⟩, ?_, ?_, fun path pos hl => ?_,
    fun file p hn => ?_⟩
  · rw [Machine.leave_loading, he]
    rfl
  · rcases m.leave_modules r e with h | ⟨path, _, rfl, _⟩
    · exact h
    · cases he
  · rw [hl] at hcontrol
    cases hcontrol
  · rw [hn] at hcontrol
    cases hcontrol

/-! ## What a step does to files -/

/-- A step leaves files alone, also when it takes a frame away, or a file is opened or closed. -/
inductive FileStep (m : Machine) : Machine → Prop
  | quiet {n : Machine} : Quiet m n → FileStep m n
  | popped {n : Machine} {r : Result} {f : Frame} {stack : List Frame} : m.control = .give r →
    m.stack = f :: stack → f.isFile = false → Quiet { m with stack := stack } n → FileStep m n
  | opened {path source : String} {pos : Position} {p : Program} : m.control = .load path pos →
    parseSource source path = .ok p → FileStep m (m.enterModule path source)
  | entered {file : String} {p : Program} (path : Option String) : m.control = .enter file p →
    FileStep m (m.enterProgram path p)
  | closed {path : String} {r : Result} {stack : List Frame} : m.control = .give r →
    m.stack = .exit (.module path) :: stack →
    FileStep m ({ m with stack := stack }.leave r (.module path))
  | ended {r : Result} {stack : List Frame} : m.control = .give r →
    m.stack = .exit (.run true) :: stack →
    FileStep m ({ m with stack := stack }.leave r (.run true))

/-- The host is asked before a file is opened. -/
theorem Machine.opensFile_of_next (h : m.step = .next n) : m.control.opensFile = false := by
  unfold Machine.step at h
  split at h
  all_goals first | cases h | skip
  all_goals simp only [Control.opensFile, *]

theorem FileStep.of_next (h : m.step = .next n) : FileStep m n := by
  have hc := Machine.opensFile_of_next h
  cases goes_of_next h with
  | start hm => exact .quiet (.of_moves hm hc)
  | resume hr hstack hf hm =>
    refine .popped hr hstack ?_ (.of_moves hm hc)
    unfold Frame.isFile
    split
    · exact absurd rfl (hf _)
    · exact absurd rfl (hf _)
    · rfl
  | @leave r e stack hr hstack =>
    by_cases he : (Frame.exit e).isFile = false
    · exact .popped hr hstack he (Quiet.leave (m := { m with stack := stack }) hr he)
    · cases e with
      | module path => exact .closed hr hstack
      | run located =>
        cases located with
        | true => exact .ended hr hstack
        | false => exact absurd rfl he
      | _ => exact absurd rfl he

theorem FileStep.of_ask {request : Request} {resume : request.Reply → Machine}
    (h : m.step = .ask request resume) (reply : request.Reply) : FileStep m (resume reply) := by
  have hm := moves_of_ask h reply
  unfold Machine.step at h
  split at h
  next => cases h
  next => cases h
  next => cases h
  next hc =>
    cases h
    exact .quiet (.of_moves hm (by rw [hc]; rfl))
  next hc =>
    cases h
    exact .quiet (.of_moves hm (by rw [hc]; rfl))
  next hc =>
    cases h
    exact .entered _ hc
  next hc =>
    cases h
    exact .quiet (.of_moves hm (by rw [hc]; rfl))
  next path pos hc =>
    cases h
    have hfault : ∀ f, FileStep m (m.fault f) := fun f =>
      .quiet ⟨⟨[], rfl, by simp⟩, rfl, rfl, fun _ _ hl => (by cases hl),
        fun _ _ he => (by cases he)⟩
    cases reply with
    | error reason => exact hfault _
    | ok source =>
      cases hp : parseSource source path with
      | error f =>
        have hn : m.enterModule path source = m.fault f := by
          simp only [Machine.enterModule, Machine.proceed, hp]
        change FileStep m (m.enterModule path source)
        rw [hn]
        exact hfault f
      | ok p => exact .opened hc hp
  next => split at h <;> cases h

namespace Machine

theorem Chain.pop (h : m.Chain) {stack : List Frame} (hs : m.stack = f :: stack)
    (hf : f.isFile = false) : Chain { m with stack := stack } := by
  have hc := h.chained
  rw [hs] at hc
  exact ⟨hc.tail hf, h.nodup, fun path hp => h.uncached path (hs ▸ .tail _ hp)⟩

theorem Chain.enterModule (h : m.Chain) {path source : String} {p : Program}
    (hnone : m.modules.get? path = none) (hpath : path ∉ m.loading)
    (hp : parseSource source path = .ok p) : (m.enterModule path source).Loader := by
  refine (Quiet.enterModule m hp).loader ⟨.module path h.chained, ?_, fun other ho => ?_⟩
  · refine List.nodup_append.2 ⟨h.nodup, List.nodup_singleton _, fun other ho last hl he => ?_⟩
    rw [he, List.mem_singleton.1 hl] at ho
    exact hpath ho
  · rcases List.mem_cons.1 ho with he | ho
    · cases he
      exact hnone
    · exact h.uncached other ho

theorem Chain.enterProgram (h : m.Chain) (hstack : m.stack = []) (path : Option String)
    (p : Program) : (m.enterProgram path p).Loader := by
  have hloading : m.loading = [] := (hstack ▸ h.chained).eq_nil
  refine (Quiet.enterProgram m path p).loader ⟨?_, ?_, fun other ho => ?_⟩
  · cases path with
    | none => exact .other rfl ((List.append_nil m.loading).symm ▸ h.chained)
    | some path => exact .run path h.chained
  · rw [hloading]
    cases path <;> simp
  · simp [hstack] at ho

/-- A file that is closed ran last. If it is loaded by that, it does not run any more. -/
theorem Chain.leave (h : m.Chain) {r : Result} {e : ExitFrame} {stack : List Frame}
    (hc : m.control = .give r) (hs : m.stack = .exit e :: stack)
    (he : (Frame.exit e).isFile = true) : ({ m with stack := stack }.leave r e).Loader := by
  have hchained := h.chained
  rw [hs] at hchained
  have hstack := leave_stack { m with stack := stack } r e
  have hopens := leave_opensFile (m := { m with stack := stack }) hc e
  have hloading := leave_loading { m with stack := stack } r e
  rw [he, if_pos rfl] at hloading
  refine ⟨⟨?_, ?_, fun path hp => ?_⟩, fun path pos hl => ?_, fun file p hn => ?_⟩
  · rw [hstack, hloading]
    exact hchained.dropLast he
  · rw [hloading]
    exact h.nodup.sublist (List.dropLast_sublist _)
  · rw [hstack] at hp
    have hold := h.uncached path (hs ▸ .tail _ hp)
    rcases leave_modules { m with stack := stack } r e with hm | ⟨closed, space, rfl, _, hm⟩
    · rw [hm]
      exact hold
    · -- the closed module is the last file, so it is none of those before
      have hne : path ≠ closed := by
        rintro rfl
        obtain ⟨before, hbefore, hrest⟩ := hchained.eq_concat
        have hnodup := h.nodup
        rw [hbefore] at hnodup
        have hdisjoint := (List.nodup_append.1 hnodup).2.2
        exact hdisjoint path (hrest.mem hp) path (List.mem_singleton_self _) rfl
      rw [hm, Table.get?_put_of_ne _ _ hne]
      exact hold
  · rw [hl] at hopens
    cases hopens
  · rw [hn] at hopens
    cases hopens

/-- What one step keeps. -/
theorem Loader.fileStep (h : m.Loader) (hn : FileStep m n) : n.Loader := by
  cases hn with
  | quiet hq => exact hq.loader h.toChain
  | popped _ hs hf hq => exact hq.loader (h.pop hs hf)
  | opened hc hp =>
    obtain ⟨hnone, hpath⟩ := h.load _ _ hc
    exact h.enterModule hnone hpath hp
  | entered path hc => exact h.enterProgram (h.enter _ _ hc) path _
  | closed hc hs => exact h.leave hc hs rfl
  | ended hc hs => exact h.leave hc hs rfl

end Machine

/-! ## States -/

theorem Interpreter.loader_ready (i : Interpreter) (kept : List Ref) (control : Control)
    (hc : ∀ path pos, control ≠ .load path pos) : (i.ready kept control).Loader :=
  ⟨⟨.nil, List.nodup_nil, fun _ hp => (by cases hp)⟩, fun path pos hl => absurd hl (hc path pos),
    fun _ _ _ => rfl⟩

theorem Interpreter.loader_enterSession (i : Interpreter) (kept : List Ref) (p : Program) :
    (i.enterSession kept p).Loader := by
  refine (Quiet.program _ .nil p).loader ⟨?_, ?_, fun path hp => ?_⟩
  · rw [i.inSession_stack, i.inSession_loading]
    exact .other rfl .nil
  · rw [i.inSession_loading]
    exact List.nodup_nil
  · rw [i.inSession_stack] at hp
    cases List.mem_singleton.1 hp

theorem State.loader_leads (h : x.machine.Loader) (hy : x.Leads w y) : y.machine.Loader := by
  cases hy with
  | forget _ => exact Interpreter.loader_ready _ _ _ (by simp)
  | run _ hm =>
    obtain ⟨p, _, rfl⟩ := eq_of_start hm
    exact Interpreter.loader_ready _ _ _ (by simp)
  | session _ hm =>
    obtain ⟨p, _, rfl⟩ := eq_of_startSession hm
    exact Interpreter.loader_enterSession _ _ p
  | render _ _ => exact Interpreter.loader_ready _ _ _ (by simp)
  | next hstep => exact h.fileStep (.of_next hstep)
  | ask _ hstep => exact h.fileStep (.of_ask hstep _)
  | done _ => exact Interpreter.loader_ready _ _ _ (by simp)

theorem State.loader_leadsTo (h : x.machine.Loader) (hy : ReflTransGen (State.Leads w) x y) :
    y.machine.Loader := by
  induction hy with
  | refl => exact h
  | tail _ hstep ih => exact State.loader_leads ih hstep

theorem Reached.loader {libraries : List Library} {maxDepth : Nat}
    (h : Reached libraries maxDepth x) : x.machine.Loader := by
  obtain ⟨i, _, hx⟩ := reached_iff.1 h
  have hnew : (State.resting [] i).machine.Loader := i.loader_ready [] _ (by simp)
  exact State.loader_leadsTo hnew hx

end TinyScript

/-
  TinyScript.Proofs.Termination.Ending — runs without while loops and `str` methods end.

  Functions are entered at most as deep as the interpreter allows, and a file is not entered while
  it runs. So where only finitely many files can be found, the functions and files that have been
  entered are bounded (`Machine.Tame.entered_le`), and each step leaves less to do. Whatever the
  host answers, the run comes to its end with a value or a fault.
-/

import TinyScript.Proofs.Code.Keeping
import TinyScript.Proofs.Loader.Chain
import TinyScript.Proofs.Termination.Duties

namespace TinyScript

open Relation

variable {w : World} {paths : List String} {m n : Machine} {libraries : List Library}
  {maxDepth : Nat} {files : List (String × String)}

/-! ## Files that are found -/

def World.Finds (w : World) (paths : List String) : Prop :=
  ∀ wanted found, w.answers (.locate wanted) (.ok found) → found ∈ paths

namespace Machine

structure Located (paths : List String) (m : Machine) : Prop where
  loading : m.loading ⊆ paths
  load : ∀ path pos, m.control = .load path pos → path ∈ paths

namespace Located

theorem go (h : m.Located paths) {c : Control} (hc : c.opensFile = false) :
    Located paths { m with control := c } := by
  refine ⟨h.loading, fun path pos hl => ?_⟩
  rw [show c = .load path pos from hl] at hc
  cases hc

/-- Only where a file is looked for, or a program is entered, does a file come up. -/
theorem moves (h : m.Located paths) (hm : Moves m n)
    (hlocate : ∀ wanted pos, m.control ≠ .locate wanted pos)
    (henter : ∀ file p, m.control ≠ .enter file p) : n.Located paths := by
  induction hm with
  | refl => exact h
  | go _ hc ih => exact ih.go hc
  | load _ hc _ _ _ => exact absurd hc (hlocate _ _)
  | push _ _ ih => exact ⟨ih.loading, ih.load⟩
  | enterScope _ _ _ _ ih => exact ⟨ih.loading, ih.load⟩
  | changed _ _ ih => exact ⟨ih.loading, ih.load⟩
  | make _ _ ih => exact ⟨ih.loading, ih.load⟩
  | capture _ ih => exact ⟨ih.loading, ih.load⟩
  | enterCall _ _ _ _ _ ih => exact ⟨ih.loading, ih.load⟩
  | loadModule _ hc ih =>
    refine ⟨List.append_subset.2 ⟨ih.loading, ?_⟩, ih.load⟩
    exact List.cons_subset.2 ⟨h.load _ _ hc, List.nil_subset _⟩
  | loadProgram _ _ hc _ => exact absurd hc (henter _ _)

theorem next (h : m.Located paths) (hstep : m.step = .next n) : n.Located paths := by
  have hlocate : ∀ wanted pos, m.control ≠ .locate wanted pos := by
    intro wanted pos hc
    rw [step, hc] at hstep
    cases hstep
  have henter : ∀ file p, m.control ≠ .enter file p := by
    intro file p hc
    rw [step, hc] at hstep
    cases hstep
  cases goes_of_next hstep with
  | start hm => exact h.moves hm hlocate henter
  | @resume _ _ _ stack _ _ _ hm =>
    exact moves (m := { m with stack := stack }) ⟨h.loading, h.load⟩ hm hlocate henter
  | @leave r e stack hc _ =>
    refine ⟨?_, fun path pos hl => ?_⟩
    · rw [leave_loading]
      split
      · exact fun path hp => h.loading (List.dropLast_subset _ hp)
      · exact h.loading
    · have hopens := leave_opensFile (m := { m with stack := stack }) hc e
      rw [hl] at hopens
      cases hopens

theorem importLocated (h : m.Located paths) (pos : Text.Position) {path : String}
    (hpath : path ∈ paths) : (m.importLocated pos path).Located paths := by
  unfold Machine.importLocated
  split
  · exact h.go rfl
  · split
    · exact h.go rfl
    · exact ⟨h.loading, fun _ _ hl => by cases hl; exact hpath⟩

theorem program (h : m.Located paths) (last : Value) (p : Program) :
    (m.program last p).Located paths := by
  cases p with
  | nil => exact h.go rfl
  | cons s todo => exact ⟨h.loading, (h.go (c := .exec s) rfl).load⟩

theorem enterProgram {file : String} {p : Program} (h : m.Located paths)
    (hc : m.control = .enter file p) {path : Option String}
    (hpath : ∀ found ∈ path, found ∈ paths) : (m.enterProgram path p).Located paths := by
  refine program (m := enterScope _ _ _) ⟨?_, fun other pos hl => ?_⟩ .nil p
  · exact List.append_subset.2 ⟨h.loading, fun found hf => hpath found (Option.mem_toList.1 hf)⟩
  · cases hc.symm.trans hl

theorem ask (h : m.Located paths) (hw : w.Finds paths) {request : Request}
    {resume : request.Reply → Machine} {reply : request.Reply} (hreply : w.answers request reply)
    (hstep : m.step = .ask request resume) : (resume reply).Located paths := by
  have hmoves := moves_of_ask hstep reply
  unfold step at hstep
  split at hstep
  next => cases hstep
  next => cases hstep
  next => cases hstep
  next =>
    cases hstep
    exact h.go rfl
  next =>
    cases hstep
    exact h.go rfl
  next hc =>
    cases hstep
    refine h.enterProgram hc fun found hf => ?_
    cases reply with
    | ok _ =>
      cases hf
      exact hw _ _ hreply
    | error => cases hf
  next pos hc =>
    cases hstep
    cases reply with
    | ok found => exact h.importLocated pos (hw _ _ hreply)
    | error => exact h.go rfl
  next hc =>
    cases hstep
    exact h.moves hmoves (by simp [hc]) (by simp [hc])
  next => split at hstep <;> cases hstep

theorem leads (h : m.Located paths) (hw : w.Finds paths) (hn : m.Leads w n) : n.Located paths := by
  cases hn with
  | next hstep => exact h.next hstep
  | ask hreply hstep => exact h.ask hw hreply hstep

end Located

/-! ## Runs -/

/-- A run of an interpreter, in which all code keeps to the rules and only these files run. -/
structure Tame (libraries : List Library) (maxDepth : Nat) (paths : List String) (m : Machine) :
    Prop where
  reached : Reached libraries maxDepth (.running m)
  fits : m.Fits .tame .value
  keeps : m.store.Keeps .tame
  located : m.Located paths

end Machine

/-- What is entered is a function or a file. -/
theorem Chained.entered_le {stack : List Frame} {files : List String} (h : Chained stack files) :
    entered stack ≤ callCount stack + files.length := by
  induction h with
  | nil => exact Nat.le_refl _
  | module path _ ih =>
    rw [entered_cons rfl, List.length_append]
    exact Nat.succ_le_succ ih
  | run path _ ih =>
    rw [entered_cons_of_not rfl, List.length_append]
    exact Nat.le_succ_of_le ih
  | @other f stack files hf _ ih =>
    rw [callCount_cons]
    cases he : f.enters with
    | false =>
      rw [entered_cons_of_not he]
      omega
    | true =>
      have hcall : callCount [f] = 1 := by
        unfold Frame.enters at he
        split at he
        · rfl
        · cases hf
        · cases he
      rw [entered_cons he]
      omega

namespace Machine.Tame

/-- The depth of calls is bounded, and a file does not run twice. -/
theorem entered_le (h : m.Tame libraries maxDepth paths) :
    entered m.stack ≤ maxDepth + paths.length := by
  have hloader : m.Loader := h.reached.loader
  have hcalls : m.depth = callCount m.stack ∧ m.depth ≤ maxDepth := h.reached.depth_eq
  have hfiles := (hloader.nodup.subperm h.located.loading).length_le
  have hentered := hloader.chained.entered_le
  omega

theorem cells_lt (h : m.Tame libraries maxDepth paths) (r : Ref) (c : Cell)
    (hc : m.store.cell? r = some c) : r < m.store.next := by
  obtain ⟨_, _, _, ht⟩ := h.reached.inStep
  exact ht.tracks.orderly.leases.cellLt r (Store.mem_cells.2 ⟨c, hc⟩)

variable (hw : w.Keeps .tame) (hfinds : w.Finds paths)
include hw hfinds

theorem leads (h : m.Tame libraries maxDepth paths) (hn : m.Leads w n) :
    n.Tame libraries maxDepth paths := by
  obtain ⟨hfits, hkeeps⟩ := h.fits.leads h.keeps hw hn
  exact ⟨h.reached.leads hn, hfits, hkeeps, h.located.leads hfinds hn⟩

/-- Each step leaves less to do. -/
theorem cuts (h : m.Tame libraries maxDepth paths) (hn : m.Leads w n) :
    CutExpand (· < ·) (n.duties (maxDepth + paths.length) n.store.next)
      (m.duties (maxDepth + paths.length) m.store.next) := by
  have hlimit := (leads hw hfinds h hn).entered_le
  cases hn with
  | next hstep => exact h.fits.cuts_next rfl h.keeps h.cells_lt hstep hlimit
  | ask hreply hstep => exact h.fits.cuts_ask rfl (hw.answers hreply) hstep hlimit

/-- There is no endless run, whatever the answers. -/
theorem acc (h : m.Tame libraries maxDepth paths) : Acc (fun n m => m.Leads w n) m := by
  have hwf : WellFounded (CutExpand (· < · : Duty → Duty → Prop)) := wellFounded_lt.cutExpand
  generalize ht : m.duties (maxDepth + paths.length) m.store.next = t
  induction t using hwf.induction generalizing m with
  | _ t ih =>
    subst ht
    exact ⟨_, fun n hn => ih _ (cuts hw hfinds h hn) (leads hw hfinds h hn) rfl⟩

end Machine.Tame

/-! ## Hosts -/

/-- A host with a state of its own gives answers of the world. -/
def World.AnsweredBy {σ : Type} (w : World) (answer : (request : Request) → StateM σ request.Reply)
    (inv : σ → Prop) : Prop :=
  ∀ request st, inv st → w.answers request ((answer request).run st).1 ∧
    inv ((answer request).run st).2

/-- What has no endless run is driven to its end, if it is driven far enough. -/
theorem drive_of_acc {σ : Type} {answer : (request : Request) → StateM σ request.Reply}
    {inv : σ → Prop} (hanswer : w.AnsweredBy answer inv) (h : Acc (fun n m => m.Leads w n) m)
    {st : σ} (hst : inv st) : ∃ enough st' n r,
      (∀ fuel, enough ≤ fuel →
        (drive answer fuel m).run st = (some (n.toInterpreter, r), st')) ∧
      ReflTransGen (Machine.Leads w) m n ∧ n.control = .give r ∧ n.stack = [] := by
  induction h generalizing st with
  | intro m _ ih =>
    cases hstep : m.step with
    | next n =>
      obtain ⟨enough, st', l, r, hdrive, hl, hend⟩ := ih n (.next hstep) hst
      refine ⟨enough + 1, st', l, r, fun fuel hfuel => ?_, .head (.next hstep) hl, hend⟩
      obtain ⟨fuel, rfl⟩ := Nat.exists_eq_add_one_of_ne_zero (Nat.ne_zero_of_lt hfuel)
      simpa only [drive, hstep] using hdrive fuel (Nat.le_of_succ_le_succ hfuel)
    | ask request resume =>
      obtain ⟨hreply, hst'⟩ := hanswer request st hst
      obtain ⟨enough, st', l, r, hdrive, hl, hend⟩ := ih _ (.ask hreply hstep) hst'
      refine ⟨enough + 1, st', l, r, fun fuel hfuel => ?_, .head (.ask hreply hstep) hl, hend⟩
      obtain ⟨fuel, rfl⟩ := Nat.exists_eq_add_one_of_ne_zero (Nat.ne_zero_of_lt hfuel)
      simp only [drive, hstep, StateT.run_bind]
      exact hdrive fuel (Nat.le_of_succ_le_succ hfuel)
    | done n r =>
      obtain ⟨rfl, hc, hs⟩ := Machine.done_iff.1 hstep
      refine ⟨1, st, n, r, fun fuel hfuel => ?_, .refl, hc, hs⟩
      obtain ⟨fuel, rfl⟩ := Nat.exists_eq_add_one_of_ne_zero (Nat.ne_zero_of_lt hfuel)
      simp only [drive, hstep]
      rfl

/-! ## Programs -/

section

variable {kept : List Ref} {i : Interpreter} {source file : String}
  (h : Reached libraries maxDepth (.resting kept i)) (hs : i.store.Keeps .tame)
  (hw : w.Keeps .tame) (hrun : w.runs source file)

include h hs hw hrun

/-- A program that keeps to the rules, run on an interpreter whose code does. -/
theorem Machine.tame_start (hm : i.start kept source file = .ok m) :
    m.Tame libraries maxDepth paths := by
  have hreached := h.run hm
  obtain ⟨p, hp, rfl⟩ := eq_of_start hm
  exact ⟨hreached, fits_enter (hw.runs hrun hp), hs, List.nil_subset _, fun _ _ hl => by cases hl⟩

theorem Machine.tame_startSession (hm : i.startSession kept source file = .ok m) :
    m.Tame libraries maxDepth paths := by
  have hreached := h.session hm
  obtain ⟨p, hp, rfl⟩ := eq_of_startSession hm
  have hlocated : (i.inSession kept).Located paths := by
    refine ⟨?_, fun _ _ hl => ?_⟩
    · rw [i.inSession_loading]
      exact List.nil_subset _
    · cases (i.inSession_control kept).symm.trans hl
  exact ⟨hreached, fits_enterSession (hw.runs hrun hp), hs.enterSession, hlocated.program .nil p⟩

end

/-- Programs without while loops and `str` methods end. An interpreter that has run only such
    programs and files runs another one, where only finitely many files can be found. Whatever the
    host answers, and whatever state it keeps, the run comes to a value or a fault. -/
theorem runs_end_without_while_and_str {earlier : World} {new i : Interpreter} {kept : List Ref}
    {source file : String} {σ : Type} {answer : (request : Request) → StateM σ request.Reply}
    {inv : σ → Prop} {st : σ} (hnew : Interpreter.create libraries maxDepth = .ok new)
    (hearlier : earlier.Keeps .tame)
    (hi : ReflTransGen (State.Leads earlier) (.resting [] new) (.resting kept i))
    (hw : w.Keeps .tame) (hfinds : w.Finds paths) (hrun : w.runs source file)
    (hm : i.start kept source file = .ok m ∨ i.startSession kept source file = .ok m)
    (hanswer : w.AnsweredBy answer inv) (hst : inv st) :
    ∃ enough st' j r,
      (∀ fuel, enough ≤ fuel → (drive answer fuel m).run st = (some (j, r), st')) ∧
      ((∃ v, r = .value v) ∨ ∃ f, r = .fault f) := by
  have hreached : Reached libraries maxDepth (.resting kept i) := (Reached.create hnew).leadsTo hi
  have hbuilt : (State.resting [] new).Fits .tame :=
    Store.Keeps.built (Interpreter.new_of_create hnew).built
  have hkeeps : (State.resting kept i).Fits .tame := hbuilt.leadsTo hearlier hi
  have htame : m.Tame libraries maxDepth paths := hm.elim
    (Machine.tame_start hreached hkeeps hw hrun) (Machine.tame_startSession hreached hkeeps hw hrun)
  obtain ⟨enough, st', n, r, hdrive, hn, hc, hstack⟩ :=
    drive_of_acc hanswer (Machine.Tame.acc hw hfinds htame) hst
  refine ⟨enough, st', _, r, hdrive, ?_⟩
  -- what is left at the end is what the run was to give
  have hfits := (htame.fits.leadsTo htame.keeps hw hn).1.control
  rw [hc, hstack] at hfits
  cases r with
  | value v => exact .inl ⟨v, rfl⟩
  | fault f => exact .inr ⟨f, rfl⟩
  | flow g => cases hfits.1
  | text t => cases hfits

/-! ## Restless programs -/

theorem mem_of_lookup {path source : String} (h : files.lookup path = some source) :
    (path, source) ∈ files := by
  obtain ⟨before, after, rfl, _⟩ := List.lookup_eq_some_iff.1 h
  simp

theorem Request.mem_of_locate {wanted found : String}
    (h : Request.among files (.locate wanted) = .ok found) : found ∈ files.map (·.1) := by
  simp only [Request.among] at h
  split at h
  next hfound =>
    cases h
    have hsome := List.find?_some (p := fun path => (files.lookup path).isSome) hfound
    obtain ⟨source, hsource⟩ := Option.isSome_iff_exists.1 hsome
    exact List.mem_map.2 ⟨_, mem_of_lookup hsource, rfl⟩
  next => cases h

theorem Request.mem_of_read {path source : String}
    (h : Request.among files (.read path) = .ok source) : (path, source) ∈ files := by
  simp only [Request.among] at h
  split at h
  next hsource =>
    cases h
    exact mem_of_lookup hsource
  next => cases h

/-- Two files that import each other. -/
def pair : List (String × String) := [("/a", "import('b');"), ("/b", "import('a');")]

/-- Notes what is printed. -/
def Request.noted : (request : Request) → StateM (List String) request.Reply
  | .print line => fun log => ((), log ++ [line])
  | request => pure (request.among pair)

/-- An array that holds itself, and a function that calls itself. -/
def restlessSetup : String := "let a = ['x']; a.add(a); func f() \x7b f(); \x7d"

/-- Programs, what they print, and with which message they fail if they do. The array grows while it
    is looped over and printed, the function is called, and the files are imported. -/
def restless : List (String × List String × Option String) :=
  [("for x in a \x7b a.add(x); print(a); \x7d", ["['x', [...], 'x']", "['x', [...], 'x', [...]]"],
      none),
    ("f();", [], some "Maximum call depth exceeded"),
    ("import('a');", [], some "Circular import: /a -> /b -> /a")]

def World.restless : World :=
  ⟨fun source file => source ∈ restlessSetup :: TinyScript.restless.map (·.1) ∧ file = "main",
    fun request reply => reply = request.among pair⟩

theorem keeps_of_parse {k : Rules} (sources : List (String × String))
    (h : ∀ s ∈ sources, (parseSource s.2 s.1).toOption.any k.program = true)
    {file source : String} (hs : (file, source) ∈ sources) {p : Program}
    (hp : parseSource source file = .ok p) : k.program p = true := by
  have hsource := h _ hs
  rw [hp] at hsource
  exact hsource

theorem World.keeps_restless : World.restless.Keeps .tame where
  runs {source file p} hrun hp := by
    obtain ⟨hsource, rfl⟩ := hrun
    exact keeps_of_parse ((restlessSetup :: TinyScript.restless.map (·.1)).map ("main", ·))
      (by decide +kernel) (List.mem_map_of_mem hsource) hp
  answers {request reply} h := by
    cases request with
    | read path =>
      intro source p hs hp
      have hread : Request.among pair (.read path) = .ok source := h.symm.trans hs
      exact keeps_of_parse pair (by decide +kernel) (Request.mem_of_read hread) hp
    | _ => trivial

theorem World.finds_restless : World.restless.Finds (pair.map (·.1)) :=
  fun _ _ h => Request.mem_of_locate h.symm

theorem World.answered_restless : World.restless.AnsweredBy Request.noted fun _ => True := by
  intro request st _
  cases request <;> exact ⟨rfl, trivial⟩

section

variable {σ : Type} {answer : (request : Request) → StateM σ request.Reply} {fuel more : Nat}
  {st st' : σ} {x : Interpreter × Result}

/-- A run that has ended does not go on if there is more fuel. -/
theorem drive_of_le (h : (drive answer fuel m).run st = (some x, st')) (hle : fuel ≤ more) :
    (drive answer more m).run st = (some x, st') := by
  induction fuel generalizing m st more with
  | zero => cases h
  | succ fuel ih =>
    obtain ⟨more, rfl⟩ := Nat.exists_eq_add_one_of_ne_zero (Nat.ne_zero_of_lt hle)
    have hle := Nat.le_of_succ_le_succ hle
    cases hstep : m.step with
    | next n =>
      simp only [drive, hstep] at h ⊢
      exact ih h hle
    | ask request resume =>
      simp only [drive, hstep, StateT.run_bind] at h ⊢
      exact ih h hle
    | done n r =>
      simp only [drive, hstep] at h ⊢
      exact h

/-- Runs that end come to the same end, however much fuel each of them has. -/
theorem drive_unique {y : Interpreter × Result} {st'' : σ}
    (h : (drive answer fuel m).run st = (some x, st'))
    (h' : (drive answer more m).run st = (some y, st'')) : x = y ∧ st' = st'' := by
  have hmax := drive_of_le h (Nat.le_max_left fuel more)
  rw [drive_of_le h' (Nat.le_max_right fuel more)] at hmax
  cases hmax
  exact ⟨rfl, rfl⟩

end

/-- The setup runs to its end, and with enough fuel so does each of the programs after it. -/
theorem exists_restless_setup : ∃ new i, Interpreter.create [] 3 = .ok new ∧
    ReflTransGen (State.Leads .restless) (.resting [] new) (.resting [] i) ∧
    ∀ run ∈ restless, ∃ m x, i.startSession [] run.1 "main" = .ok m ∧
      (drive Request.noted 66 m).run [] = (some x, run.2.1) ∧
      x.2.fault?.map (·.message) = run.2.2 := by
  have hrun : ((Interpreter.create [] 3).toOption.any fun new =>
      (new.startSession [] restlessSetup "main").toOption.any fun m =>
      (m.answered (Request.among pair) 19).any fun n =>
        n.stack.isEmpty && n.control.given?.isSome && restless.all fun run =>
          (n.toInterpreter.startSession [] run.1 "main").toOption.any fun m =>
            ((drive Request.noted 66 m).run []).1.any (·.2.fault?.map (·.message) == run.2.2) &&
            ((drive Request.noted 66 m).run []).2 == run.2.1) = true := by
    decide +kernel
  obtain ⟨new, hnew, hrun⟩ := exists_ok_of_any hrun
  obtain ⟨first, hfirst, hrun⟩ := exists_ok_of_any hrun
  obtain ⟨n, hn, hrun⟩ := (Option.any_eq_true _ _).1 hrun
  rw [Bool.and_eq_true, Bool.and_eq_true, List.isEmpty_iff, Option.isSome_iff_exists,
    List.all_eq_true] at hrun
  obtain ⟨⟨hstack, r, hr⟩, hruns⟩ := hrun
  have hleads := Machine.leads_answered (w := .restless) (fun _ => rfl) hn
  have hdone := Machine.done_iff.2 ⟨rfl, Control.given?_eq_some.1 hr, hstack⟩
  refine ⟨new, n.toInterpreter, hnew, ?_, fun run hmem => ?_⟩
  · refine .head (.session ⟨List.mem_cons_self, rfl⟩ hfirst)
      ((hleads.lift State.running fun _ _ h => h).trans ?_)
    exact .head (.done hdone) (.single (.forget (List.nil_subset _)))
  · obtain ⟨m, hm, hshown⟩ := exists_ok_of_any (hruns run hmem)
    simp only [Bool.and_eq_true, Option.any_eq_true, beq_iff_eq] at hshown
    obtain ⟨⟨x, hx, hmessage⟩, hlog⟩ := hshown
    exact ⟨m, x, hm, Prod.ext hx hlog, hmessage⟩

/-- After the setup has run, each of the restless programs comes to its end. -/
theorem runs_end_of_restless_programs : ∃ new i, Interpreter.create [] 3 = .ok new ∧
    ReflTransGen (State.Leads .restless) (.resting [] new) (.resting [] i) ∧
    ∀ run ∈ restless, ∃ m enough j r, i.startSession [] run.1 "main" = .ok m ∧
      (∀ fuel, enough ≤ fuel → (drive Request.noted fuel m).run [] = (some (j, r), run.2.1)) ∧
      ((∃ v, r = .value v) ∨ ∃ f, r = .fault f) ∧ r.fault?.map (·.message) = run.2.2 := by
  obtain ⟨new, i, hnew, hsetup, hruns⟩ := exists_restless_setup
  refine ⟨new, i, hnew, hsetup, fun run hmem => ?_⟩
  obtain ⟨m, x, hm, hx, hmessage⟩ := hruns run hmem
  have hends : ∃ enough log j r,
      (∀ fuel, enough ≤ fuel → (drive Request.noted fuel m).run [] = (some (j, r), log)) ∧
      ((∃ v, r = .value v) ∨ ∃ f, r = .fault f) :=
    runs_end_without_while_and_str hnew World.keeps_restless hsetup World.keeps_restless
      World.finds_restless ⟨List.mem_cons_of_mem _ (List.mem_map_of_mem hmem), rfl⟩ (.inr hm)
      World.answered_restless trivial
  obtain ⟨enough, log, j, r, hend, hresult⟩ := hends
  -- the run that was looked at is the one that ends
  obtain ⟨rfl, rfl⟩ := drive_unique hx (hend enough (Nat.le_refl _))
  exact ⟨m, enough, j, r, hm, hend, hresult, hmessage⟩

end TinyScript

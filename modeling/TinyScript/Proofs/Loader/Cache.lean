/-
  TinyScript.Proofs.Loader.Cache — modules are loaded once.

  What is loaded stays (`Reached.cached_stays`), and it is what the module ended with: there is the
  state in which its file was read, and from there all of its statements ran and ended normally
  (`Reached.runsAll_module`). An import of a file that runs fails and tells the files in between;
  but a file that was loaded before is given, even if it runs.
-/

import TinyScript.Proofs.Loader.Body
import TinyScript.Proofs.Loader.Chain

namespace TinyScript

open Relation TinyScript.Text

variable {libraries : List Library} {maxDepth : Nat} {w : World} {x y : State} {m n : Machine}
  {path : String} {below stack : List Frame} {r : Result}

/-! ## What is loaded stays -/

/-- The cache changes only when a module ends with a namespace. -/
theorem FileStep.modules (h : FileStep m n) : n.modules = m.modules ∨ ∃ path space below,
    m.control = .give (.value (.namespaceRef space)) ∧ m.stack = .exit (.module path) :: below ∧
    n.modules = m.modules.put path space := by
  cases h with
  | quiet hq => exact .inl hq.modules
  | popped _ _ _ hq => exact .inl hq.modules
  | opened _ hp => exact .inl (Quiet.enterModule m hp).modules
  | entered path _ => exact .inl (Quiet.enterProgram m path _).modules
  | @closed path r stack hc hs =>
    rcases Machine.leave_modules { m with stack := stack } r (.module path) with
      hm | ⟨_, space, he, rfl, hm⟩
    · exact .inl hm
    · cases he
      exact .inr ⟨path, space, stack, hc, hs, hm⟩
  | @ended r stack hc hs =>
    rcases Machine.leave_modules { m with stack := stack } r (.run true) with hm | ⟨_, _, he, _⟩
    · exact .inl hm
    · cases he

/-- Between runs the cache does not change. -/
theorem State.Leads.modules (h : x.Leads w y) : y.machine.modules = x.machine.modules ∨
    ∃ m path space below, x = .running m ∧ m.control = .give (.value (.namespaceRef space)) ∧
      m.stack = .exit (.module path) :: below ∧ y.machine.modules = m.modules.put path space := by
  cases h with
  | forget _ => exact .inl rfl
  | run _ hm =>
    obtain ⟨p, _, rfl⟩ := eq_of_start hm
    exact .inl rfl
  | @session kept i _ _ _ _ hm =>
    obtain ⟨p, _, rfl⟩ := eq_of_startSession hm
    exact .inl ((Quiet.program _ .nil p).modules.trans (i.inSession_modules kept))
  | render _ _ => exact .inl rfl
  | next hstep =>
    refine (FileStep.of_next hstep).modules.imp_right ?_
    rintro ⟨path, space, below, h⟩
    exact ⟨_, path, space, below, rfl, h⟩
  | ask _ hstep =>
    refine (FileStep.of_ask hstep _).modules.imp_right ?_
    rintro ⟨path, space, below, h⟩
    exact ⟨_, path, space, below, rfl, h⟩
  | done hstep =>
    obtain ⟨rfl, _⟩ := Machine.done_iff.1 hstep
    exact .inl rfl

/-- A module that is loaded stays loaded, whatever happens. -/
theorem Reached.cached_stays (h : Reached libraries maxDepth x)
    (hy : ReflTransGen (State.Leads w) x y) {space : Ref}
    (hs : x.machine.modules.get? path = some space) :
    y.machine.modules.get? path = some space := by
  induction hy with
  | refl => exact hs
  | @tail y z hxy hyz ih =>
    rcases hyz.modules with he | ⟨m, other, new, below, rfl, _, hstack, he⟩
    · rw [he]
      exact ih
    · have hnone := (h.leadsTo hxy).loader.uncached other (hstack ▸ List.mem_cons_self)
      have hne : path ≠ other := by
        rintro rfl
        cases ih.symm.trans hnone
      rw [he, Table.get?_put_of_ne _ _ hne]
      exact ih

/-! ## How a module was loaded -/

/-- The run went from `m` to `n` and gave nothing to the frames below on its way. -/
inductive Onward (below : List Frame) (m : Machine) : Machine → Prop
  | start : Onward below m m
  | next {n n' : Machine} : Onward below m n → ¬ n.Gives below → n.step = .next n' →
    Onward below m n'
  | ask {n : Machine} {request : Request} {resume : request.Reply → Machine}
    {reply : request.Reply} : Onward below m n → n.step = .ask request resume →
    Onward below m (resume reply)

theorem Onward.ends {k : Machine} (h : Onward below m n) (he : Ends below r k n) :
    Ends below r k m := by
  induction h with
  | start => exact he
  | next _ hgo hstep ih => exact ih (.next hgo hstep he)
  | ask _ hstep ih => exact ih (.ask _ hstep he)

theorem suffix_of_append {f : Frame} {above : List Frame} (hf : f.isFile = true)
    (ha : ∀ g ∈ above, g.isFile = false) (h : f :: below <:+ above ++ stack) :
    f :: below <:+ stack := by
  induction above with
  | nil => exact h
  | cons g above ih =>
    obtain ⟨hg, ha⟩ := List.forall_mem_cons.1 ha
    rcases List.suffix_cons_iff.1 h with he | h
    · cases he
      rw [hf] at hg
      cases hg
    · exact ih ha h

/-- The frame of a module was there before, or its file was just read. -/
theorem FileStep.suffix (h : FileStep m n) (hs : .exit (.module path) :: below <:+ n.stack) :
    .exit (.module path) :: below <:+ m.stack ∨ ∃ pos source p, m.control = .load path pos ∧
      m.stack = below ∧ parseSource source path = .ok p ∧ n = m.enterModule path source := by
  cases h with
  | quiet hq =>
    obtain ⟨above, hstack, habove⟩ := hq.stack
    rw [hstack] at hs
    exact .inl (suffix_of_append rfl habove hs)
  | popped _ hm _ hq =>
    obtain ⟨above, hstack, habove⟩ := hq.stack
    rw [hstack] at hs
    exact .inl (hm ▸ (suffix_of_append rfl habove hs).trans (List.suffix_cons _ _))
  | @opened path' source pos p hc hp =>
    obtain ⟨above, hstack, habove⟩ := (Quiet.enterModule m hp).stack
    rw [hstack] at hs
    rcases List.suffix_cons_iff.1 (suffix_of_append rfl habove hs) with he | hs
    · cases he
      exact .inr ⟨pos, source, p, hc, rfl, hp, rfl⟩
    · exact .inl hs
  | entered path' _ =>
    obtain ⟨above, hstack, habove⟩ := (Quiet.enterProgram m path' _).stack
    rw [hstack] at hs
    rcases List.suffix_cons_iff.1 (suffix_of_append rfl habove hs) with he | hs
    · cases he
    · exact .inl hs
  | closed _ hm =>
    rw [Machine.leave_stack] at hs
    exact .inl (hm ▸ hs.trans (List.suffix_cons _ _))
  | ended _ hm =>
    rw [Machine.leave_stack] at hs
    exact .inl (hm ▸ hs.trans (List.suffix_cons _ _))

/-- The state in which the file of a module was read, and its text. From there the run went onward
    above the frame of the module. -/
structure Began (libraries : List Library) (maxDepth : Nat) (path : String) (below : List Frame)
    (m : Machine) (source : String) (n : Machine) : Prop where
  reached : Reached libraries maxDepth (.running m)
  control : ∃ pos, m.control = .load path pos
  stack : m.stack = below
  parsed : ∃ p, parseSource source path = .ok p
  onward : Onward (.exit (.module path) :: below) (m.enterModule path source) n

/-- The frame of a module goes when something is given to it. -/
theorem not_gives_of_suffix {f : Frame} (hstep : m.step = .next n) (hs : f :: below <:+ n.stack)
    (hf : f.isFile = true) : ¬ m.Gives (f :: below) := by
  rintro ⟨hstack, r, hc⟩
  have hn : n.stack = below := by
    rw [Machine.step_give hc hstack] at hstep
    cases hstep
    cases f with
    | exit e => exact Machine.leave_stack _ _ _
    | _ => cases hf
  rw [hn] at hs
  have hlength := hs.length_le
  simp at hlength

/-- Every module that runs began so. -/
theorem Reached.began (h : Reached libraries maxDepth x)
    (hs : .exit (.module path) :: below <:+ x.machine.stack) :
    ∃ m source, Began libraries maxDepth path below m source x.machine := by
  induction h with
  | create => cases List.suffix_nil.1 hs
  | forget => cases List.suffix_nil.1 hs
  | run _ hm =>
    obtain ⟨p, _, rfl⟩ := eq_of_start hm
    cases List.suffix_nil.1 hs
  | @session kept i _ _ _ _ hm =>
    obtain ⟨p, _, rfl⟩ := eq_of_startSession hm
    obtain ⟨above, hstack, habove⟩ := (Quiet.program (i.inSession kept) .nil p).stack
    have hs : .exit (.module path) :: below <:+ ((i.inSession kept).program .nil p).stack := hs
    rw [hstack, i.inSession_stack] at hs
    rcases List.suffix_cons_iff.1 (suffix_of_append rfl habove hs) with he | hs
    · cases he
    · cases List.suffix_nil.1 hs
  | render => cases List.suffix_nil.1 hs
  | next hm hstep ih =>
    rcases (FileStep.of_next hstep).suffix hs with hold | ⟨pos, source, p, hc, hb, hp, rfl⟩
    · obtain ⟨start, source, hstart⟩ := ih hold
      exact ⟨start, source, { hstart with
        onward := hstart.onward.next (not_gives_of_suffix hstep hs rfl) hstep }⟩
    · exact ⟨_, source, hm, ⟨pos, hc⟩, hb, ⟨p, hp⟩, .start⟩
  | ask reply hm hstep ih =>
    rcases (FileStep.of_ask hstep reply).suffix hs with hold | ⟨pos, source, p, hc, hb, hp, hn⟩
    · obtain ⟨start, source, hstart⟩ := ih hold
      exact ⟨start, source, { hstart with onward := hstart.onward.ask hstep }⟩
    · refine ⟨_, source, hm, ⟨pos, hc⟩, hb, ⟨p, hp⟩, ?_⟩
      rw [State.machine, hn]
      exact .start
  | done => cases List.suffix_nil.1 hs

/-- What is loaded is what the module ended with, when nothing was loaded for it yet. -/
theorem Reached.cached_at_end (h : Reached libraries maxDepth x) {space : Ref}
    (hs : x.machine.modules.get? path = some space) :
    ∃ start source n, Began libraries maxDepth path start.stack start source n ∧
      Ends (.exit (.module path) :: start.stack) (.value (.namespaceRef space)) n
        (start.enterModule path source) ∧
      n.modules.get? path = none ∧ ReflTransGen (State.Leads .any) (.running n) x := by
  obtain ⟨i, hi, hx⟩ := reached_iff.1 h
  clear h
  induction hx with
  | refl =>
    have hempty : i.modules.get? path = some space := hs
    rw [(Interpreter.new_of_create hi).modules] at hempty
    simp [Table.get?] at hempty
  | @tail y z hxy hyz ih =>
    have hy : Reached libraries maxDepth y := reached_iff.2 ⟨i, hi, hxy⟩
    by_cases hold : y.machine.modules.get? path = some space
    · obtain ⟨start, source, n, hbegan, hends, hnone, hleads⟩ := ih hold
      exact ⟨start, source, n, hbegan, hends, hnone, hleads.tail hyz⟩
    · rcases hyz.modules with he | ⟨m, other, new, below, rfl, hc, hstack, he⟩
      · exact absurd (he ▸ hs) hold
      · rw [he] at hs
        by_cases hp : path = other
        · subst hp
          rw [Table.get?_put_self] at hs
          cases hs
          have hsuffix : .exit (.module path) :: below <:+ m.stack := hstack ▸ List.suffix_rfl
          obtain ⟨start, source, hbegan⟩ := hy.began hsuffix
          have hnone := hy.loader.uncached path (hstack ▸ List.mem_cons_self)
          refine ⟨start, source, m, hbegan.stack ▸ hbegan, ?_, hnone, .single hyz⟩
          rw [hbegan.stack]
          exact hbegan.onward.ends (.here hstack hc)
        · rw [Table.get?_put_of_ne _ _ hp] at hs
          exact absurd hs hold

/-- A module that ends with a value has run to its end. -/
theorem Reached.runsAll_module {pos : Position} {source : String} {p : Program} {v : Value}
    (h : Reached libraries maxDepth (.running m)) (hc : m.control = .load path pos)
    (hp : parseSource source path = .ok p)
    (he : Ends (.exit (.module path) :: m.stack) (.value v) n (m.enterModule path source)) :
    ∃ k, RunsAll (.value (.exports (Path.stem path) p) :: .exit (.scope m.scope) ::
        .exit (.module path) :: m.stack) (m.enterModule path source) p k ∧
      Ends (.exit (.module path) :: m.stack) (.value v) n k := by
  have hm : Reached libraries maxDepth (.running (m.enterModule path source)) := by
    obtain ⟨resume, hstep, hresume⟩ : ∃ resume, m.step = .ask (.read path) resume ∧
        resume (.ok source) = m.enterModule path source := ⟨_, by rw [Machine.step, hc], rfl⟩
    rw [← hresume]
    exact h.ask _ hstep
  simp only [Machine.enterModule, Machine.proceed, hp] at hm he ⊢
  exact he.runsAll ⟨[_, _], rfl⟩ (by simp [Machine.push, Machine.enterScope]) hm

/-! ## Imports -/

/-- A file that runs is found, with the files that it led to. -/
theorem cycle?_of_mem {before after : List String} (h : (before ++ path :: after).Nodup) :
    Machine.cycle? (before ++ path :: after) path = some (path :: after ++ [path]) := by
  have hbefore : path ∉ before := fun hp =>
    (List.nodup_append.1 h).2.2 path hp path List.mem_cons_self rfl
  have hdrop : (before ++ path :: after).dropWhile (· ≠ path) = path :: after := by
    rw [List.dropWhile_append_of_pos]
    · simp
    · intro other ho
      simpa using fun he : other = path => hbefore (he ▸ ho)
  rw [Machine.cycle?, hdrop]

theorem cycle?_of_not_mem {loading : List String} (h : path ∉ loading) :
    Machine.cycle? loading path = none := by
  have hdrop : loading.dropWhile (· ≠ path) = [] := by
    rw [List.dropWhile_eq_nil_iff]
    intro other ho
    simpa using fun he : other = path => h (he ▸ ho)
  rw [Machine.cycle?, hdrop]

/-- What an import of the file `found` comes to. A module that is loaded is given, and nothing else
    changes. Otherwise a file that runs is refused with the files from it back to it, and all other
    files are read. -/
structure Machine.Imports (m : Machine) (pos : Position) (found : String) (n : Machine) : Prop where
  cached : ∀ space, m.modules.get? found = some space → n = m.give (.namespaceRef space)
  circular : m.modules.get? found = none → ∀ before after, m.loading = before ++ found :: after →
    n = m.fail pos (.circularImport (String.intercalate " -> " (found :: after ++ [found])))
  read : m.modules.get? found = none → found ∉ m.loading →
    n = { m with control := .load found pos }

theorem Machine.imports_importLocated (h : m.loading.Nodup) (pos : Position) (found : String) :
    m.Imports pos found (m.importLocated pos found) := by
  refine ⟨fun space hs => ?_, fun hnone before after hl => ?_, fun hnone hl => ?_⟩
  · simp only [Machine.importLocated, hs]
  · rw [hl] at h
    simp only [Machine.importLocated, hnone, hl, cycle?_of_mem h]
  · simp only [Machine.importLocated, hnone, cycle?_of_not_mem hl]

/-- Modules are loaded once. In every state that an interpreter comes to, whatever files the host
    finds: no file runs twice, and none is left when a run is done. An import gives what is loaded
    and changes nothing; a file that runs and is not loaded is refused, with the files from it back
    to it, before it is read. What is loaded stays. It was loaded at the end of a run from where its
    file was read: all statements of the file were executed in turn and ended normally, and then
    the namespace was given. -/
theorem Reached.modules_load_once (h : Reached libraries maxDepth x) :
    x.machine.loading.Nodup ∧
    (∀ m n r, x = .running m → m.step = .done n r → n.loading = []) ∧
    (∀ m wanted pos, x = .running m → m.control = .locate wanted pos →
      ∃ resume, m.step = .ask (.locate wanted) resume ∧
        ∀ found : String, m.Imports pos found (resume (.ok found))) ∧
    ∀ path space, x.machine.modules.get? path = some space →
      (∀ y, ReflTransGen (State.Leads .any) x y → y.machine.modules.get? path = some space) ∧
      ∃ start pos source p k n, Reached libraries maxDepth (.running start) ∧
        start.control = .load path pos ∧ parseSource source path = .ok p ∧
        RunsAll (.value (.exports (Path.stem path) p) :: .exit (.scope start.scope) ::
          .exit (.module path) :: start.stack) (start.enterModule path source) p k ∧
        Ends (.exit (.module path) :: start.stack) (.value (.namespaceRef space)) n k ∧
        n.modules.get? path = none ∧ ReflTransGen (State.Leads .any) (.running n) x := by
  refine ⟨h.loader.nodup, ?_, ?_, fun path space hs => ⟨fun y hy => h.cached_stays hy hs, ?_⟩⟩
  · rintro m n r rfl hdone
    obtain ⟨rfl, _, hstack⟩ := Machine.done_iff.1 hdone
    have hchained : Chained n.stack n.loading := h.loader.chained
    exact (hstack ▸ hchained).eq_nil
  · rintro m wanted pos rfl hc
    refine ⟨_, by rw [Machine.step, hc], fun found => ?_⟩
    exact Machine.imports_importLocated h.loader.nodup pos found
  · obtain ⟨start, source, n, hbegan, hends, hnone, hleads⟩ := h.cached_at_end hs
    obtain ⟨pos, hc⟩ := hbegan.control
    obtain ⟨p, hp⟩ := hbegan.parsed
    obtain ⟨k, hall, hend⟩ := hbegan.reached.runsAll_module hc hp hends
    exact ⟨start, pos, source, p, k, n, hbegan.reached, hc, hp, hall, hend, hnone, hleads⟩

/-! ## Files that import each other -/

theorem Control.exists_locate {c : Control} {path : String}
    (h : (match c with
      | .locate wanted _ => wanted == path
      | _ => false) = true) : ∃ pos, c = .locate path pos := by
  split at h
  · cases beq_iff_eq.1 h
    exact ⟨_, rfl⟩
  · cases h

/-- The second file imports the first one, from which it was imported. -/
theorem a_circle_of_files_is_refused : ∃ m pos resume, Reached [] 4 (.running m) ∧
    m.loading = ["/a", "/b"] ∧ m.modules.get? "/a" = none ∧ m.step = .ask (.locate "/a") resume ∧
    resume (.ok "/a") = m.fail pos (.circularImport "/a -> /b -> /a") := by
  have hrun : ((Interpreter.create [] 4).toOption.any fun i =>
      (i.start [] "import('b');" "a").toOption.any fun m =>
      (m.answered (Request.among [("/a", "import('b');"), ("/b", "import('a');")]) 11).any fun m =>
        m.loading == ["/a", "/b"] && (m.modules.get? "/a").isNone &&
        match m.control with
        | .locate wanted _ => wanted == "/a"
        | _ => false) = true := by
    decide +kernel
  obtain ⟨i, hi, hrun⟩ := exists_ok_of_any hrun
  obtain ⟨m, hm, hrun⟩ := exists_ok_of_any hrun
  simp only [Option.any_eq_true, Bool.and_eq_true, beq_iff_eq, Option.isNone_iff_eq_none] at hrun
  obtain ⟨n, hn, ⟨hloading, hnone⟩, hc⟩ := hrun
  obtain ⟨pos, hlocate⟩ := Control.exists_locate hc
  have hreach := ((Reached.create hi).run hm).answered hn
  obtain ⟨resume, hstep, himports⟩ := hreach.modules_load_once.2.2.1 n "/a" pos rfl hlocate
  exact ⟨n, pos, resume, hreach, hloading, hnone, hstep,
    (himports "/a").circular hnone [] ["/b"] hloading⟩

/-! ## A file that runs and was loaded before -/

/-- A file is imported, and afterwards a program is run under its name, which imports it. The file
    runs then, but it is given. -/
theorem a_file_that_runs_and_is_loaded_is_given : ∃ m pos space resume,
    Reached [] 4 (.running m) ∧ m.control = .locate "b" pos ∧ m.loading = ["/b"] ∧
    m.step = .ask (.locate "b") resume ∧ resume (.ok "/b") = m.give (.namespaceRef space) := by
  have hrun : ((Interpreter.create [] 4).toOption.any fun i =>
      (i.startSession [] "import('b');" "a").toOption.any fun m =>
      (m.answered (Request.among [("/b", "let x = 1;")]) 16).any fun n =>
        n.stack.isEmpty && n.control.given?.isSome &&
        (n.toInterpreter.start [] "import('b');" "b").toOption.any fun m =>
        (m.answered (Request.among [("/b", "let x = 1;")]) 5).any fun m =>
          m.loading == ["/b"] && (m.modules.get? "/b").isSome &&
          match m.control with
          | .locate wanted _ => wanted == "b"
          | _ => false) = true := by
    decide +kernel
  obtain ⟨i, hi, hrun⟩ := exists_ok_of_any hrun
  obtain ⟨m, hm, hrun⟩ := exists_ok_of_any hrun
  obtain ⟨n, hn, hrun⟩ := (Option.any_eq_true _ _).1 hrun
  simp only [Bool.and_eq_true, List.isEmpty_iff, Option.isSome_iff_exists,
    Control.given?_eq_some] at hrun
  obtain ⟨⟨hstack, r, hc⟩, hrun⟩ := hrun
  obtain ⟨m', hm', hrun⟩ := exists_ok_of_any hrun
  simp only [Option.any_eq_true, Bool.and_eq_true, beq_iff_eq] at hrun
  obtain ⟨k, hk, ⟨hloading, hsome⟩, hwanted⟩ := hrun
  obtain ⟨space, hspace⟩ := Option.isSome_iff_exists.1 hsome
  obtain ⟨pos, hlocate⟩ := Control.exists_locate hwanted
  have hrest := (((Reached.create hi).session hm).answered hn).done
    (Machine.done_iff.2 ⟨rfl, hc, hstack⟩)
  have hreach := ((hrest.forget (List.nil_subset _)).run hm').answered hk
  have himports := Machine.imports_importLocated hreach.loader.nodup pos "/b"
  exact ⟨k, pos, space, _, hreach, hlocate, hloading, by rw [Machine.step, hlocate],
    himports.cached space hspace⟩

end TinyScript

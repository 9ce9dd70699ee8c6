/-
  TinyScript.Proofs.Scoping.Calling — calls are lexically scoped.

  A call reads no name where it is made. Two machines that stand in different scopes and are
  otherwise the same do the same for a call (`Apart`): as long as neither has entered a scope, only
  frames that read no name wait for it; once they have entered one they are in the same scope, and
  what differs is the frame that leads back, far below. So the call gives the same in both, asks
  the host for the same, and leaves the same behind.
-/

import TinyScript.Proofs.Control.Restored
import TinyScript.Proofs.Scoping.Stacking

namespace TinyScript

open Store TinyScript.Text

variable {r : Result}

/-! ## What reads no name -/

def Control.blind : Control → Bool
  | .eval _ | .exec _ => false
  | _ => true

/-- A frame that reads no name in the scope it goes on in, and does not say which one that is. -/
def Frame.blind : Frame → Bool
  | .text _ | .value (.construct ..) | .value (.strResult ..) => true
  | .exit (.call ..) | .exit (.module ..) | .exit (.run ..) => true
  | _ => false

inductive LeadsBack : (ScopeId → Frame) → Prop
  | scope : LeadsBack fun k => .exit (.scope k)
  | session : LeadsBack fun k => .exit (.session k)

def Machine.inScope (m : Machine) (j : ScopeId) : Machine := { m with scope := j }

@[simp]
theorem Machine.inScope_store (m : Machine) (j : ScopeId) : (m.inScope j).store = m.store := rfl

@[simp]
theorem Machine.inScope_control (m : Machine) (j : ScopeId) :
    (m.inScope j).control = m.control := rfl

/-- The machine stands in a scope, and only blind frames are above those below. -/
structure Outside (i : ScopeId) (below : List Frame) (m : Machine) : Prop where
  scope : m.scope = i
  frames : ∃ frames, m.stack = frames ++ below ∧ ∀ f ∈ frames, f.blind = true

/-- Two machines that are the same, but for the scope that the frames below go on in. -/
inductive Apart (i j : ScopeId) (below : List Frame) : Machine → Machine → Prop
  | outside {m : Machine} : Outside i below m → m.control.blind = true →
    Apart i j below m (m.inScope j)
  | inside (back : ScopeId → Frame) (frames : List Frame) (top : Machine) : LeadsBack back →
    (∀ f ∈ frames, f.blind = true) →
    Apart i j below (top.atop (back i :: (frames ++ below)))
      (top.atop (back j :: (frames ++ below)))

variable {i j : ScopeId} {below : List Frame} {m m' : Machine}

namespace Outside

/-! ## Results -/

section

variable (h : Outside i below m)
include h

theorem go {c : Control} (hc : c.blind = true) :
    Apart i j below { m with control := c } ({ m with control := c }.inScope j) :=
  .outside ⟨h.scope, h.frames⟩ hc

theorem push {f : Frame} (hf : f.blind = true) : Outside i below (m.push f) := by
  obtain ⟨frames, hstack, hframes⟩ := h.frames
  refine ⟨h.scope, f :: frames, congrArg (f :: ·) hstack, ?_⟩
  rintro g (_ | ⟨_, hg⟩)
  · exact hf
  · exact hframes g hg

theorem stored (s : Store) : Outside i below { m with store := s } := ⟨h.scope, h.frames⟩

theorem proceed {α : Type} (r : Except Fault α) {next next' : α → Machine}
    (hnext : ∀ a, Apart i j below (next a) (next' a)) :
    Apart i j below (m.proceed r next) ((m.inScope j).proceed r next') := by
  cases r with
  | ok a => exact hnext a
  | error f => exact h.go rfl

/-! ## Entering a scope -/

/-- In the new scope nothing depends on the scope before. -/
theorem enterScope {f : Frame} (hf : f.blind = true) (parent : ScopeId) (kind : ScopeKind)
    (start : Machine → Machine) (hstart : ∀ (n : Machine) s, start (n.atop s) = (start n).atop s) :
    Apart i j below (start ((m.push f).enterScope parent kind))
      (start (((m.inScope j).push f).enterScope parent kind)) := by
  obtain ⟨hscope, frames, hstack, hframes⟩ := h.push hf
  have hback : ∀ k, ((m.inScope k).push f).enterScope parent kind =
      { (m.push f).enterScope parent kind with stack := [] }.atop
        (.exit (.scope k) :: (frames ++ below)) := by
    intro k
    rw [← hstack]
    rfl
  have hm : m.inScope i = m := by
    rw [← h.scope]
    rfl
  have hi := hback i
  rw [hm] at hi
  rw [hi, hback j, hstart, hstart]
  exact .inside (fun k => .exit (.scope k)) frames _ .scope hframes

/-! ## Calls -/

theorem callFunction (f : Function) (held args : List Value) (pos : Position) :
    Apart i j below (m.callFunction f held args pos)
      ((m.inScope j).callFunction f held args pos) := by
  unfold Machine.callFunction
  dsimp only
  split
  · exact h.go rfl
  · change Apart i j below _ (if m.maxDepth ≤ m.depth then _ else _)
    split
    · exact h.go rfl
    · refine h.proceed _ fun _ => ?_
      have hcall : Outside i below { m with depth := m.depth + 1 } := ⟨h.scope, h.frames⟩
      exact hcall.enterScope rfl _ .function
        (fun n => (n.push (.flow .functionBody)).startBody f args pos)
        fun n s => (n.push (.flow .functionBody)).atop_startBody s f args pos

theorem construct (classRef : Ref) (args : List Value) (pos : Position) :
    Apart i j below (m.construct classRef args pos)
      ((m.inScope j).construct classRef args pos) := by
  unfold Machine.construct
  dsimp only [Machine.inScope_store]
  split
  · exact h.go rfl
  next c _ =>
    have hmade := h.stored (m.store.newObject classRef
      (Table.ofList (c.properties.map fun p => (p.name, Value.nil)))).2
    split
    · exact (hmade.push rfl).callFunction _ _ args pos
    · split
      · exact hmade.go rfl
      · exact hmade.go rfl

/-! ## Texts -/

theorem renderParts (opening closing : String) (held : List Value) (done : List String)
    (path : List Ref) (pos : Position) (todo : List (String × Value)) :
    Apart i j below (m.renderParts opening closing held done path pos todo)
      ((m.inScope j).renderParts opening closing held done path pos todo) := by
  cases todo with
  | nil => exact h.go rfl
  | cons part todo => exact (h.push rfl).go rfl

theorem renderObject (r : Ref) (path : List Ref) (pos : Position) :
    Apart i j below (m.renderObject r path pos) ((m.inScope j).renderObject r path pos) := by
  unfold Machine.renderObject
  dsimp only [Machine.inScope_store]
  split
  · split
    · exact h.go rfl
    · split
      · exact h.go rfl
      · exact h.renderParts _ _ _ _ _ pos _
  · exact h.go rfl

theorem render (v : Value) (nested : Bool) (path : List Ref) (pos : Position) :
    Apart i j below (m.render v nested path pos) ((m.inScope j).render v nested path pos) := by
  unfold Machine.render
  dsimp only [Machine.inScope_store]
  split
  · split
    · exact h.go rfl
    · exact h.renderParts _ _ _ _ _ pos _
  · split
    · exact (h.push rfl).callFunction _ _ _ pos
    · exact h.renderObject _ path pos
  · exact h.go rfl

theorem renderTexts (use : TextUse) (held : List Value) (done : List String) (pos : Position)
    (todo : List Value) : Apart i j below (m.renderTexts use held done pos todo)
      ((m.inScope j).renderTexts use held done pos todo) := by
  cases todo with
  | nil => cases use <;> exact h.go rfl
  | cons v todo => exact (h.push rfl).go rfl

theorem stringify (held : List Value) (pos : Position) (v : Value) :
    Apart i j below (m.stringify held pos v) ((m.inScope j).stringify held pos v) :=
  h.renderTexts _ held _ pos _

/-! ## Built-in functions -/

theorem lengthOf (pos : Position) (v : Value) :
    Apart i j below (m.lengthOf pos v) ((m.inScope j).lengthOf pos v) := by
  unfold Machine.lengthOf
  dsimp only [Machine.inScope_store]
  split <;> exact h.go rfl

theorem cast (t : BuiltinType) (args : List Value) (pos : Position) :
    Apart i j below (m.cast t args pos) ((m.inScope j).cast t args pos) := by
  unfold Machine.cast
  split
  · split
    · split <;> exact h.go rfl
    · exact h.stringify _ pos _
    · exact h.go rfl
    · exact h.go rfl
    · exact h.go rfl
  · exact h.go rfl

theorem callMethod (method : Method) (receiver : Value) (held : List Value) (arg : Value)
    (pos : Position) : Apart i j below (m.callMethod method receiver held arg pos)
      ((m.inScope j).callMethod method receiver held arg pos) := by
  cases method with
  | str => exact h.stringify held pos receiver
  | clone => exact (h.stored (m.store.clone receiver).2).go rfl
  | len => exact h.lengthOf pos receiver
  | add =>
    cases receiver with
    | array r => exact (h.stored (m.store.apply (.append r arg))).go rfl
    | _ => exact h.go rfl
  | pop =>
    cases receiver with
    | array r => exact (h.stored (m.store.apply (.dropLast r))).go rfl
    | _ => exact h.go rfl
  | join =>
    unfold Machine.callMethod Machine.join
    dsimp only [Machine.inScope_store]
    split
    · exact h.renderTexts _ _ _ pos _
    · exact h.go rfl
  | contains =>
    unfold Machine.callMethod Machine.contains
    dsimp only [Machine.inScope_store]
    split <;> exact h.go rfl
  | upper => cases receiver <;> exact h.go rfl
  | lower => cases receiver <;> exact h.go rfl
  | split =>
    unfold Machine.callMethod Machine.split
    dsimp only
    split
    · exact (h.stored _).go rfl
    · exact h.go rfl

theorem runNative (n : Native) (callee : Value) (args : List Value) (pos : Position) :
    Apart i j below (m.runNative n callee args pos)
      ((m.inScope j).runNative n callee args pos) := by
  cases n with
  | print => exact h.renderTexts _ _ _ pos _
  | input =>
    unfold Machine.runNative
    dsimp only
    split
    · exact h.renderTexts _ _ _ pos _
    · exact h.go rfl
  | typeof => exact h.go rfl
  | str => exact h.stringify _ pos _
  | len => exact h.lengthOf pos _
  | range =>
    unfold Machine.runNative
    dsimp only
    cases rangeItems args with
    | ok items => exact (h.stored (m.store.newArray items).2).go rfl
    | error f => exact h.go rfl
  | method method receiver => exact h.callMethod method receiver _ _ pos
  | host name arity keeps run =>
    simp only [Machine.runNative, Machine.inScope]
    generalize (run args.length).perform m.objectClass m.store (keeps :: args) = r
    obtain ⟨_ | _, s⟩ := r <;> exact (h.stored s).go rfl

theorem callNative (n : Native) (callee : Value) (args : List Value) (pos : Position) :
    Apart i j below (m.callNative n callee args pos)
      ((m.inScope j).callNative n callee args pos) := by
  unfold Machine.callNative
  split
  · split
    · exact h.runNative n callee args pos
    · exact h.go rfl
  · exact h.runNative n callee args pos

theorem call (callee : Value) (args : List Value) (pos : Position) :
    Apart i j below (m.call callee args pos) ((m.inScope j).call callee args pos) := by
  unfold Machine.call
  dsimp only [Machine.inScope_store]
  split
  · split
    · exact h.callFunction _ _ args pos
    · exact h.callNative _ _ args pos
    · exact h.go rfl
  · exact h.construct _ args pos
  · exact h.cast _ args pos
  · exact h.go rfl

/-! ## Files -/

theorem importLocated (pos : Position) (path : String) :
    Apart i j below (m.importLocated pos path) ((m.inScope j).importLocated pos path) := by
  unfold Machine.importLocated
  dsimp only [Machine.inScope]
  split
  · exact h.go rfl
  · split <;> exact h.go rfl

theorem enterModule (path source : String) :
    Apart i j below (m.enterModule path source) ((m.inScope j).enterModule path source) := by
  refine h.proceed _ fun program => ?_
  have hfile : Outside i below { m with loading := m.loading ++ [path] } := ⟨h.scope, h.frames⟩
  exact hfile.enterScope rfl _ .module
    (fun n => (n.push (.value (.exports (Path.stem path) program))).program .nil program)
    fun n s => (n.push (.value (.exports (Path.stem path) program))).atop_program s .nil program

theorem enterProgram (path : Option String) (program : Program) :
    Apart i j below (m.enterProgram path program) ((m.inScope j).enterProgram path program) := by
  have hfile : Outside i below { m with loading := m.loading ++ path.toList } :=
    ⟨h.scope, h.frames⟩
  exact hfile.enterScope rfl _ .module (fun n => n.program .nil program) fun n s =>
    n.atop_program s .nil program

/-! ## Results that meet frames -/

theorem leave (hc : m.control = .give r) {e : ExitFrame} (he : Frame.blind (.exit e) = true) :
    Apart i j below (m.leave r e) ((m.inScope j).leave r e) := by
  have hgive : m.control.blind = true := by rw [hc]; rfl
  cases e with
  | scope previous => cases he
  | session previous => cases he
  | call f held pos =>
    have hleft : Outside i below { m with depth := m.depth - 1 } := ⟨h.scope, h.frames⟩
    cases r with
    | value v => exact hleft.proceed _ fun _ => hleft.go rfl
    | _ => exact .outside hleft hgive
  | module path =>
    have hleft : Outside i below { m with loading := m.loading.dropLast } := ⟨h.scope, h.frames⟩
    cases r with
    | value v =>
      cases v with
      | namespaceRef r =>
        exact .outside (m := { m with
            loading := m.loading.dropLast, modules := m.modules.put path r })
          ⟨h.scope, h.frames⟩ hgive
      | _ => exact .outside hleft hgive
    | _ => exact .outside hleft hgive
  | run located =>
    cases located <;> cases hr : m.reclaims <;>
      simp only [Machine.leave, Bool.false_eq_true, ↓reduceIte, Machine.inScope, hr] <;>
      exact .outside ⟨h.scope, h.frames⟩ hgive

theorem resume (hc : m.control = .give r) {f : Frame} (hf : f.blind = true) :
    Apart i j below (m.resume r f) ((m.inScope j).resume r f) := by
  have hgive : m.control.blind = true := by rw [hc]; rfl
  cases f with
  | exit e => exact h.leave hc hf
  | flow f => cases hf
  | text f =>
    cases r with
    | text t =>
      cases f with
      | parts => exact h.renderParts _ _ _ _ _ _ _
      | texts => exact h.renderTexts _ _ _ _ _
    | _ => exact .outside h hgive
  | value f =>
    cases r with
    | value v =>
      cases f with
      | construct object held => exact h.go rfl
      | strResult name pos => cases v <;> exact h.go rfl
      | _ => cases hf
    | _ => exact .outside h hgive

end

end Outside

/-! ## Steps -/

namespace Apart

theorem symm (h : Apart i j below m m') : Apart j i below m' m := by
  cases h with
  | outside ho hc =>
    have hm : (m.inScope j).inScope i = m := by
      rw [← ho.scope]
      rfl
    have hback : Apart j i below (m.inScope j) ((m.inScope j).inScope i) :=
      .outside ⟨rfl, ho.frames⟩ hc
    rwa [hm] at hback
  | inside back frames top hback hframes => exact .inside back frames top hback hframes

/-- The frame that leads back has come to the top. -/
theorem leaveScope {back : ScopeId → Frame} (hback : LeadsBack back) {frames : List Frame}
    (hframes : ∀ f ∈ frames, f.blind = true) (hm : m.stack = frames ++ below)
    (hc : m.control = .give r) :
    Apart i j below (m.resume r (back i)) (m.resume r (back j)) := by
  have hgive : m.control.blind = true := by rw [hc]; rfl
  cases hback with
  | scope =>
    simp only [Machine.resume, Machine.leave]
    split
    · exact .outside (m := { m with store := m.store.release m.held m.scope, scope := i })
        ⟨rfl, frames, hm, hframes⟩ hgive
    · exact .outside (m := { m with store := m.store.retire m.scope, scope := i })
        ⟨rfl, frames, hm, hframes⟩ hgive
  | session => exact .outside (m := { m with scope := i }) ⟨rfl, frames, hm, hframes⟩ hgive

/-- One step of machines that are apart. -/
theorem step (h : Apart i j below m m') (hgo : ¬ m.Gives below) :
    Step.Alike (Apart i j below) m.step m'.step := by
  cases h with
  | outside ho hc =>
    unfold Machine.step
    rw [Machine.inScope_control]
    split
    next he =>
      rw [he] at hc
      cases hc
    next he =>
      rw [he] at hc
      cases hc
    next v nested path pos _ => exact .next (ho.render v nested path pos)
    next => exact .ask fun _ => ho.go rfl
    next => exact .ask fun _ => ho.go rfl
    next program _ => exact .ask fun found => ho.enterProgram _ program
    next pos _ =>
      refine .ask fun found => ?_
      cases (found : Except String String) with
      | ok path => exact ho.importLocated pos path
      | error reason => exact ho.go rfl
    next path pos _ =>
      refine .ask fun source => ?_
      cases (source : Except String String) with
      | ok source => exact ho.enterModule path source
      | error reason => exact ho.go rfl
    next r hr =>
      obtain ⟨frames, hstack, hframes⟩ := ho.frames
      cases frames with
      | nil => exact absurd ⟨hstack, r, hr⟩ hgo
      | cons f frames =>
        have hscoped : (m.inScope j).stack = f :: (frames ++ below) := hstack
        rw [hscoped, hstack]
        have hrest : Outside i below { m with stack := frames ++ below } :=
          ⟨ho.scope, frames, rfl, fun g hg => hframes g (.tail _ hg)⟩
        exact .next (hrest.resume hr (hframes f (.head _)))
  | inside back frames top hback hframes =>
    by_cases hg : top.Gives []
    · obtain ⟨hs, r, hr⟩ := hg
      have hstep : ∀ k, (top.atop (back k :: (frames ++ below))).step =
          .next ({ top with stack := frames ++ below }.resume r (back k)) := by
        intro k
        simp only [Machine.step, Machine.atop, hr, hs, List.nil_append]
      rw [hstep, hstep]
      exact .next (leaveScope hback hframes rfl hr)
    · refine (Machine.atop_step hg ?_).imp ?_
      · cases hback <;> rfl
      · rintro _ _ ⟨top', rfl, rfl⟩
        exact .inside back frames top' hback hframes

/-- They differ in nothing that stays from one run to the next. -/
theorem toInterpreter (h : Apart i j below m m') : m'.toInterpreter = m.toInterpreter := by
  cases h <;> rfl

/-- Machines that are apart give a result together. -/
theorem gives (h : Apart i j below m m') (hg : m.Gives below) : m.scope = i ∧ m' = m.inScope j := by
  cases h with
  | outside ho _ => exact ⟨ho.scope, rfl⟩
  | inside back frames top hback hframes =>
    have hlength := congrArg List.length hg.1
    simp only [Machine.atop, List.length_append, List.length_cons] at hlength
    omega

theorem not_gives (h : Apart i j below m m') (hgo : ¬ m.Gives below) : ¬ m'.Gives below := by
  intro hg
  obtain ⟨_, rfl⟩ := h.symm.gives hg
  exact hgo hg

/-- Whole runs, with the same answers of the host. -/
theorem drive {μ : Type → Type} [Monad μ] (answer : (r : Request) → μ r.Reply) (fuel : Nat)
    (h : Apart i j [] m m') : drive answer fuel m' = drive answer fuel m := by
  induction fuel generalizing m m' with
  | zero => rfl
  | succ fuel ih =>
    by_cases hg : m.Gives []
    · obtain ⟨_, rfl⟩ := h.gives hg
      obtain ⟨hs, r, hr⟩ := hg
      have hscoped : (m.inScope j).stack = [] := hs
      simp only [TinyScript.drive, Machine.step, Machine.inScope_control, hr, hs, hscoped]
      rfl
    · have hstep := h.step hg
      generalize hs : m.step = s, hs' : m'.step = s' at hstep
      cases hstep with
      | next h => simp only [TinyScript.drive, hs, hs', ih h]
      | ask h => simp only [TinyScript.drive, hs, hs', ih (h _)]

end Apart

/-! ## What a part of a run says to the host -/

inductive EndsAfter (below : List Frame) (r : Result) (n : Machine) :
    List ((request : Request) × request.Reply) → Machine → Prop
  | here : n.stack = below → n.control = .give r → EndsAfter below r n [] n
  | next {m m' : Machine} {talk : List ((request : Request) × request.Reply)} :
    ¬ m.Gives below → m.step = .next m' → EndsAfter below r n talk m' →
    EndsAfter below r n talk m
  | ask {m : Machine} {request : Request} {resume : request.Reply → Machine}
    {talk : List ((request : Request) × request.Reply)} (reply : request.Reply) :
    m.step = .ask request resume → EndsAfter below r n talk (resume reply) →
    EndsAfter below r n (⟨request, reply⟩ :: talk) m

/-- A machine that gives a result does not ask. -/
theorem Machine.not_gives_of_ask {request : Request} {resume : request.Reply → Machine}
    (hstep : m.step = .ask request resume) : ¬ m.Gives below := by
  rintro ⟨_, r, hc⟩
  unfold step at hstep
  rw [hc] at hstep
  dsimp only at hstep
  split at hstep <;> cases hstep

/-- Of machines that are apart, where one ends the other does, and they are apart in their scopes
    alone. -/
theorem Apart.ends {n : Machine} {talk : List ((request : Request) × request.Reply)}
    (h : Apart i j below m m') (he : EndsAfter below r n talk m) :
    n.scope = i ∧ EndsAfter below r (n.inScope j) talk m' := by
  induction he generalizing m' with
  | here hs hc =>
    obtain ⟨hscope, rfl⟩ := h.gives ⟨hs, r, hc⟩
    exact ⟨hscope, .here hs hc⟩
  | next hgo hstep _ ih =>
    obtain ⟨_, hstep', hnext⟩ := (h.step hgo).of_next hstep
    obtain ⟨hscope, he⟩ := ih hnext
    exact ⟨hscope, .next (h.not_gives hgo) hstep' he⟩
  | ask reply hstep _ ih =>
    obtain ⟨_, hstep', hnext⟩ := (h.step (Machine.not_gives_of_ask hstep)).of_ask hstep
    obtain ⟨hscope, he⟩ := ih (hnext reply)
    exact ⟨hscope, .ask reply hstep' he⟩

theorem Machine.apart_call (m : Machine) (j : ScopeId) (below : List Frame) (callee : Value)
    (args : List Value) (pos : Position) :
    Apart m.scope j below (m.begin below (.call callee args pos))
      ((m.inScope j).begin below (.call callee args pos)) := by
  have hout : Outside m.scope below { m with stack := below } := ⟨rfl, [], rfl, by simp⟩
  exact hout.call callee args pos

/-- Calls are lexically scoped. Whatever value is called, with whatever arguments, in two states
    that differ only in which scope is current: one call ends if and only if the other does, with
    the same value or fault, after the same lines and prompts and whatever else was asked of the
    host, and what it leaves is the same but for the current scope, which is in each the one it
    was. So it is for a call that the host makes, however far it gets. -/
theorem Machine.call_is_lexically_scoped (m : Machine) (j : ScopeId) (below : List Frame)
    (callee : Value) (args : List Value) (pos : Position) :
    (∀ talk r n, EndsAfter below r n talk (m.begin below (.call callee args pos)) ↔
      n.scope = m.scope ∧
        EndsAfter below r (n.inScope j) talk ((m.inScope j).begin below (.call callee args pos))) ∧
    ∀ (μ : Type → Type) [Monad μ] (answer : (r : Request) → μ r.Reply) (fuel : Nat),
      drive answer fuel ((m.inScope j).begin [] (.call callee args pos)) =
        drive answer fuel (m.begin [] (.call callee args pos)) := by
  refine ⟨fun talk r n => ⟨(m.apart_call j below callee args pos).ends, ?_⟩,
    fun μ _ answer fuel => (m.apart_call j [] callee args pos).drive answer fuel⟩
  rintro ⟨hscope, he⟩
  have hback := ((m.apart_call j below callee args pos).symm.ends he).2
  have hn : (n.inScope j).inScope m.scope = n := by
    rw [← hscope]
    rfl
  rwa [hn] at hback

end TinyScript

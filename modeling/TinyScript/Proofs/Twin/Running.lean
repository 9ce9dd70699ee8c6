/-
  TinyScript.Proofs.Twin.Running — what machines in step do.

  One lemma for each thing a machine does: if two machines are in step before it, they are after it.
-/

import TinyScript.Proofs.Twin.Machine

namespace TinyScript

open Store TinyScript.Text

variable {kept : List Ref} {G H : Ref → Prop} {m m' : Machine} {v w : Value} {pos : Position}
  {args held : List Value}

namespace Twins

theorem inStep (h : Twins kept G m m') : InStep kept m m' := ⟨G, h⟩

/-! ## Results of the store -/

theorem changed (h : Twins kept G m m') {c d : Change} (hc : SameChange G m.store m'.store c d) :
    Twins kept G (m.changed c) (m'.changed d) :=
  h.advance (h.tracks.apply hc)

/-- Both go on with the same result, or with the same fault. -/
theorem proceed {α : Type} (h : Twins kept G m m') {r : Except Fault α} {next next' : α → Machine}
    (hn : ∀ a, r = .ok a → InStep kept (next a) (next' a)) :
    InStep kept (m.proceed r next) (m'.proceed r next') := by
  cases r with
  | ok a => exact hn a rfl
  | error f => exact (h.fault f).inStep

theorem proceedAt {α : Type} (h : Twins kept G m m') {r r' : Except Failure α} {R : α → α → Prop}
    (hr : SameResult R r r') {next next' : α → Machine}
    (hn : ∀ a b, R a b → InStep kept (next a) (next' b)) :
    InStep kept (m.proceedAt pos r next) (m'.proceedAt pos r' next') := by
  cases hr with
  | ok hab => exact hn _ _ hab
  | error f => exact (h.fail pos f).inStep

theorem change (h : Twins kept G m m') {r r' : Except Fault Change}
    (hr : SameResult (SameChange G m.store m'.store) r r') {next : Machine → Machine}
    (hn : ∀ n n', Twins kept G n n' → InStep kept (next n) (next n')) :
    InStep kept (m.change r next) (m'.change r' next) := by
  cases hr with
  | ok hc => exact hn _ _ (h.changed hc)
  | error f => exact (h.fault f).inStep

theorem changeAt (h : Twins kept G m m') {r r' : Except Failure Change}
    (hr : SameResult (SameChange G m.store m'.store) r r') {next : Machine → Machine}
    (hn : ∀ n n', Twins kept G n n' → InStep kept (next n) (next n')) :
    InStep kept (m.changeAt pos r next) (m'.changeAt pos r' next) := by
  cases hr with
  | ok hc => exact hn _ _ (h.changed hc)
  | error f => exact (h.fail pos f).inStep

/-- Both make the same thing in their stores. -/
theorem making {α : Type} {refs : α → List Ref} (h : Twins kept G m m') {f f' : Store → α × Store}
    (hf : SameMade refs G m.store m'.store (f m.store) (f' m'.store)) :
    BothMade kept refs G (m.making f) (m'.making f') := by
  obtain ⟨he, H, ha, hg⟩ := hf
  exact ⟨he, H, h.advance ha, hg, ha.mono⟩

theorem capture (h : Twins kept G m m') : BothMade kept (fun r => [r]) G m.capture m'.capture := by
  unfold Machine.capture
  exact h.making (h.tracks.capture_same h.twin)

theorem giveNew (h : Twins kept G m m') {f f' : Store → Value × Store}
    (hf : SameMade Value.refs G m.store m'.store (f m.store) (f' m'.store)) :
    InStep kept (m.giveNew f) (m'.giveNew f') := by
  obtain ⟨he, H, hm, hg, _⟩ := h.making hf
  show InStep kept ((m.making f).2.give (m.making f).1) ((m'.making f').2.give (m'.making f').1)
  rw [he]
  exact (hm.give hg).inStep

theorem giveIn (h : Twins kept G m m') {x y : Value × Store}
    (hxy : SameMade Value.refs G m.store m'.store x y) :
    InStep kept (m.giveIn x) (m'.giveIn y) := by
  obtain ⟨he, H, ha, hg⟩ := hxy
  unfold Machine.giveIn
  rw [he]
  exact ((h.advance ha).give hg).inStep

theorem giveAnswer (h : Twins kept G m m') {x y : Except String Value × Store}
    (hxy : SameMade (fun answer => valueRefs answer.toOption.toList) G m.store m'.store x y) :
    InStep kept (m.giveAnswer pos x) (m'.giveAnswer pos y) := by
  obtain ⟨he, H, ha, hg⟩ := hxy
  unfold Machine.giveAnswer
  rw [he]
  split
  next v hv =>
    rw [hv] at hg
    exact ((h.advance ha).give (good_values_cons.1 hg).1).inStep
  next => exact ((h.advance ha).fail _ _).inStep

/-! ## Parts of a run -/

theorem evalFor (h : Twins kept G m m') {f : ValueFrame} (hf : Good G f.refs) (e : Expr) :
    InStep kept (m.evalFor f e) (m'.evalFor f e) :=
  ((h.push (f := .value f) trivial hf).controlled good_nil).inStep

theorem exec (h : Twins kept G m m') (s : Stmt) : Twins kept G (m.exec s) (m'.exec s) :=
  h.controlled good_nil

theorem flow (h : Twins kept G m m') {f : Flow} (hf : Good G f.refs) :
    InStep kept (m.flow f) (m'.flow f) :=
  (h.giving (r := .flow f) hf).inStep

theorem text (h : Twins kept G m m') (s : String) : InStep kept (m.text s) (m'.text s) :=
  (h.giving (r := .text s) good_nil).inStep

theorem sequence (h : Twins kept G m m') (hv : Good G v.refs) (body : List Stmt) :
    InStep kept (m.sequence v body) (m'.sequence v body) := by
  cases body with
  | nil => exact h.flow (f := .normal v) hv
  | cons s todo => exact ((h.push (f := .flow (.sequence v todo)) trivial hv).exec s).inStep

theorem program (h : Twins kept G m m') (hv : Good G v.refs) (body : List Stmt) :
    InStep kept (m.program v body) (m'.program v body) := by
  cases body with
  | nil => exact (h.give hv).inStep
  | cons s todo => exact ((h.push (f := .flow (.program v todo)) trivial hv).exec s).inStep

theorem enterBlock (h : Twins kept G m m') (body : List Stmt) :
    InStep kept (m.enterBlock body) (m'.enterBlock body) :=
  (h.enterInner .block).sequence good_nil body

/-! ## Calls -/

theorem bindArguments (h : Twins kept G m m') (body : List Stmt) {bound : List (Param × Value)}
    (hb : Good G (valueRefs (bound.map (·.2)))) :
    InStep kept (m.bindArguments body bound) (m'.bindArguments body bound) := by
  induction bound generalizing m m' with
  | nil => exact h.sequence good_nil body
  | cons b bound ih =>
    rw [List.map_cons, good_values_cons] at hb
    exact h.changeAt (h.tracks.declare h.twin hb.1 b.1.name false) fun n n' hn => ih hn hb.2

/-- What parameters are bound to are arguments. -/
theorem good_zip {params : List Param} (h : Good G (valueRefs args)) :
    Good G (valueRefs ((params.zip args).map (·.2))) := by
  intro r hr
  obtain ⟨v, hv, hr⟩ := mem_valueRefs.1 hr
  obtain ⟨⟨p, _⟩, hp, rfl⟩ := List.mem_map.1 hv
  exact h r (mem_valueRefs.2 ⟨_, (List.of_mem_zip hp).2, hr⟩)

theorem startBody (h : Twins kept G m m') {f : Function} (hf : Good G f.refs)
    (hargs : Good G (valueRefs args)) :
    InStep kept (m.startBody f args pos) (m'.startBody f args pos) := by
  unfold Machine.startBody
  split
  next this ht =>
    have hthis : Good G this.refs := by
      intro r hr
      refine hf r (List.mem_cons_of_mem _ ?_)
      simpa [ht, Value.mem_refs] using hr
    exact h.changeAt (h.tracks.declare h.twin hthis "this" true) fun n n' hn =>
      hn.bindArguments _ (good_zip hargs)
  next => exact h.bindArguments _ (good_zip hargs)

theorem callFunction (h : Twins kept G m m') {f : Function} {held args : List Value}
    (hf : Good G f.refs) (hlease : IsLease m.store f.closure) (hheld : Good G (valueRefs held))
    (hargs : Good G (valueRefs args)) :
    InStep kept (m.callFunction f held args pos) (m'.callFunction f held args pos) := by
  have hclosure : G f.closure := hf _ List.mem_cons_self
  have hhome := h.tracks.leasedScope hclosure
  have hdeep : (m'.maxDepth ≤ m'.depth) = (m.maxDepth ≤ m.depth) := by rw [h.maxDepth, h.depth]
  simp only [Machine.callFunction, hdeep]
  split
  · exact (h.fail _ _).inStep
  · split
    · exact (h.fail _ _).inStep
    · rw [h.tracks.checkArguments hhome _ hargs]
      refine h.proceed fun _ _ => ?_
      have hcall := (h.deeper (· + 1)).push (f := .exit (.call f held pos)) hlease
        (good_append.2 ⟨hf, hheld⟩)
      -- the frame of the call holds the lease of the scope that the function was made in
      have hanchor : (m.store.scope (m.store.leasedScope f.closure)).released = false ∨
          ∃ r ∈ stackRefs (.exit (.call f held pos) :: m.stack),
            (m.store.scope (m.store.leasedScope f.closure)).lease = some r := by
        rcases h.tracks.lease_leasedScope hclosure with hg | hl
        · rw [hg]
          exact .inl h.global_open
        · exact .inr ⟨_, List.mem_append_left _ (List.mem_append_left _ List.mem_cons_self), hl⟩
      have hinner := hcall.enterScope hhome hanchor .function
      exact (hinner.push (f := .flow .functionBody) trivial good_nil).startBody hf hargs

theorem construct (h : Twins kept G m m') {c : Ref} (hc : G c) (hargs : Good G (valueRefs args)) :
    InStep kept (m.construct c args pos) (m'.construct c args pos) := by
  simp only [Machine.construct, h.tracks.class? hc]
  cases hd : m.store.class? c with
  | none => exact (h.fail _ _).inStep
  | some d =>
    have hgood := h.tracks.good_class? hc hd
    let new := fun s : Store =>
      s.newObject c (Table.ofList (d.properties.map fun p => (p.name, Value.nil)))
    have hnew : SameMade Value.refs G m.store m'.store (new m.store) (new m'.store) := by
      refine h.tracks.newObject hc (good_ofList fun e he => ?_)
      obtain ⟨p, _, rfl⟩ := List.mem_map.1 he
      exact good_nil
    obtain ⟨_, _, ha, _⟩ := id hnew
    obtain ⟨he, H, hm, hg, hmono⟩ := h.making hnew
    simp only [he, new]
    cases hinit : d.methods.get? "init" with
    | some init =>
      have hhandle : init.closure ∈ (Cell.classDef d).handles :=
        List.mem_append_left _ (mem_mapRefs.2 ⟨"init", init, hinit, List.mem_cons_self⟩)
      have hclosure : H init.closure := hmono _ (hgood _ (Cell.mem_refs_of_handles hhandle))
      have hlease := h.tracks.handles c _ hc (class?_eq_some.1 hd) _ hhandle
      have hcall := hm.push (f := .value (.construct (m.making new).1 [.type (.classRef c)]))
        trivial
        (good_append.2 ⟨hg, good_cons.2 ⟨hmono c hc, good_nil⟩⟩)
      exact hcall.callFunction (good_cons.2 ⟨hclosure, hg⟩) (ha.isLease _ hlease) good_nil
        fun r hr => hmono r (hargs r hr)
    | none =>
      simp only []
      split
      · exact (hm.give hg).inStep
      · exact (hm.fail _ _).inStep

/-! ## Texts -/

theorem renderParts (h : Twins kept G m m') (opening closing : String) (done : List String)
    (path : List Ref) {todo : List (String × Value)} (hheld : Good G (valueRefs held))
    (htodo : todo.map (·.2) ⊆ held) :
    InStep kept (m.renderParts opening closing held done path pos todo)
      (m'.renderParts opening closing held done path pos todo) := by
  cases todo with
  | nil => exact h.text _
  | cons e todo =>
    rw [List.map_cons, List.cons_subset] at htodo
    have hv : Good G e.2.refs := fun r hr => hheld r (mem_valueRefs.2 ⟨e.2, htodo.1, hr⟩)
    exact ((h.push (f := .text (.parts opening closing held done e.1 todo path pos)) htodo.2
      hheld).controlled (c := .render e.2 true path pos) hv).inStep

theorem renderObject (h : Twins kept G m m') {r : Ref} (hr : G r) (path : List Ref) :
    InStep kept (m.renderObject r path pos) (m'.renderObject r path pos) := by
  simp only [Machine.renderObject, h.tracks.classOf? hr, h.tracks.labelledFields hr]
  split
  next =>
    split
    · exact h.text _
    · split
      · exact h.text _
      · exact h.renderParts _ _ _ _ (h.tracks.good_labelledFields hr) (List.Subset.refl _)
  next => exact h.text _

theorem render (h : Twins kept G m m') (hv : Good G v.refs) (nested : Bool) (path : List Ref) :
    InStep kept (m.render v nested path pos) (m'.render v nested path pos) := by
  cases v with
  | array r =>
    have hr : G r := hv.of_ref rfl
    simp only [Machine.render, h.tracks.items hr]
    split
    · exact h.text _
    · refine h.renderParts _ _ _ _ (h.tracks.good_items hr) ?_
      simp [Function.comp_def]
  | object r =>
    have hr : G r := hv.of_ref rfl
    simp only [Machine.render, h.tracks.boundMethod? hv, h.tracks.classOf? hr]
    split
    next f c hf _ =>
      exact (h.push (f := .value (.strResult _ _)) trivial good_nil).callFunction
        (h.tracks.good_boundMethod? hv hf)
        (h.tracks.isLease_boundMethod? hv hf) good_nil good_nil
    next => exact h.renderObject hr path
  | _ =>
    simp only [Machine.render, h.tracks.plainText? nested hv]
    exact h.text _

theorem useTexts (h : Twins kept G m m') (texts : List String) (use : TextUse) :
    InStep kept (m.useTexts texts use) (m'.useTexts texts use) := by
  cases use with
  | print => exact (h.controlled (c := .print _) good_nil).inStep
  | prompt => exact (h.controlled (c := .prompt _) good_nil).inStep
  | join separator => exact (h.give good_nil).inStep

/-- All values but the first one have to be held. -/
theorem renderTexts (h : Twins kept G m m') (use : TextUse) (done : List String) {todo : List Value}
    (hheld : Good G (valueRefs held)) (htodo : Good G (valueRefs todo)) (htail : todo.tail ⊆ held) :
    InStep kept (m.renderTexts use held done pos todo) (m'.renderTexts use held done pos todo) := by
  cases todo with
  | nil => exact h.useTexts _ use
  | cons v todo =>
    rw [good_values_cons] at htodo
    exact ((h.push (f := .text (.texts use held done todo pos)) htail hheld).controlled
      (c := .render v false [] pos) htodo.1).inStep

theorem stringify (h : Twins kept G m m') (hheld : Good G (valueRefs held)) (hv : Good G v.refs) :
    InStep kept (m.stringify held pos v) (m'.stringify held pos v) :=
  h.renderTexts _ _ hheld (good_values_cons.2 ⟨hv, good_nil⟩) (List.nil_subset _)

/-! ## Operators -/

/-- An operator gives one of its operands, or a value that refers to nothing. -/
theorem good_of_apply {op : BinaryOp} {l r : Value} (hl : Good G l.refs) (hr : Good G r.refs)
    (hv : op.apply? l r = some v) : Good G v.refs := by
  unfold BinaryOp.apply? at hv
  split at hv
  · cases hv; exact good_nil
  · cases hv; exact good_nil
  · cases hv; exact good_nil
  · cases hv; exact good_nil
  · cases hv
    split
    · exact hr
    · exact hl
  · split at hv
    next _ _ a b =>
      cases hn : op.onNumbers? a b with
      | some x =>
        rw [hn] at hv
        cases hv
        exact good_nil
      | none =>
        rw [hn] at hv
        obtain ⟨_, _, rfl⟩ := Option.map_eq_some_iff.1 hv
        exact good_nil
    next =>
      obtain ⟨_, _, rfl⟩ := Option.map_eq_some_iff.1 hv
      exact good_nil
    next => cases hv

theorem applyBinary (h : Twins kept G m m') (op : BinaryOp) {l r : Value} (hl : Good G l.refs)
    (hr : Good G r.refs) : InStep kept (m.applyBinary pos op l r) (m'.applyBinary pos op l r) := by
  have hboth : Good G (valueRefs [l, r]) := by simp [hl, hr]
  simp only [Machine.applyBinary, h.tracks.shownType hl, h.tracks.shownType hr]
  split
  next v hv => exact (h.give (good_of_apply hl hr hv)).inStep
  next =>
    split
    · exact h.renderTexts _ _ hboth hboth (List.tail_subset _)
    · exact h.renderTexts _ _ hboth hboth (List.tail_subset _)
    next a b =>
      refine h.giveNew ?_
      rw [h.tracks.items (hl.of_ref rfl), h.tracks.items (hr.of_ref rfl)]
      refine h.tracks.newArray ?_
      rw [Array.toList_append, valueRefs_append, good_append]
      exact ⟨h.tracks.good_items (hl.of_ref rfl), h.tracks.good_items (hr.of_ref rfl)⟩
    next => exact (h.fail _ _).inStep

theorem binary (h : Twins kept G m m') (op : BinaryOp) {l r : Value} (hl : Good G l.refs)
    (hr : Good G r.refs) : InStep kept (m.binary pos op l r) (m'.binary pos op l r) := by
  have hmethod : m'.store.boundMethod? l = m.store.boundMethod? l :=
    funext (h.tracks.boundMethod? hl)
  unfold Machine.binary
  rw [hmethod]
  cases hf : op.method?.bind (m.store.boundMethod? l) with
  | none => exact h.applyBinary op hl hr
  | some f =>
    obtain ⟨name, _, hf⟩ := Option.bind_eq_some_iff.1 hf
    have hcall := h.push (f := .value (.operator op l r)) trivial (good_append.2 ⟨hl, hr⟩)
    exact hcall.callFunction (h.tracks.good_boundMethod? hl hf)
      (h.tracks.isLease_boundMethod? hl hf) good_values_nil (good_values_cons.2 ⟨hr, good_nil⟩)

theorem unary (h : Twins kept G m m') (op : UnaryOp) (hv : Good G v.refs) :
    InStep kept (m.unary pos op v) (m'.unary pos op v) := by
  simp only [Machine.unary, h.tracks.shownType hv, h.tracks.boundMethod? hv]
  split
  · exact (h.give good_nil).inStep
  · exact (h.give good_nil).inStep
  · exact (h.give good_nil).inStep
  · split
    next f hf =>
      have hcall := h.push (f := .value (.hold [_])) trivial (good_values_cons.2 ⟨hv, good_nil⟩)
      exact hcall.callFunction (h.tracks.good_boundMethod? hv hf)
        (h.tracks.isLease_boundMethod? hv hf) good_nil good_nil
    next => exact (h.fail _ _).inStep
  · exact (h.fail _ _).inStep

/-! ## Built-in functions and methods -/

theorem lengthOf (h : Twins kept G m m') (hv : Good G v.refs) :
    InStep kept (m.lengthOf pos v) (m'.lengthOf pos v) := by
  simp only [Machine.lengthOf, h.tracks.length? hv, h.tracks.shownType hv]
  split
  · exact (h.give good_nil).inStep
  · exact (h.fail _ _).inStep

theorem cast (h : Twins kept G m m') (t : BuiltinType) (hargs : Good G (valueRefs args)) :
    InStep kept (m.cast t args pos) (m'.cast t args pos) := by
  unfold Machine.cast
  split
  next v =>
    have hv : Good G v.refs := (good_values_cons.1 hargs).1
    split
    · split
      · exact (h.give good_nil).inStep
      · rw [h.tracks.shownType hv]
        exact (h.fail _ _).inStep
    · exact h.stringify hargs hv
    · exact (h.give good_nil).inStep
    · exact (h.give hv).inStep
    · exact (h.fail _ _).inStep
  next => exact (h.fail _ _).inStep

theorem append (h : Twins kept G m m') (hv : Good G v.refs) (hw : Good G w.refs) :
    InStep kept (m.append v w) (m'.append v w) := by
  cases v with
  | array r =>
    have hm := h.changed (c := .append r w) (.container (fun _ _ _ he => nomatch he) hw)
    exact (hm.give hv).inStep
  | _ => exact (h.give hv).inStep

theorem pop (h : Twins kept G m m') (hv : Good G v.refs) : InStep kept (m.pop v) (m'.pop v) := by
  cases v with
  | array r =>
    have hr : G r := hv.of_ref rfl
    have hlast : Good G ((m.store.items r).back?.getD .nil).refs := by
      cases hb : (m.store.items r).back? with
      | none => exact good_nil
      | some w =>
        intro q hq
        exact h.tracks.good_items hr q
          (mem_valueRefs.2 ⟨w, Array.mem_toList_iff.2 (Array.mem_of_back? hb), hq⟩)
    simp only [Machine.pop, h.tracks.items hr]
    exact ((h.changed (c := .dropLast r)
      (.container (fun _ _ _ he => nomatch he) good_nil)).give hlast).inStep
  | _ => exact (h.give good_nil).inStep

theorem contains (h : Twins kept G m m') (hv : Good G v.refs) (hw : Good G w.refs) :
    InStep kept (m.contains pos v w) (m'.contains pos v w) := by
  unfold Machine.contains
  split
  · rw [h.tracks.items (hv.of_ref rfl)]
    exact (h.give good_nil).inStep
  · exact (h.give good_nil).inStep
  · rw [h.tracks.shownType hw]
    exact (h.fail _ _).inStep

theorem join (h : Twins kept G m m') (hheld : Good G (valueRefs held)) (hv : Good G v.refs) :
    InStep kept (m.join pos held v w) (m'.join pos held v w) := by
  unfold Machine.join
  split
  next r separator =>
    have hr : G r := hv.of_ref rfl
    have hitems := h.tracks.good_items hr
    rw [h.tracks.items hr]
    refine h.renderTexts _ _ ?_ hitems ?_
    · rw [valueRefs_append, good_append]
      exact ⟨hitems, hheld⟩
    · exact fun v hv => List.mem_append_left _ (List.mem_of_mem_tail hv)
  next => exact (h.fail _ _).inStep

theorem split (h : Twins kept G m m') : InStep kept (m.split pos v w) (m'.split pos v w) := by
  unfold Machine.split
  split
  next text separator =>
    refine h.giveNew (h.tracks.newArray fun r hr => ?_)
    obtain ⟨v, hv, hr⟩ := mem_valueRefs.1 hr
    obtain ⟨part, _, rfl⟩ := List.mem_map.1 hv
    cases hr
  next => exact (h.fail _ _).inStep

theorem mapText (h : Twins kept G m m') (hv : Good G v.refs) (f : List Char → List Char) :
    InStep kept (m.mapText v f) (m'.mapText v f) := by
  cases v with
  | string text => exact (h.give good_nil).inStep
  | _ => exact (h.give hv).inStep

theorem callMethod (h : Twins kept G m m') (method : Method) (hheld : Good G (valueRefs held))
    (hv : Good G v.refs) (hw : Good G w.refs) :
    InStep kept (m.callMethod method v held w pos) (m'.callMethod method v held w pos) := by
  cases method with
  | str => exact h.stringify hheld hv
  | clone =>
    simp only [Machine.callMethod]
    exact h.giveNew (h.tracks.clone hv)
  | len => exact h.lengthOf hv
  | add => exact h.append hv hw
  | pop => exact h.pop hv
  | join => exact h.join hheld hv
  | contains => exact h.contains hv hw
  | upper => exact h.mapText hv _
  | lower => exact h.mapText hv _
  | split => exact h.split

/-- A range has numbers only. -/
theorem good_rangeItems {items : Array Value} (h : rangeItems args = .ok items) :
    Good G (valueRefs items.toList) := by
  unfold rangeItems at h
  cases hb : rangeBounds args with
  | error e => simp [hb, Bind.bind, Except.bind] at h
  | ok b =>
    simp only [hb, Bind.bind, Except.bind] at h
    split at h
    · cases h
    · split at h
      · cases h
      · split at h
        · cases h
        · split at h
          · cases h
          · cases h
            intro r hr
            obtain ⟨v, hv, hr⟩ := mem_valueRefs.1 hr
            obtain ⟨i, _, rfl⟩ := Array.mem_map.1 (Array.mem_toList_iff.1 hv)
            cases hr

theorem runNative (h : Twins kept G m m') {n : Native} {callee : Value}
    (hn : Good G (Cell.native n).refs) (hcallee : Good G callee.refs)
    (hargs : Good G (valueRefs args)) :
    InStep kept (m.runNative n callee args pos) (m'.runNative n callee args pos) := by
  have hheld : Good G (valueRefs (callee :: args)) := good_values_cons.2 ⟨hcallee, hargs⟩
  have hhead : Good G (args.headD .nil).refs := by
    cases args with
    | nil => exact good_nil
    | cons v args => exact (good_values_cons.1 hargs).1
  have htail : args.tail ⊆ callee :: args := fun v hv =>
    List.mem_cons_of_mem _ (List.mem_of_mem_tail hv)
  cases n with
  | print => exact h.renderTexts _ _ hheld hargs htail
  | input =>
    simp only [Machine.runNative]
    split
    · exact h.renderTexts _ _ hheld hargs htail
    · exact (h.fail _ _).inStep
  | typeof =>
    simp only [Machine.runNative, h.tracks.typeOf hhead]
    exact (h.give (h.tracks.good_typeOf hhead)).inStep
  | str => exact h.stringify hheld hhead
  | len => exact h.lengthOf hhead
  | range =>
    refine h.proceedAt (.of_eq fun items hi => good_rangeItems (G := G) hi) ?_
    rintro items _ ⟨rfl, hg⟩
    exact h.giveNew (h.tracks.newArray hg)
  | method method receiver => exact h.callMethod method hheld hn hhead
  | host name arity keeps run =>
    have hknown : Good G (valueRefs (keeps :: args)) := good_values_cons.2 ⟨hn, hargs⟩
    simp only [Machine.runNative, h.objectClass]
    exact h.giveAnswer (h.tracks.perform h.goodClass hknown (run args.length))

theorem callNative (h : Twins kept G m m') {n : Native} {callee : Value}
    (hn : Good G (Cell.native n).refs) (hcallee : Good G callee.refs)
    (hargs : Good G (valueRefs args)) :
    InStep kept (m.callNative n callee args pos) (m'.callNative n callee args pos) := by
  unfold Machine.callNative
  split
  · split
    · exact h.runNative hn hcallee hargs
    · exact (h.fail _ _).inStep
  · exact h.runNative hn hcallee hargs

theorem call (h : Twins kept G m m') {callee : Value} (hcallee : Good G callee.refs)
    (hargs : Good G (valueRefs args)) :
    InStep kept (m.call callee args pos) (m'.call callee args pos) := by
  have hno : InStep kept (m.fail pos (.notCallable (m.store.shownType callee)))
      (m'.fail pos (.notCallable (m'.store.shownType callee))) := by
    rw [h.tracks.shownType hcallee]
    exact (h.fail _ _).inStep
  cases callee with
  | function r =>
    obtain ⟨c, d, hc, hd, hcd⟩ := h.tracks.cell r (hcallee.of_ref rfl)
    have hclosed := h.tracks.closed r c (hcallee.of_ref rfl) hc
    simp only [Machine.call, hc, hd]
    cases hcd with
    | lease => exact hno
    | same =>
      cases c with
      | function f =>
        exact h.callFunction hclosed (h.tracks.handles r _ (hcallee.of_ref rfl) hc _
          List.mem_cons_self) (good_values_cons.2 ⟨hcallee, good_nil⟩) hargs
      | native n => exact h.callNative hclosed hcallee hargs
      | _ => exact hno
  | type k =>
    cases k with
    | builtin t => exact h.cast t hargs
    | classRef c => exact h.construct (hcallee.of_ref rfl) hargs
  | _ => exact hno

end Twins

end TinyScript

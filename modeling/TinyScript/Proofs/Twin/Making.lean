/-
  TinyScript.Proofs.Twin.Making — the same things are made in both stores.

  What is made of good values is the same in both stores and good from then on (`SameMade`): arrays,
  objects, functions, copies, what the host makes, and the namespace of a scope. A function of the
  host sees the same in both and does the same to both (`Tracks.perform`).
-/

import TinyScript.Proofs.Twin.Reading

namespace TinyScript.Store

variable {G H : Ref → Prop} {s t s' t' : Store} {r : Ref} {i j : ScopeId} {v w : Value}

/-- The same was made in both stores, with these references, and they are good now. -/
def SameMade {α : Type} (refs : α → List Ref) (G : Ref → Prop) (s t : Store) (x y : α × Store) :
    Prop :=
  y.1 = x.1 ∧ ∃ H, Advances G s t H x.2 y.2 ∧ Good H (refs x.1)

namespace SameMade

variable {α β : Type} {refs : α → List Ref} {refs' : β → List Ref}

/-- Nothing had to be made. -/
theorem of_good (h : Tracks G s t) {a : α} (ha : Good G (refs a)) :
    SameMade refs G s t (a, s) (a, t) :=
  ⟨rfl, G, .refl h, ha⟩

/-- It was made after something else. -/
theorem after (ha : Advances G s t H s' t') {x y : α × Store} (h : SameMade refs H s' t' x y) :
    SameMade refs G s t x y := by
  obtain ⟨he, K, hk, hg⟩ := h
  exact ⟨he, K, ha.trans hk, hg⟩

/-- What was made is part of something. -/
theorem map {x y : α × Store} (h : SameMade refs G s t x y) (f : α → β)
    (hf : ∀ a r, r ∈ refs' (f a) → r ∈ refs a) :
    SameMade refs' G s t (f x.1, x.2) (f y.1, y.2) := by
  obtain ⟨he, H, ha, hg⟩ := h
  exact ⟨congrArg f he, H, ha, fun r hr => hg r (hf _ r hr)⟩

end SameMade

theorem good_put {β : Type} {f : β → List Ref} {table : Table β} {name : String} {b : β}
    (h : Good G (mapRefs f table)) (hb : Good G (f b)) : Good G (mapRefs f (table.put name b)) :=
  fun r hr => (mem_mapRefs_put hr).elim (h r) (hb r)

theorem good_ofList {β : Type} {f : β → List Ref} {entries : List (String × β)}
    (h : ∀ e ∈ entries, Good G (f e.2)) : Good G (mapRefs f (Table.ofList entries)) := by
  have hfold : ∀ (table : Table β), Good G (mapRefs f table) →
      Good G (mapRefs f (entries.foldl (fun (t : Table β) e => t.put e.1 e.2) table)) := by
    induction entries with
    | nil => exact fun _ ht => ht
    | cons e entries ih =>
      intro table ht
      exact ih (fun e he => h e (List.mem_cons_of_mem _ he)) _
        (good_put ht (h e List.mem_cons_self))
  exact hfold ∅ good_nil

namespace Tracks

theorem capture_same (h : Tracks G s t) (hij : Twin G s t i j) :
    SameMade (fun r => [r]) G s t (s.capture i) (t.capture j) := by
  obtain ⟨he, H, ha, hr⟩ := h.capture hij
  exact ⟨he, H, ha, good_cons.2 ⟨hr, good_nil⟩⟩

theorem alloc_same (h : Tracks G s t) {c : Cell} (hno : ∀ i above, c ≠ .lease i above)
    (hc : Good G c.refs) (hh : ∀ q ∈ c.handles, IsLease s q) :
    SameMade (fun r => [r]) G s t (s.alloc c) (t.alloc c) :=
  ⟨h.next, _, h.alloc hno hc hh, good_cons.2 ⟨.inr rfl, good_nil⟩⟩

theorem newArray (h : Tracks G s t) {items : Array Value} (hv : Good G (valueRefs items.toList)) :
    SameMade Value.refs G s t (s.newArray items) (t.newArray items) := by
  have hc : Good G (Cell.array items).refs := by rwa [refs_array]
  exact (h.alloc_same (c := .array items) (fun _ _ he => nomatch he) hc
    fun _ hq => nomatch hq).map Value.array fun _ _ hr => hr

theorem newObject (h : Tracks G s t) {c : Ref} {fields : Table Value} (hc : G c)
    (hf : Good G (mapRefs Value.refs fields)) :
    SameMade Value.refs G s t (s.newObject c fields) (t.newObject c fields) :=
  (h.alloc_same (c := .object c fields) (fun _ _ he => nomatch he) (good_cons.2 ⟨hc, hf⟩)
    fun _ hq => nomatch hq).map Value.object fun _ _ hr => hr

theorem newFunction (h : Tracks G s t) {f : Function} (hf : Good G f.refs)
    (hh : IsLease s f.closure) :
    SameMade Value.refs G s t (s.newFunction f) (t.newFunction f) :=
  (h.alloc_same (c := .function f) (fun _ _ he => nomatch he) hf
    (List.forall_mem_singleton.2 hh)).map Value.function fun _ _ hr => hr

theorem newNative (h : Tracks G s t) {n : Native} (hn : Good G (Cell.native n).refs) :
    SameMade Value.refs G s t (s.newNative n) (t.newNative n) :=
  (h.alloc_same (c := .native n) (fun _ _ he => nomatch he) hn
    fun _ hq => nomatch hq).map Value.function fun _ _ hr => hr

/-! ## Members and elements -/

theorem ownMember (h : Tracks G s t) (hv : Good G v.refs) (name : String) :
    SameResult (SameMade (fun w => valueRefs w.toList) G s t) (s.ownMember v name)
      (t.ownMember v name) := by
  have hsome : ∀ {w : Value}, Good G w.refs →
      SameMade (fun w => valueRefs w.toList) G s t (some w, s) (some w, t) := by
    intro w hw
    exact .of_good h (by simpa using hw)
  have hnone : SameMade (fun w => valueRefs w.toList) G s t (none, s) (none, t) :=
    .of_good h good_nil
  cases v with
  | object r =>
    have hr : G r := hv.of_ref rfl
    simp only [Store.ownMember]
    rw [h.fields hr, h.boundMethod? hv]
    cases hfield : (s.fields r).get? name with
    | some field => exact .ok (hsome (h.good_field hr hfield))
    | none =>
      cases hm : s.boundMethod? (.object r) name with
      | some f =>
        exact .ok ((h.newFunction (h.good_boundMethod? hv hm) (h.isLease_boundMethod? hv hm)).map
          some fun _ _ hq => by simpa using hq)
      | none => exact .ok hnone
  | namespaceRef r =>
    have hr : G r := hv.of_ref rfl
    simp only [Store.ownMember]
    rw [h.export? hr, h.space hr]
    cases he : s.export? r name with
    | some value => exact .ok (hsome (h.good_export? hr he))
    | none => exact .error _
  | type k =>
    simp only [Store.ownMember, h.typeName hv]
    split
    · exact .ok (hsome good_nil)
    · exact .ok hnone
  | symbol r =>
    have hr : G r := hv.of_ref rfl
    simp only [Store.ownMember]
    rw [h.symbol? hr]
    split
    next => exact .ok (hsome good_nil)
    next hs => exact .ok (hsome (h.good_symbol? hr hs))
    next => exact .ok hnone
  | _ => exact .ok hnone

theorem member (h : Tracks G s t) (hv : Good G v.refs) (name : String) :
    SameResult (SameMade Value.refs G s t) (s.member v name) (t.member v name) := by
  have hown := h.ownMember hv name
  simp only [Store.member]
  generalize s.ownMember v name = a, t.ownMember v name = b at hown
  cases hown with
  | error e => exact .error e
  | @ok x y hxy =>
    obtain ⟨x, s'⟩ := x
    obtain ⟨y, t'⟩ := y
    obtain ⟨he, H, ha, hg⟩ := hxy
    cases (he : y = x)
    cases x with
    | some value => exact .ok ⟨rfl, H, ha, by simpa using hg⟩
    | none =>
      have hv' : Good H v.refs := fun r hr => ha.mono r (hv r hr)
      simp only [Bind.bind, Except.bind]
      cases Method.of? v name with
      | some m =>
        obtain ⟨he, K, hk, hg⟩ := ha.tracks.newNative (n := .method m v) hv'
        exact .ok ⟨he, K, ha.trans hk, hg⟩
      | none =>
        rw [ha.tracks.shownType hv']
        exact .error _

theorem element (h : Tracks G s t) (hv : Good G v.refs) (hw : Good G w.refs) :
    SameResult (SameMade Value.refs G s t) (s.element v w) (t.element v w) := by
  unfold Store.element
  simp only [h.invalidIndex hv hw]
  split
  next r i =>
    have hr : G r := hv.of_ref rfl
    rw [h.items hr]
    split
    next k _ =>
      refine .ok (.of_good h ?_)
      by_cases hk : k < (s.items r).size
      · intro q hq
        refine h.good_items hr q (mem_valueRefs.2 ⟨(s.items r)[k], by simp, ?_⟩)
        simpa [Array.getD, hk] using hq
      · simp [Array.getD, hk, Value.refs, Value.ref?]
    next => exact .error _
  next text i =>
    split
    next k _ =>
      refine .ok (.of_good h ?_)
      cases Text.charAt? text k <;> exact good_nil
    next => exact .error _
  next r name =>
    have hr : G r := hv.of_ref rfl
    rw [h.fields hr]
    exact .ok (.of_good h (h.good_getD_field hr name))
  next => exact h.member hv _
  next => exact .error _

/-! ## Copies, answers of the host and namespaces -/

theorem clone (h : Tracks G s t) (hv : Good G v.refs) :
    SameMade Value.refs G s t (s.clone v) (t.clone v) := by
  cases v with
  | array r =>
    have hr : G r := hv.of_ref rfl
    simp only [Store.clone]
    rw [h.items hr]
    exact h.newArray (h.good_items hr)
  | object r =>
    have hr : G r := hv.of_ref rfl
    simp only [Store.clone]
    rw [h.object? hr]
    cases ho : s.object? r with
    | none => exact .of_good h hv
    | some o => exact h.newObject (h.good_object? hr ho).1 (h.good_object? hr ho).2
  | _ => exact .of_good h hv

theorem makeSymbols (h : Tracks G s t) (hij : Twin G s t i j) (names : List String) :
    SameMade id G s t (s.makeSymbols i names) (t.makeSymbols j names) := by
  induction names generalizing G s t with
  | nil => exact .of_good h good_nil
  | cons name names ih =>
    simp only [Store.makeSymbols]
    rw [h.binding? hij]
    cases hb : s.binding? i name with
    | none => exact ih h hij
    | some b =>
      obtain ⟨he, H, ha, hg⟩ := h.alloc_same (c := .symbol name b.value b.constant)
        (fun _ _ he => nomatch he) (h.good_of_binding? hij hb) fun _ hq => nomatch hq
      obtain ⟨he', K, hk, hg'⟩ := ih ha.tracks (ha.twin hij)
      refine ⟨congrArg₂ List.cons he he', K, ha.trans hk, good_cons.2 ⟨?_, hg'⟩⟩
      exact hk.mono _ (good_cons.1 hg).1

theorem makeSpace (h : Tracks G s t) (hij : Twin G s t i j) (name : String) (body : List Stmt) :
    SameMade Value.refs G s t (s.makeSpace i name body) (t.makeSpace j name body) := by
  obtain ⟨he, H, ha, hg⟩ := h.makeSymbols hij (exportedNames body)
  simp only [Store.makeSpace]
  rw [he]
  obtain ⟨he', K, hk, hg'⟩ := ha.tracks.alloc_same
    (c := .namespaceDef name (s.makeSymbols i (exportedNames body)).1)
    (fun _ _ he => nomatch he) hg fun _ hq => nomatch hq
  exact ⟨congrArg Value.namespaceRef he', K, ha.trans hk, hg'⟩

/-! ## Functions of the host -/

theorem newClass (h : Tracks G s t) {c : Class} (hc : Good G c.refs)
    (hh : ∀ q ∈ (Cell.classDef c).handles, IsLease s q) :
    SameMade Value.refs G s t (s.newClass c) (t.newClass c) :=
  (h.alloc_same (c := .classDef c) (fun _ _ he => nomatch he) hc hh).map
    (fun r => Value.type (.classRef r)) fun _ _ hr => hr

mutual

theorem place {G : Ref → Prop} {s t : Store} (h : Tracks G s t) {objectClass : Ref}
    (hc : G objectClass) {known : List Value} (hknown : Good G (valueRefs known)) :
    (made : Made) → SameMade Value.refs G s t (s.place objectClass known made)
      (t.place objectClass known made)
  | .value literal => by
    simp only [Store.place]
    refine .of_good h ?_
    cases literal <;> exact good_nil
  | .type _ => by
    simp only [Store.place]
    exact .of_good h good_nil
  | .known i => by
    simp only [Store.place]
    exact .of_good h (hknown.getD i)
  | .array items => by
    obtain ⟨he, H, ha, hg⟩ := h.placeAll hc hknown items
    simp only [Store.place]
    rw [he]
    have hitems : Good H (valueRefs (s.placeAll objectClass known items).1.toArray.toList) := by
      simpa using hg
    exact .after ha (ha.tracks.newArray hitems)
  | .object names values => by
    obtain ⟨he, H, ha, hg⟩ := h.placeAll hc hknown values
    simp only [Store.place]
    rw [he]
    have hfields : Good H (mapRefs Value.refs
        (Table.ofList (names.zip (s.placeAll objectClass known values).1))) := by
      refine good_ofList fun e hmem r hr => hg r (mem_valueRefs.2 ⟨e.2, ?_, hr⟩)
      exact (List.of_mem_zip hmem).2
    exact .after ha (ha.tracks.newObject (ha.mono _ hc) hfields)
  | .classDef name properties => by
    simp only [Store.place]
    exact h.newClass good_nil fun _ hq => nomatch hq
  | .function name arity keeps run => by
    obtain ⟨he, H, ha, hg⟩ := h.place hc hknown keeps
    simp only [Store.place]
    rw [he]
    exact .after ha (ha.tracks.newNative
      (n := .host name arity (s.place objectClass known keeps).1 run) hg)

theorem placeAll {G : Ref → Prop} {s t : Store} (h : Tracks G s t) {objectClass : Ref}
    (hc : G objectClass) {known : List Value} (hknown : Good G (valueRefs known)) :
    (items : List Made) → SameMade valueRefs G s t (s.placeAll objectClass known items)
      (t.placeAll objectClass known items)
  | [] => by
    simp only [Store.placeAll]
    exact .of_good h good_nil
  | made :: rest => by
    obtain ⟨he, H, ha, hg⟩ := h.place hc hknown made
    obtain ⟨he', K, hk, hg'⟩ := ha.tracks.placeAll (ha.mono _ hc) (ha.good hknown) rest
    simp only [Store.placeAll]
    refine ⟨by rw [he, he'], K, ha.trans hk, ?_⟩
    rw [valueRefs_cons, good_append]
    exact ⟨fun r hr => hk.mono r (hg r hr), hg'⟩

end

theorem see (h : Tracks G s t) (hv : Good G v.refs) : t.see v = s.see v := by
  cases v with
  | array r => simp only [Store.see, h.items (hv.of_ref rfl)]
  | object r => simp only [Store.see, h.object? (hv.of_ref rfl)]
  | function r =>
    simp only [Store.see]
    rcases h.cell?_cases (hv.of_ref rfl) with he | ⟨i, j, above, hs, ht⟩
    · rw [he]
    · rw [hs, ht]
  | type k =>
    cases k with
    | builtin => rfl
    | classRef c => simp only [Store.see, h.class? (hv.of_ref rfl)]
  | namespaceRef r => simp only [Store.see, h.space (hv.of_ref rfl)]
  | symbol r => simp only [Store.see, h.symbol? (hv.of_ref rfl)]
  | _ => rfl

/-- What is found at a look is good. -/
theorem good_see (h : Tracks G s t) (hv : Good G v.refs) : Good G (valueRefs (s.see v).2) := by
  cases v with
  | array r => exact h.good_items (hv.of_ref rfl)
  | object r =>
    simp only [Store.see]
    split
    next c fields ho =>
      obtain ⟨hc, hf⟩ := h.good_object? (hv.of_ref rfl) ho
      refine good_values_cons.2 ⟨good_cons.2 ⟨hc, good_nil⟩, fun q hq => ?_⟩
      exact hf q (mem_valueRefs_values.1 hq)
    next => exact good_nil
  | function r =>
    simp only [Store.see]
    split
    next f hf =>
      intro q hq
      refine h.closed r _ (hv.of_ref rfl) hf q (List.mem_cons_of_mem _ ?_)
      obtain ⟨w, hw, hq⟩ := mem_valueRefs.1 hq
      rw [Option.mem_toList] at hw ⊢
      rw [Option.mem_def.1 hw]
      exact Value.mem_refs.1 hq
    next => exact good_nil
    next => exact good_nil
  | type k =>
    cases k with
    | builtin => exact good_nil
    | classRef c =>
      simp only [Store.see]
      split <;> exact good_nil
  | namespaceRef r =>
    intro q hq
    obtain ⟨w, hw, hq⟩ := mem_valueRefs.1 hq
    obtain ⟨symbol, hsymbol, rfl⟩ := List.mem_map.1 hw
    cases List.mem_singleton.1 hq
    exact h.good_space (hv.of_ref rfl) _ hsymbol
  | symbol r =>
    simp only [Store.see]
    split
    next hx => exact good_values_cons.2 ⟨h.good_symbol? (hv.of_ref rfl) hx, good_nil⟩
    next => exact good_nil
  | _ => exact good_nil

theorem edit? (h : Tracks G s t) {known : List Value} (hknown : Good G (valueRefs known))
    (edit : HostEdit) :
    Option.Rel (SameChange G s t) (s.edit? known edit) (t.edit? known edit) := by
  cases edit with
  | set owner key value =>
    have hset := h.setElement (hknown.getD owner) (hknown.getD key) (hknown.getD value) default
    simp only [Store.edit?]
    generalize s.setElement _ _ _ default = a, t.setElement _ _ _ default = b at hset
    cases hset with
    | ok hc => exact .some hc
    | error => exact .none
  | append array value =>
    simp only [Store.edit?]
    split
    · exact .some (.container (fun _ _ _ he => nomatch he) (hknown.getD value))
    · exact .none
  | dropLast array =>
    simp only [Store.edit?]
    split
    · exact .some (.container (fun _ _ _ he => nomatch he) good_nil)
    · exact .none

/-- A function of the host that knows good values only does the same in both stores: it sees the
    same, and what it comes to know is good. -/
theorem perform {G : Ref → Prop} {s t : Store} (h : Tracks G s t) {objectClass : Ref}
    (hc : G objectClass) {known : List Value} (hknown : Good G (valueRefs known)) :
    (code : HostCode) → SameMade (fun answer => valueRefs answer.toOption.toList) G s t
      (code.perform objectClass s known) (code.perform objectClass t known)
  | .give place => by
    simp only [HostCode.perform]
    exact .of_good h (good_values_cons.2 ⟨hknown.getD place, good_nil⟩)
  | .fail message => by
    simp only [HostCode.perform]
    exact .of_good h good_nil
  | .look place next => by
    simp only [HostCode.perform, h.see (hknown.getD place)]
    refine h.perform hc ?_ (next _)
    rw [valueRefs_append]
    exact good_append.2 ⟨hknown, h.good_see (hknown.getD place)⟩
  | .compare left right next => by
    simp only [HostCode.perform]
    exact h.perform hc hknown (next _)
  | .make made next => by
    obtain ⟨he, H, ha, hg⟩ := h.place hc hknown made
    simp only [HostCode.perform]
    rw [he]
    refine .after ha (ha.tracks.perform (ha.mono _ hc) ?_ next)
    rw [valueRefs_append]
    exact good_append.2 ⟨ha.good hknown, good_values_cons.2 ⟨hg, good_nil⟩⟩
  | .change edit next => by
    have hedit := h.edit? hknown edit
    simp only [HostCode.perform]
    generalize s.edit? known edit = a, t.edit? known edit = b at hedit
    cases hedit with
    | none => exact h.perform hc hknown (next false)
    | some hchange =>
      have ha := h.apply hchange
      exact .after ha (ha.tracks.perform hc hknown (next true))

end Tracks

end TinyScript.Store

/-
  TinyScript.Proofs.Grammar.Expressions — well-formed expressions are read back.

  The rules that count a level read back what was written if those with one level fewer do
  (`Complete`). Within a level the loops for operators and for calls are followed along the left
  side of the tree (`Continues`).
-/

import TinyScript.Proofs.Grammar.Reading

namespace TinyScript.Grammar

open TinyScript.Text TinyScript.Derivation

variable {ts mid rest : List Token} {c : Context} {q : Position} {e : Expr} {turns : List Token}

def ReadsOperands (named : String → Bool) (n r : Nat) (operand : Parse Expr) : Prop :=
  ∀ {c : Context} {ts rest : List Token} {e : Expr}, r ≤ e.rank → e.wellFormed = true →
    Spells ts (e.kinds named) rest → Stops r rest →
    Gives (e.levels + e.operandEntry ≤ n) (Reading Expr.unplaced e rest) (operand c ts)

structure Complete (named : String → Bool) (below : Below) (n : Nat) : Prop where
  statement : ∀ {c : Context} {ts rest : List Token} {q : Position} {s : Stmt},
    s.isBlock = false → (s.isExported = true → c.place.exports = true) →
    s.wellFormed c.place = true →
    Spells ts (exportKinds s.isExported ++ s.kinds named) (⟨.mark .semicolon, q⟩ :: rest) →
    Gives (s.levels + 1 ≤ n) (Reading Stmt.unplaced s (⟨.mark .semicolon, q⟩ :: rest))
      (below.statement c ts)
  assignment : ∀ {c : Context} {ts rest : List Token} {e : Expr}, e.wellFormed = true →
    Spells ts (e.kinds named) rest → Stops 0 rest →
    Gives (e.levels + e.entry ≤ n) (Reading Expr.unplaced e rest) (below.assignment c ts)
  unary : ReadsOperands named n 8 below.unary

variable {named : String → Bool} {below : Below} {n : Nat} (hb : Complete named below n)

/-! ## Statements one after the other -/

theorem skipSemicolons_cons {k : Token.Kind} (hk : isKind (.mark .semicolon) k = false) :
    skipSemicolons (⟨k, q⟩ :: ts) = ⟨k, q⟩ :: ts := by
  simp [skipSemicolons, hk]

theorem terminator_semicolon {before : List Token} :
    terminator c before (⟨.mark .semicolon, q⟩ :: ts) = .ok (skipSemicolons ts) := by
  simp [terminator, skipSemicolons, isKind]

/-- A statement is there: neither its block nor the file ends, and no semicolon comes first. -/
theorem statement_begins {place : Place} {s : Stmt} (hs : s.wellFormed place = true)
    (h : Spells ts (exportKinds s.isExported ++ s.kinds named) rest) :
    startsWithMark .rightBrace ts = false ∧ (startsWith .eof ts || ts.isEmpty) = false ∧
      skipSemicolons ts = ts := by
  obtain ⟨k, ks, hk, hbegins⟩ : ∃ k ks, exportKinds s.isExported ++ s.kinds named = k :: ks ∧
      begins k := by
    cases s.isExported with
    | true => exact ⟨_, _, rfl, rfl, rfl, rfl⟩
    | false => exact exists_kinds_begins named hs
  rw [hk] at h
  obtain ⟨p, after, rfl, _⟩ := spells_cons.1 h
  obtain ⟨hbrace, hsemicolon, heof⟩ := hbegins
  exact ⟨hbrace, by simp [startsWith, heof], skipSemicolons_cons hsemicolon⟩

/-- The first of some statements and its semicolon. -/
theorem spells_statements {s : Stmt} {ss : List Stmt} :
    Spells ts (statementKinds named (s :: ss)) rest ↔
      ∃ p after, Spells ts (exportKinds s.isExported ++ s.kinds named)
        (⟨.mark .semicolon, p⟩ :: after) ∧ Spells after (statementKinds named ss) rest := by
  rw [statementKinds, ← List.append_assoc, spells_append]
  constructor
  · rintro ⟨mid, hfront, hrest⟩
    obtain ⟨p, after, rfl, hmore⟩ := spells_cons.1 hrest
    exact ⟨p, after, hfront, hmore⟩
  · rintro ⟨p, after, hfront, hrest⟩
    exact ⟨_, hfront, spells_cons.2 ⟨p, after, rfl, hrest⟩⟩

/-- No semicolon stands before statements. -/
theorem skipSemicolons_statements {place : Place} {ss : List Stmt} {k : Token.Kind}
    (hwf : statementsWellFormed place ss = true) (hk : isKind (.mark .semicolon) k = false)
    (h : Spells ts (statementKinds named ss) (⟨k, q⟩ :: rest)) : skipSemicolons ts = ts := by
  cases ss with
  | nil =>
    cases spells_nil.1 h
    exact skipSemicolons_cons hk
  | cons s ss =>
    obtain ⟨_, _, hfront, _⟩ := spells_statements.1 h
    exact (statement_begins (statementsWellFormed_cons.1 hwf).2.2.1 hfront).2.2

include hb

theorem expression_reads (hwf : e.wellFormed = true) (h : Spells ts (e.kinds named) rest)
    (hstop : Stops 0 rest) :
    Gives (e.levels + e.entry ≤ n) (Reading Expr.unplaced e rest) (expression below c ts) :=
  hb.assignment hwf h hstop

theorem blockStatements_reads {ss : List Stmt} (hwf : statementsWellFormed c.place ss = true)
    (hturns : ts.length ≤ turns.length)
    (h : Spells ts (statementKinds named ss) (⟨.mark .rightBrace, q⟩ :: rest)) :
    Gives (statementLevels ss ≤ n) (Reading unplacedStatements ss rest)
      (blockStatements below c turns ts) := by
  induction ss generalizing ts turns with
  | nil =>
    cases spells_nil.1 h
    unfold blockStatements
    rw [if_pos (by simp)]
    exact .ok (Nat.zero_le n) ⟨_, rfl, rfl⟩
  | cons s ss ih =>
    obtain ⟨hblock, hexport, hs, hss⟩ := statementsWellFormed_cons.1 hwf
    obtain ⟨p, more, hfront, hmore⟩ := spells_statements.1 h
    obtain ⟨hbrace, hend, _⟩ := statement_begins hs hfront
    obtain ⟨turn, turns, rfl, hleft⟩ := exists_turn (Nat.le_trans hfront.length_le hturns)
    unfold blockStatements
    rw [if_neg (by simp [hbrace]), if_neg (by simp [hend])]
    refine ((hb.statement hblock hexport hs hfront).bind fun r hr => ?_).congr Nat.max_le.symm
    obtain ⟨s', rfl, hview⟩ := hr
    simp only [terminator_semicolon, skipSemicolons_statements hss rfl hmore]
    refine (ih hss hleft hmore).andThen fun r hr => ?_
    obtain ⟨ss', rfl, hviews⟩ := hr
    exact ⟨(s' :: ss', rest), rfl, _, rfl, List.cons_eq_cons.2 ⟨hview, hviews⟩⟩

theorem block_reads {p : Position} {ss : List Stmt} (hwf : statementsWellFormed c.place ss = true)
    (h : Spells ts (statementKinds named ss) (⟨.mark .rightBrace, q⟩ :: rest)) :
    Gives (statementLevels ss ≤ n) (Reading unplacedStatements ss rest)
      (block below c (⟨.mark .leftBrace, p⟩ :: ts)) := by
  have hskip := skipSemicolons_statements hwf rfl h
  simp only [block, consume_mark, ok_bind, hskip]
  exact blockStatements_reads hb hwf (Nat.le_refl _) h

/-! ## Functions, classes and namespaces -/

theorem functionRest_reads (pos : Position) {d : FunctionDecl} (hwf : d.wellFormed = true)
    (h : Spells ts (d.kinds named) rest) :
    Gives (d.levels ≤ n) (Reading FunctionDecl.unplaced d rest)
      (functionRest below d.name pos c ts) := by
  obtain ⟨name, params, returns, body, _⟩ := d
  simp only [FunctionDecl.wellFormed, Bool.and_eq_true, List.all_eq_true] at hwf
  obtain ⟨⟨hparams, hreturns⟩, hbody⟩ := hwf
  simp only [FunctionDecl.kinds, spells_cons, spells_append, spells_nil] at h
  obtain ⟨p, _, rfl, _, hps, q, _, rfl, _, htyping, b, _, rfl, _, hss, e, _, rfl, rfl⟩ := h
  obtain ⟨params', hparams', hviews⟩ := params_reads (c := c) (by decide) hparams hps
  obtain ⟨returns', hreturns', hview⟩ := typing?_reads (c := c) hreturns htyping rfl rfl
  simp only [functionRest, consume_mark, ok_bind, hparams', hreturns', startsWithMark_mark,
    decide_true, if_true]
  refine (block_reads hb ?_ hss).andThen fun r hr => ?_
  · rwa [Context.place_function]
  · obtain ⟨body', rfl, hbody'⟩ := hr
    refine ⟨(⟨name, params', returns', body', pos⟩, _), rfl, _, rfl, ?_⟩
    simp [FunctionDecl.unplaced, hviews, hview, hbody']

theorem namespaceRest_reads (pos : Position) {d : NamespaceDecl} (hwf : d.wellFormed = true)
    (h : Spells ts (d.kinds named) rest) :
    Gives (d.levels ≤ n) (Reading NamespaceDecl.unplaced d rest)
      (namespaceRest below d.name pos c ts) := by
  obtain ⟨name, body, _⟩ := d
  simp only [NamespaceDecl.kinds, spells_cons, spells_append, spells_nil] at h
  obtain ⟨b, _, rfl, _, hss, e, _, rfl, rfl⟩ := h
  refine (block_reads hb ?_ hss).andThen fun r hr => ?_
  · rwa [Context.place_space]
  · obtain ⟨body', rfl, hview⟩ := hr
    exact ⟨(⟨name, body', pos⟩, _), rfl, _, rfl, by simp [NamespaceDecl.unplaced, hview]⟩

omit hb in
/-- Before a member stands its name, and after the last one a brace. -/
theorem members_begin {properties : List Param} {methods : List FunctionDecl}
    (hwf : methodsWellFormed methods = true)
    (h : Spells ts (properties.flatMap Param.kinds ++ methodKinds named methods)
      (⟨.mark .rightBrace, q⟩ :: rest)) :
    ∃ k p after, ts = ⟨k, p⟩ :: after ∧ (k = .mark .rightBrace ∨ ∃ s, k = .name s) := by
  cases properties with
  | cons property properties =>
    obtain ⟨p, after, rfl, _⟩ := spells_cons.1 h
    exact ⟨_, p, after, rfl, .inr ⟨_, rfl⟩⟩
  | nil =>
    cases methods with
    | nil =>
      cases spells_nil.1 h
      exact ⟨_, q, rest, rfl, .inl rfl⟩
    | cons d methods =>
      obtain ⟨name, params, returns, body, _⟩ := d
      simp only [methodsWellFormed, Bool.and_eq_true] at hwf
      obtain ⟨s, rfl⟩ : ∃ s, name = some s := Option.isSome_iff_exists.1 hwf.1.1
      obtain ⟨p, after, rfl, _⟩ := spells_cons.1 h
      exact ⟨_, p, after, rfl, .inr ⟨_, rfl⟩⟩

theorem methods_reads {methods : List FunctionDecl} (hwf : methodsWellFormed methods = true)
    (hturns : ts.length ≤ turns.length)
    (h : Spells ts (methodKinds named methods) (⟨.mark .rightBrace, q⟩ :: rest)) :
    Gives (methodLevels methods ≤ n)
      (fun r => ∃ methods', r = ([], methods', rest) ∧
        unplacedMethods methods' = unplacedMethods methods)
      (classMembers below c turns ts) := by
  induction methods generalizing ts turns with
  | nil =>
    cases spells_nil.1 h
    unfold classMembers
    rw [skipSemicolons_cons rfl]
    exact .ok (Nat.zero_le n) ⟨_, rfl, rfl⟩
  | cons d methods ih =>
    simp only [methodsWellFormed, Bool.and_eq_true] at hwf
    obtain ⟨⟨hname, hd⟩, hmethods⟩ := hwf
    obtain ⟨name, hname⟩ := Option.isSome_iff_exists.1 hname
    simp only [methodKinds, hname, nameKinds, Option.map_some, Option.toList_some, List.cons_append,
      List.nil_append, spells_cons, spells_append] at h
    obtain ⟨p, after, rfl, mid, hrest, hmore⟩ := h
    have hparen : startsWithMark .leftParen after = true := by
      obtain ⟨_, _, _, _, _⟩ := d
      obtain ⟨_, _, rfl, _⟩ := spells_cons.1 hrest
      rfl
    have hread := functionRest_reads hb p (c := c.within .method) hd hrest
    obtain ⟨turn, turns, rfl, hleft⟩ := exists_turn hturns
    unfold classMembers
    rw [skipSemicolons_cons rfl]
    simp only [List.tail_cons, hparen, if_true, readName, ok_bind]
    rw [hname] at hread
    refine (hread.bind fun r hr => ?_).congr Nat.max_le.symm
    obtain ⟨d', rfl, hview⟩ := hr
    refine (ih hmethods (Nat.le_trans hrest.length_le hleft) hmore).andThen fun r hr => ?_
    obtain ⟨methods', rfl, hviews⟩ := hr
    exact ⟨([], d' :: methods', rest), rfl, _, rfl, List.cons_eq_cons.2 ⟨hview, hviews⟩⟩

theorem classMembers_reads {properties : List Param} {methods : List FunctionDecl}
    (hps : ∀ p ∈ properties, p.wellFormed = true) (hwf : methodsWellFormed methods = true)
    (hturns : ts.length ≤ turns.length)
    (h : Spells ts (properties.flatMap Param.kinds ++ methodKinds named methods)
      (⟨.mark .rightBrace, q⟩ :: rest)) :
    Gives (methodLevels methods ≤ n)
      (fun r => ∃ properties' methods', r = (properties', methods', rest) ∧
        properties'.map Param.unplaced = properties.map Param.unplaced ∧
        unplacedMethods methods' = unplacedMethods methods)
      (classMembers below c turns ts) := by
  induction properties generalizing ts turns with
  | nil =>
    refine (methods_reads hb hwf hturns h).imp fun r hr => ?_
    obtain ⟨methods', rfl, hviews⟩ := hr
    exact ⟨[], methods', rfl, rfl, hviews⟩
  | cons property properties ih =>
    obtain ⟨hproperty, hps⟩ := List.forall_mem_cons.1 hps
    rw [List.flatMap_cons, List.append_assoc, spells_append] at h
    obtain ⟨mid, hfront, hmore⟩ := h
    obtain ⟨k, r, after, rfl, hk⟩ := members_begin hwf hmore
    have hplain : ∀ {m : Mark}, m ≠ .rightBrace → startsWithMark m (⟨k, r⟩ :: after) = false := by
      intro m hm
      rcases hk with rfl | ⟨s, rfl⟩
      · simp [hm]
      · rfl
    have hread :=
      param_reads (c := c.within .property) hproperty hfront (hplain nofun) (hplain nofun)
    obtain ⟨_, hok, property', rfl, hview⟩ := hread.1 trivial
    obtain ⟨p, left, rfl, htyping⟩ := spells_cons.1 hfront
    have hparen : startsWithMark .leftParen left = false := by
      cases ht : property.typing with
      | none =>
        rw [ht] at htyping
        cases spells_nil.1 htyping
        exact hplain nofun
      | some t =>
        rw [ht] at htyping
        obtain ⟨_, _, rfl, _⟩ := spells_cons.1 htyping
        rfl
    obtain ⟨turn, turns, rfl, hleft⟩ := exists_turn hturns
    unfold classMembers
    rw [skipSemicolons_cons rfl]
    simp only [startsWithMark_name, List.tail_cons, hparen, Bool.false_eq_true, if_false, hok,
      ok_bind]
    refine (ih hps (Nat.le_trans htyping.length_le hleft) hmore).andThen fun r hr => ?_
    obtain ⟨properties', methods', rfl, hviews, hmethods⟩ := hr
    exact ⟨(property' :: properties', methods', rest), rfl, _, _, rfl,
      List.cons_eq_cons.2 ⟨hview, hviews⟩, hmethods⟩

theorem classRest_reads (pos : Position) {d : ClassDecl} (hwf : d.wellFormed = true)
    (h : Spells ts (d.kinds named) rest) :
    Gives (d.levels ≤ n) (Reading ClassDecl.unplaced d rest) (classRest below d.name pos c ts) := by
  obtain ⟨name, properties, methods, _⟩ := d
  simp only [ClassDecl.wellFormed, Bool.and_eq_true, List.all_eq_true] at hwf
  simp only [ClassDecl.kinds, spells_cons, spells_append, spells_nil] at h
  obtain ⟨p, after, rfl, mid, hproperties, _, hmethods, e, _, rfl, rfl⟩ := h
  have hmembers := spells_append.2 ⟨mid, hproperties, hmethods⟩
  simp only [classRest, consume_mark, ok_bind]
  refine (classMembers_reads hb hwf.1 hwf.2 (Nat.le_refl _) hmembers).andThen fun r hr => ?_
  obtain ⟨properties', methods', rfl, hviews, hviews'⟩ := hr
  refine ⟨(⟨name, properties', methods', pos⟩, _), rfl, _, rfl, ?_⟩
  simp [ClassDecl.unplaced, hviews, hviews']

/-! ## Primary expressions -/

omit hb in
theorem field_eq {key : String} {p : Position} :
    field below c (⟨keyKind named key, p⟩ :: ⟨.mark .colon, q⟩ :: ts) = (do
      let r ← expression below c ts
      return ((key, r.1), r.2)) := by
  unfold keyKind
  split <;> rfl

theorem field_reads {f : String × Expr} (hwf : f.2.wellFormed = true)
    (h : Spells ts (fieldKind named f) rest) (hstop : Stops 0 rest) :
    Gives (f.2.levels + f.2.entry ≤ n) (Reading unplacedField f rest) (field below c ts) := by
  simp only [fieldKind, spells_cons] at h
  obtain ⟨p, _, rfl, q, after, rfl, h⟩ := h
  rw [field_eq]
  refine (expression_reads hb hwf h hstop).andThen fun r hr => ?_
  obtain ⟨e', rfl, hview⟩ := hr
  exact ⟨((f.1, e'), rest), rfl, _, rfl, congrArg (f.1, ·) hview⟩

/-- Expressions up to a closing mark. -/
theorem list_expression_reads {close : Mark} {es : List Expr}
    (hclose : close ∈ [.rightParen, .rightBracket]) (hwf : exprsWellFormed es = true)
    (h : Spells ts (separated .comma (exprKinds named es)) (⟨.mark close, q⟩ :: rest)) :
    Gives (exprLevels es ≤ n) (Reading unplacedExprs es rest)
      (list close (expression below) c ts) := by
  rw [exprKinds_eq_map] at h
  rw [show unplacedExprs = List.map Expr.unplaced from funext unplacedExprs_eq_map]
  refine (items_reads ?_ (fun {e _ _ m _} he hm hspell => ?_) (fun {e _ _} he hspell => ?_)
    (exprsWellFormed_iff.1 hwf) (Nat.le_refl _) h).congr exprLevels_le.symm
  · rintro rfl
    simp at hclose
  · have hbinding : binding (.mark m) = none := by
      simp only [List.mem_cons, List.not_mem_nil, or_false] at hclose
      rcases hm with rfl | rfl
      · rfl
      · rcases hclose with rfl | rfl <;> rfl
    exact expression_reads hb he hspell (.of_none hbinding)
  · obtain ⟨k, ks, hk, hopens, _⟩ := exists_kinds_eq_cons named e he
    rw [hk] at hspell
    obtain ⟨p, after, rfl, _⟩ := spells_cons.1 hspell
    simp only [List.mem_cons, List.not_mem_nil, or_false] at hclose
    cases k with
    | mark m => rcases hclose with rfl | rfl <;> cases m <;> first | rfl | cases hopens
    | _ => rfl

theorem list_field_reads {fs : List (String × Expr)} (hwf : fieldsWellFormed fs = true)
    (h : Spells ts (separated .comma (fieldKinds named fs)) (⟨.mark .rightBrace, q⟩ :: rest)) :
    Gives (fieldLevels fs ≤ n) (Reading unplacedFields fs rest)
      (list .rightBrace (field below) c ts) := by
  rw [fieldKinds_eq_map] at h
  rw [show unplacedFields = List.map unplacedField from funext unplacedFields_eq_map]
  refine (items_reads (by decide) (fun he hm hspell => ?_) (fun {f _ _} _ hspell => ?_)
    (fieldsWellFormed_iff.1 hwf) (Nat.le_refl _) h).congr fieldLevels_le.symm
  · refine field_reads hb he hspell (.of_none ?_)
    rcases hm with rfl | rfl <;> rfl
  · obtain ⟨p, after, rfl, _⟩ := spells_cons.1 hspell
    unfold keyKind
    split <;> rfl

omit hb in
/-- A mark follows a name that may be left out. -/
theorem readName?_reads {name : Option String} {m : Mark} {p : Position}
    (h : Spells ts (nameKinds name) (⟨.mark m, p⟩ :: rest)) :
    readName? ts = (name, ⟨.mark m, p⟩ :: rest) := by
  cases name with
  | none =>
    cases spells_nil.1 h
    rfl
  | some s =>
    obtain ⟨_, _, rfl, hrest⟩ := spells_cons.1 h
    cases spells_nil.1 hrest
    rfl

omit hb in
theorem startsNamespace_reads {name : Option String} {p b : Position}
    (h : Spells ts (nameKinds name) (⟨.mark .leftBrace, b⟩ :: rest)) :
    startsNamespace (⟨.name "namespace", p⟩ :: ts) = true := by
  refine startsNamespace_iff.2 ⟨rfl, ?_⟩
  cases name with
  | none =>
    cases spells_nil.1 h
    exact .brace
  | some s =>
    obtain ⟨_, _, rfl, hrest⟩ := spells_cons.1 h
    cases spells_nil.1 hrest
    exact .name

theorem primary_reads (hprimary : e.isPrimary = true) (hwf : e.wellFormed = true)
    (h : Spells ts (e.kinds named) rest) :
    Gives (e.levels ≤ n) (Reading Expr.unplaced e rest) (primary below c ts) := by
  cases e with
  | assign | binary | unary | call | member | index => cases hprimary
  | name _ s =>
    obtain ⟨p, _, rfl, hrest⟩ := spells_cons.1 h
    cases spells_nil.1 hrest
    have hs : s ≠ "namespace" := by simpa [Expr.wellFormed] using hwf
    have hread : primary below c (⟨.name s, p⟩ :: rest) = .ok (.name p s, rest) := by
      simp [primary, startsNamespace, hs]
    rw [hread]
    exact .ok (Nat.zero_le n) ⟨_, rfl, rfl⟩
  | literal _ l =>
    obtain ⟨p, _, rfl, hrest⟩ := spells_cons.1 h
    cases spells_nil.1 hrest
    rcases l with _ | _ | (_ | _) | _ <;> exact .ok (Nat.zero_le n) ⟨_, rfl, rfl⟩
  | group _ e =>
    simp only [Expr.kinds, spells_cons, spells_append, spells_nil] at h
    obtain ⟨p, after, rfl, _, he, q, _, rfl, rfl⟩ := h
    refine (expression_reads hb (e := e) hwf he (.of_none rfl)).andThen fun r hr => ?_
    obtain ⟨e', rfl, hview⟩ := hr
    simp only [consume_mark, ok_bind]
    exact ⟨_, rfl, _, rfl, congrArg (Expr.group default) hview⟩
  | array _ es =>
    simp only [Expr.kinds, spells_cons, spells_append, spells_nil] at h
    obtain ⟨p, after, rfl, _, hes, q, _, rfl, rfl⟩ := h
    refine (list_expression_reads hb (by decide) hwf hes).andThen fun r hr => ?_
    obtain ⟨es', rfl, hviews⟩ := hr
    exact ⟨_, rfl, _, rfl, congrArg (Expr.array default) hviews⟩
  | object _ fs =>
    simp only [Expr.kinds, spells_cons, spells_append, spells_nil] at h
    obtain ⟨p, after, rfl, _, hfs, q, _, rfl, rfl⟩ := h
    refine (list_field_reads hb hwf hfs).andThen fun r hr => ?_
    obtain ⟨fs', rfl, hviews⟩ := hr
    exact ⟨_, rfl, _, rfl, congrArg (Expr.object default) hviews⟩
  | function _ d =>
    simp only [Expr.kinds, spells_cons, spells_append] at h
    obtain ⟨p, after, rfl, mid, hname, hd⟩ := h
    have hread := functionRest_reads hb p (c := (c.within .primary).within .function) hwf hd
    obtain ⟨name, _, _, _, _⟩ := d
    obtain ⟨_, _, rfl, _⟩ := spells_cons.1 hd
    simp only [primary, readName?_reads hname]
    refine hread.andThen fun r hr => ?_
    obtain ⟨d', rfl, hview⟩ := hr
    exact ⟨_, rfl, _, rfl, congrArg (Expr.function default) hview⟩
  | classDef _ d =>
    simp only [Expr.kinds, spells_cons, spells_append] at h
    obtain ⟨p, after, rfl, mid, hname, hd⟩ := h
    have hread := classRest_reads hb p (c := (c.within .primary).within .classDef) hwf hd
    obtain ⟨name, _, _, _⟩ := d
    obtain ⟨_, _, rfl, _⟩ := spells_cons.1 hd
    simp only [primary, readName?_reads hname]
    refine hread.andThen fun r hr => ?_
    obtain ⟨d', rfl, hview⟩ := hr
    exact ⟨_, rfl, _, rfl, congrArg (Expr.classDef default) hview⟩
  | namespaceDef _ d =>
    simp only [Expr.kinds, spells_cons, spells_append] at h
    obtain ⟨p, after, rfl, mid, hname, hd⟩ := h
    have hread := namespaceRest_reads hb p (c := (c.within .primary).within .namespaceDef) hwf hd
    obtain ⟨name, _, _⟩ := d
    obtain ⟨_, _, rfl, _⟩ := spells_cons.1 hd
    simp only [primary, startsNamespace_reads hname, if_true, readName?_reads hname]
    refine hread.andThen fun r hr => ?_
    obtain ⟨d', rfl, hview⟩ := hr
    exact ⟨_, rfl, _, rfl, congrArg (Expr.namespaceDef default) hview⟩
  | importFrom _ e =>
    simp only [Expr.kinds, spells_cons, spells_append, spells_nil] at h
    obtain ⟨p, _, rfl, q, after, rfl, _, he, r, _, rfl, rfl⟩ := h
    simp only [primary, consume_mark, ok_bind]
    refine (expression_reads hb (e := e) hwf he (.of_none rfl)).andThen fun r hr => ?_
    obtain ⟨e', rfl, hview⟩ := hr
    simp only [consume_mark, ok_bind]
    exact ⟨_, rfl, _, rfl, congrArg (Expr.importFrom default) hview⟩

/-! ## Loops along the left side -/

omit hb

section

abbrev Loop := List Token → Expr → List Token → Except SyntaxError (Expr × List Token)

/-- `x` comes to the loop with the expression `e` before the tokens `mid`, and with turns enough for
    all of them. -/
def Continues (fits : Prop) (loop : Loop) (e : Expr) (mid : List Token)
    (x : Except SyntaxError (Expr × List Token)) : Prop :=
  (fits → ∃ turns e', mid.length ≤ turns.length ∧ e'.unplaced = e.unplaced ∧
    x = loop turns e' mid) ∧ (¬ fits → TooDeep x)

variable {α : Type} {p p' : Prop} {loop : Loop} {e e₂ : Expr}
  {x : Except SyntaxError (Expr × List Token)}

/-- The loop is entered, or takes a turn, after a result. -/
theorem Gives.continues {Q : α → Prop} {y : Except SyntaxError α}
    {f : α → Except SyntaxError (Expr × List Token)} (h : Gives p Q y)
    (hf : ∀ a, Q a → ∃ turns e', mid.length ≤ turns.length ∧ e'.unplaced = e.unplaced ∧
      f a = loop turns e' mid) : Continues p loop e mid (y >>= f) := by
  refine ⟨fun hp => ?_, fun hp => (h.2 hp).bind⟩
  obtain ⟨a, rfl, ha⟩ := h.1 hp
  exact hf a ha

theorem Continues.congr (h : Continues p loop e mid x) (hpp : p ↔ p') :
    Continues p' loop e mid x := by
  rwa [← propext hpp]

theorem Continues.next {t : Token} (h : Continues p loop e (t :: mid) x)
    (hturn : ∀ turn turns e', mid.length ≤ turns.length → e'.unplaced = e.unplaced →
      Continues p' loop e₂ rest (loop (turn :: turns) e' (t :: mid))) :
    Continues (p ∧ p') loop e₂ rest x := by
  by_cases hp : p
  · obtain ⟨turns, e', hturns, hview, rfl⟩ := h.1 hp
    obtain ⟨turn, turns, rfl, hleft⟩ := exists_turn hturns
    have hrest := hturn turn turns e' hleft hview
    exact ⟨fun hpp => hrest.1 hpp.2, fun hpp => hrest.2 fun hp' => hpp ⟨hp, hp'⟩⟩
  · exact ⟨fun hpp => absurd hpp.1 hp, fun _ => h.2 hp⟩

theorem Continues.stops (h : Continues p loop e rest x)
    (hstop : ∀ turns e', loop turns e' rest = .ok (e', rest)) :
    Gives p (Reading Expr.unplaced e rest) x := by
  refine ⟨fun hp => ?_, h.2⟩
  obtain ⟨turns, e', _, hview, rfl⟩ := h.1 hp
  exact ⟨(e', rest), hstop turns e', e', rfl, hview⟩

end

theorem postfixes_stops (h : Stops 9 rest) :
    postfixes below c turns e rest = .ok (e, rest) := by
  unfold postfixes
  split
  next => rfl
  next =>
    split
    next => exact absurd h (not_stops rfl (Nat.le_refl 9))
    next => exact absurd h (not_stops rfl (Nat.le_refl 9))
    next => exact absurd h (not_stops rfl (Nat.le_refl 9))
    next => rfl

include hb

/-- Calls, members and elements are read one after the other. -/
theorem call_continues : (e : Expr) → {ts mid : List Token} → 9 ≤ e.rank → e.wellFormed = true →
    Spells ts (e.kinds named) mid →
    Continues (e.levels ≤ n) (postfixes below c) e mid (call below c ts)
  | .call _ f args, ts, mid, _, hwf, h => by
    simp only [Expr.wellFormed, Bool.and_eq_true, decide_eq_true_eq] at hwf
    obtain ⟨⟨hrank, hf⟩, hargs⟩ := hwf
    simp only [Expr.kinds, spells_cons, spells_append, spells_nil] at h
    obtain ⟨_, hcallee, p, after, rfl, _, hes, q, _, rfl, rfl⟩ := h
    have hshort := hes.length_le
    rw [Expr.levels, Nat.max_le]
    refine (call_continues f hrank hf hcallee).next fun turn turns f' hturns hview => ?_
    refine (list_expression_reads hb (by decide) hargs hes).continues fun r hr => ?_
    obtain ⟨args', rfl, hviews⟩ := hr
    exact ⟨turns, .call f'.pos f' args', Nat.le_trans (Nat.le_of_succ_le hshort) hturns,
      by simp [Expr.unplaced, hview, hviews], rfl⟩
  | .member _ e field, ts, mid, _, hwf, h => by
    simp only [Expr.wellFormed, Bool.and_eq_true, decide_eq_true_eq] at hwf
    obtain ⟨hrank, he⟩ := hwf
    simp only [Expr.kinds, spells_cons, spells_append, spells_nil] at h
    obtain ⟨_, hobject, p, _, rfl, q, _, rfl, rfl⟩ := h
    refine ((call_continues e hrank he hobject).next fun turn turns e' hturns hview => ?_).congr
      (iff_of_eq (and_true _))
    exact ⟨fun _ => ⟨turns, .member e'.pos e' field, Nat.le_of_succ_le hturns,
      by simp [Expr.unplaced, hview], rfl⟩, (absurd trivial ·)⟩
  | .index _ e k, ts, mid, _, hwf, h => by
    simp only [Expr.wellFormed, Bool.and_eq_true, decide_eq_true_eq] at hwf
    obtain ⟨⟨hrank, he⟩, hk⟩ := hwf
    simp only [Expr.kinds, spells_cons, spells_append, spells_nil] at h
    obtain ⟨_, hobject, p, after, rfl, _, hkey, q, _, rfl, rfl⟩ := h
    have hshort := hkey.length_le
    rw [Expr.levels, Nat.max_le]
    refine (call_continues e hrank he hobject).next fun turn turns e' hturns hview => ?_
    refine (expression_reads hb hk hkey (.of_none rfl)).continues fun r hr => ?_
    obtain ⟨k', rfl, hview'⟩ := hr
    simp only [consume_mark, ok_bind]
    exact ⟨turns, .index e'.pos e' k', Nat.le_trans (Nat.le_of_succ_le hshort) hturns,
      by simp [Expr.unplaced, hview, hview'], rfl⟩
  | .assign .., _, _, hrank, _, _ | .unary .., _, _, hrank, _, _ =>
    absurd hrank (by simp [Expr.rank])
  | .binary _ op _ _, _, _, hrank, _, _ => absurd (Nat.le_trans hrank op.rank_le) (by decide)
  | .name .., _, _, _, hwf, h | .literal .., _, _, _, hwf, h | .group .., _, _, _, hwf, h
  | .array .., _, _, _, hwf, h | .object .., _, _, _, hwf, h | .function .., _, _, _, hwf, h
  | .classDef .., _, _, _, hwf, h | .namespaceDef .., _, _, _, hwf, h
  | .importFrom .., _, _, _, hwf, h => by
    refine (primary_reads hb rfl hwf h).continues fun r hr => ?_
    obtain ⟨e', rfl, hview⟩ := hr
    exact ⟨_, e', Nat.le_refl _, hview, rfl⟩

theorem call_reads (hrank : 9 ≤ e.rank) (hwf : e.wellFormed = true)
    (h : Spells ts (e.kinds named) rest) (hstop : Stops 9 rest) :
    Gives (e.levels ≤ n) (Reading Expr.unplaced e rest) (call below c ts) :=
  (call_continues hb e hrank hwf h).stops fun _ _ => postfixes_stops hstop

/-! ## Prefix expressions and powers -/

omit hb in
theorem not_startsWithMark_starStar (h : Stops 8 rest) : startsWithMark .starStar rest = false := by
  refine Bool.eq_false_iff.2 fun hs => ?_
  obtain ⟨p, hp⟩ := startsWith_eq_true hs
  rw [hp] at h
  exact not_stops rfl (Nat.le_refl 8) h

omit hb in
theorem unaryBody_eq_power (hrank : 9 ≤ e.rank) (hwf : e.wellFormed = true)
    (h : Spells ts (e.kinds named) mid) : unaryBody below c ts = power below c ts := by
  obtain ⟨k, ks, hk, _, hplain⟩ := exists_kinds_eq_cons named e hwf
  rw [hk] at h
  obtain ⟨p, after, rfl, _⟩ := spells_cons.1 h
  simp only [unaryBody, hplain hrank]

theorem unaryBody_reads (hrank : 8 ≤ e.rank) (hwf : e.wellFormed = true)
    (h : Spells ts (e.kinds named) rest) (hstop : Stops 8 rest) :
    Gives (e.levels ≤ n) (Reading Expr.unplaced e rest) (unaryBody below c ts) := by
  by_cases htight : 9 ≤ e.rank
  · rw [unaryBody_eq_power htight hwf h]
    refine (call_reads hb htight hwf h (hstop.mono (by decide))).andThen fun r hr => ?_
    obtain ⟨e', rfl, hview⟩ := hr
    simp only [not_startsWithMark_starStar hstop]
    exact ⟨_, rfl, _, rfl, hview⟩
  · cases e with
    | unary _ op e =>
      simp only [Expr.wellFormed, Bool.and_eq_true, decide_eq_true_eq] at hwf
      obtain ⟨p, after, rfl, he⟩ := spells_cons.1 h
      have hop : prefixOp? (.mark op.mark) = some op := by cases op <;> rfl
      simp only [unaryBody, hop]
      refine (hb.unary hwf.1 hwf.2 he hstop).andThen fun r hr => ?_
      obtain ⟨e', rfl, hview⟩ := hr
      exact ⟨_, rfl, _, rfl, congrArg (Expr.unary default op) hview⟩
    | binary _ op l r =>
      cases BinaryOp.eq_power_of_le_rank hrank
      simp only [Expr.wellFormed, Bool.and_eq_true, decide_eq_true_eq] at hwf
      obtain ⟨⟨⟨hleft, hright⟩, hl⟩, hr⟩ := hwf
      simp only [Expr.kinds, spells_append, spells_cons] at h
      obtain ⟨_, hbase, p, after, rfl, hexponent⟩ := h
      rw [unaryBody_eq_power hleft hl hbase]
      refine ((call_reads hb hleft hl hbase (.of_some rfl (by decide))).bind fun x hx => ?_).congr
        (by rw [Expr.levels, if_pos rfl, Nat.max_le])
      obtain ⟨l', rfl, hview⟩ := hx
      refine (hb.unary hright hr hexponent hstop).andThen fun x hx => ?_
      obtain ⟨r', rfl, hview'⟩ := hx
      exact ⟨_, rfl, _, rfl, by simp [Expr.unplaced, hview, hview']⟩
    | _ => exact absurd htight (by simp_all [Expr.rank])

/-! ## Binary operators and assignments -/

section

variable {k : Nat} {operators : Operators} {operand : Parse Expr}

structure HasRank (operators : Operators) (k : Nat) : Prop where
  some : ∀ {op : BinaryOp}, op.rank = k + 1 → operators (.mark op.mark) = some op
  binding : ∀ {kind : Token.Kind} {op : BinaryOp}, operators kind = .some op →
    binding kind = .some (k + 1)

omit hb in
theorem binaryChain_stops (hops : HasRank operators k) (h : Stops (k + 1) rest) :
    binaryChain operators operand c turns e rest = .ok (e, rest) := by
  unfold binaryChain
  split
  next => rfl
  next =>
    split
    next =>
      split
      next hop => exact absurd h (not_stops (hops.binding hop) (Nat.le_refl _))
      next => rfl
    next => rfl

omit hb in
/-- A tighter operand starts a chain. -/
theorem operand_continues (hoperand : ReadsOperands named n (k + 2) operand)
    (hrank : k + 2 ≤ e.rank) (hwf : e.wellFormed = true) (h : Spells ts (e.kinds named) mid)
    (hstop : Stops (k + 2) mid) :
    Continues (e.levels + e.operandEntry ≤ n) (binaryChain operators operand c) e mid
      (binaryLevel operators operand c ts) := by
  refine (hoperand hrank hwf h hstop).continues fun x hx => ?_
  obtain ⟨e', rfl, hview⟩ := hx
  exact ⟨_, e', Nat.le_refl _, hview, rfl⟩

omit hb in
/-- Operators of one level are read one after the other. -/
theorem binary_continues (hops : HasRank operators k) (hk : k ≤ 6)
    (hoperand : ReadsOperands named n (k + 2) operand) :
    (e : Expr) → {ts mid : List Token} → k + 1 ≤ e.rank → e.wellFormed = true →
    Spells ts (e.kinds named) mid → Stops (k + 2) mid →
    Continues (e.levels + e.operandEntry ≤ n) (binaryChain operators operand c) e mid
      (binaryLevel operators operand c ts)
  | .binary _ op l r, ts, mid, hrank, hwf, h, hstop => by
    by_cases hop : op.rank = k + 1
    · have hpower : op ≠ .power := by
        rintro rfl
        have : 8 = k + 1 := hop
        omega
      have hloose : (Expr.binary ‹_› op l r).operandEntry = 0 := if_pos (show op.rank < 8 by omega)
      simp only [Expr.wellFormed, BinaryOp.leftRank, BinaryOp.rightRank, if_neg hpower, hop,
        Bool.and_eq_true, decide_eq_true_eq] at hwf
      obtain ⟨⟨⟨hleft, hright⟩, hl⟩, hr⟩ := hwf
      simp only [Expr.kinds, spells_append, spells_cons] at h
      obtain ⟨_, hleft', p, after, rfl, hright'⟩ := h
      have hshort := hright'.length_le
      have hnext : Stops (k + 2) (⟨.mark op.mark, p⟩ :: after) :=
        .of_some (binding_mark op) (by omega)
      rw [hloose, Nat.add_zero, Expr.levels, if_neg hpower, Nat.max_le]
      refine (binary_continues hops hk hoperand l hleft hl hleft' hnext).next
        fun turn turns l' hturns hview => ?_
      simp only [binaryChain, hops.some hop]
      refine (hoperand hright hr hright' hstop).continues fun x hx => ?_
      obtain ⟨r', rfl, hview'⟩ := hx
      exact ⟨turns, .binary l'.pos op l' r', Nat.le_trans hshort hturns,
        by simp [Expr.unplaced, hview, hview'], rfl⟩
    · have hrank : k + 1 ≤ op.rank := hrank
      exact operand_continues hoperand (show k + 2 ≤ op.rank by omega) hwf h hstop
  | .assign .., _, _, hrank, _, _, _ => nomatch hrank
  | .unary .., _, _, _, hwf, h, hstop =>
    operand_continues hoperand (show k + 2 ≤ 8 by omega) hwf h hstop
  | .name .., _, _, _, hwf, h, hstop | .literal .., _, _, _, hwf, h, hstop
  | .group .., _, _, _, hwf, h, hstop | .array .., _, _, _, hwf, h, hstop
  | .object .., _, _, _, hwf, h, hstop | .call .., _, _, _, hwf, h, hstop
  | .member .., _, _, _, hwf, h, hstop | .index .., _, _, _, hwf, h, hstop
  | .function .., _, _, _, hwf, h, hstop | .classDef .., _, _, _, hwf, h, hstop
  | .namespaceDef .., _, _, _, hwf, h, hstop | .importFrom .., _, _, _, hwf, h, hstop =>
    operand_continues hoperand (show k + 2 ≤ 9 by omega) hwf h hstop

omit hb in
theorem binaryLevel_reads (hops : HasRank operators k) (hk : k ≤ 6)
    (hoperand : ReadsOperands named n (k + 2) operand) :
    ReadsOperands named n (k + 1) (binaryLevel operators operand) := fun hrank hwf h hstop =>
  (binary_continues hops hk hoperand _ hrank hwf h (hstop.mono (Nat.le_succ _))).stops
    fun _ _ => binaryChain_stops hops hstop

omit hb in
theorem operatorLevels_hasRank : ∀ x ∈ operatorLevels.zipIdx, HasRank x.1 x.2 := by
  simp only [operatorLevels, List.zipIdx_cons, List.zipIdx_nil, List.forall_mem_cons]
  refine ⟨?_, ?_, ?_, ?_, ?_, ?_, ?_, fun _ h => nomatch h⟩
  all_goals
    refine ⟨fun {op} hop => ?_, fun {kind op} hop => ?_⟩
    · cases op <;> first | rfl | cases hop
    · cases kind with
      | mark m => cases m <;> cases hop <;> rfl
      | _ => cases hop

omit hb in
/-- Levels of operators from the `k`th on, over prefix expressions. -/
theorem levels_reads {levels : List Operators} (hoperand : ReadsOperands named n 8 operand)
    (hlevels : ∀ x ∈ levels.zipIdx k, HasRank x.1 x.2) (hk : k + levels.length = 7) :
    ReadsOperands named n (k + 1) (levels.foldr binaryLevel operand) := by
  induction levels generalizing k with
  | nil =>
    cases hk
    exact hoperand
  | cons operators levels ih =>
    rw [List.zipIdx_cons, List.forall_mem_cons] at hlevels
    rw [List.length_cons] at hk
    exact binaryLevel_reads hlevels.1 (by omega) (ih hlevels.2 (by omega))

end

theorem binaryExpr_reads : ReadsOperands named n 1 (binaryExpr below) :=
  levels_reads hb.unary operatorLevels_hasRank rfl

theorem assignmentBody_reads (hwf : e.wellFormed = true) (h : Spells ts (e.kinds named) rest)
    (hstop : Stops 0 rest) :
    Gives (e.levels + e.operandEntry ≤ n) (Reading Expr.unplaced e rest)
      (assignmentBody below c ts) := by
  by_cases hrank : 1 ≤ e.rank
  · refine (binaryExpr_reads hb hrank hwf h (hstop.mono (by decide))).andThen fun x hx => ?_
    obtain ⟨e', rfl, hview⟩ := hx
    refine ⟨(e', rest), ?_, _, rfl, hview⟩
    simp only
    split
    next => exact absurd hstop (not_stops rfl (Nat.le_refl 0))
    next => rfl
  · cases e with
    | assign _ sign t v =>
      simp only [Expr.wellFormed, Bool.and_eq_true] at hwf
      obtain ⟨⟨htarget, ht⟩, hv⟩ := hwf
      simp only [Expr.kinds, spells_append, spells_cons] at h
      obtain ⟨_, hleft, p, after, rfl, hright⟩ := h
      have hrank : 1 ≤ t.rank := Expr.rank_of_isTarget htarget ▸ (by decide : 1 ≤ 9)
      have hread := binaryExpr_reads hb (c := c) hrank ht hleft (.of_some rfl (by decide))
      refine (hread.bind fun x hx => ?_).congr Nat.max_le.symm
      obtain ⟨t', rfl, hview⟩ := hx
      have htarget' : t'.isTarget = true := by
        rw [← t'.isTarget_unplaced, hview, t.isTarget_unplaced, htarget]
      simp only [htarget', if_true]
      refine (hb.assignment hv hright hstop).andThen fun x hx => ?_
      obtain ⟨v', rfl, hview'⟩ := hx
      exact ⟨_, rfl, _, rfl, by simp [Expr.unplaced, hview, hview']⟩
    | binary _ op l r => exact absurd op.rank_pos hrank
    | _ => exact absurd (Nat.zero_lt_succ _) hrank

end TinyScript.Grammar

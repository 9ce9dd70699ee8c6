/-
  TinyScript.Proofs.Grammar.Completeness — every well-formed program is read back.

  The tokens of a well-formed tree are read as that tree if it opens no more levels than are left,
  and if not the error is the nesting.
-/

import Mathlib.Logic.Basic
import TinyScript.Proofs.Grammar.Expressions

namespace TinyScript.Grammar

open TinyScript.Text TinyScript.Derivation

variable {ts mid rest : List Token} {c : Context} {q : Position} {named : String → Bool}
  {below : Below} {n : Nat} (hb : Complete named below n) {s : Stmt} {e : Expr}

/-! ## Declarations -/

def Declaring (s : Stmt) (rest : List Token) (r : Option (Stmt × List Token)) : Prop :=
  ∃ s', r = some (s', rest) ∧ s'.unplaced = s.unplaced

theorem Reading.declaring {r : Stmt × List Token} (h : Reading Stmt.unplaced s rest r) :
    Declaring s rest (some r) := by
  obtain ⟨s', rfl, hview⟩ := h
  exact ⟨s', rfl, hview⟩

theorem qualifier?_word (q : Qualifier) : qualifier? (.keyword q.word) = some q := by
  cases q <;> rfl

include hb

theorem destructuring_reads {x : Qualifier} {targets : List Param} {exported : Bool}
    {pos p b a : Position} (htargets : targets.all Param.wellFormed = true)
    (he : e.wellFormed = true)
    (hps : Spells ts (separated .comma (targets.map Param.kinds))
      (⟨.mark .rightBracket, b⟩ :: ⟨.assign .set, a⟩ :: mid)) (h : Spells mid (e.kinds named) rest)
    (hstop : Stops 0 rest) :
    Gives (e.levels + e.entry ≤ n)
      (Reading Stmt.unplaced (.destructure p x targets e exported) rest)
      (destructuring below x exported pos c ts) := by
  obtain ⟨targets', hok, hviews⟩ :=
    params_reads (c := c) (by decide) (List.all_eq_true.1 htargets) hps
  simp only [destructuring, hok, ok_bind, consume_assign]
  refine (expression_reads hb he h hstop).andThen fun r hr => ?_
  obtain ⟨e', rfl, hview⟩ := hr
  exact ⟨_, rfl, _, rfl, congrArg₂ (Stmt.destructure default x · · exported) hviews hview⟩

omit hb in
/-- A declared name that is given no value. -/
theorem declaredName_reads {x : Qualifier} {name : String} {typing : Option Typing}
    {exported : Bool} {pos p t : Position} (hconst : x ≠ .constDecl)
    (htyping : typingWellFormed typing = true)
    (h : Spells ts (typingKinds typing) (⟨.mark .semicolon, q⟩ :: rest)) :
    Gives (0 ≤ n) (Reading Stmt.unplaced (.declare p x name typing none exported)
      (⟨.mark .semicolon, q⟩ :: rest))
      (declaredName below x exported pos c (⟨.name name, t⟩ :: ts)) := by
  obtain ⟨typing', hok, hview⟩ := typing?_reads (c := c) htyping h rfl rfl
  simp only [declaredName, readName, ok_bind, hok]
  rw [if_neg (by simp [startsWith, isKind]), if_neg hconst]
  exact .ok (Nat.zero_le n)
    ⟨_, rfl, congrArg (Stmt.declare default x name · none exported) hview⟩

/-- A declared name with its first value. -/
theorem declaredName_value_reads {x : Qualifier} {name : String} {typing : Option Typing}
    {exported : Bool} {pos p t a : Position} (htyping : typingWellFormed typing = true)
    (hname : e.ownName? ≠ some none) (he : e.wellFormed = true)
    (ht : Spells ts (typingKinds typing) (⟨.assign .set, a⟩ :: mid))
    (h : Spells mid (e.kinds named) rest) (hstop : Stops 0 rest) :
    Gives (e.levels + e.entry ≤ n)
      (Reading Stmt.unplaced (.declare p x name typing (some e) exported) rest)
      (declaredName below x exported pos c (⟨.name name, t⟩ :: ts)) := by
  obtain ⟨typing', hok, hview⟩ := typing?_reads (c := c) htyping ht rfl rfl
  simp only [declaredName, readName, ok_bind, hok]
  have hset : startsWith (.assign .set) (⟨.assign .set, a⟩ :: mid) = true := rfl
  rw [if_pos hset]
  refine (expression_reads hb he h hstop).andThen fun r hr => ?_
  obtain ⟨e', rfl, hview'⟩ := hr
  have hvalue : (e'.withName name).unplaced = e.unplaced := by
    rw [Expr.unplaced_withName, hview', ← Expr.unplaced_withName, Expr.withName_eq_self hname]
  exact ⟨_, rfl, _, rfl,
    congrArg₂ (Stmt.declare default x name · · exported) hview (congrArg some hvalue)⟩

theorem declaration?_reads (pos : Position) {place : Place} (hs : s.isDeclaration = true)
    (hwf : s.wellFormed place = true)
    (h : Spells ts (s.kinds named) (⟨.mark .semicolon, q⟩ :: rest)) :
    Gives (s.levels ≤ n) (Declaring s (⟨.mark .semicolon, q⟩ :: rest))
      (declaration? below s.isExported pos c ts) := by
  have hstop : Stops 0 (⟨.mark .semicolon, q⟩ :: rest) := .of_none rfl
  cases s with
  | declare _ x name typing init exported =>
    cases init with
    | none =>
      simp only [Stmt.wellFormed, Bool.and_eq_true, decide_eq_true_eq] at hwf
      simp only [Stmt.kinds, spells_cons] at h
      obtain ⟨p, _, rfl, t, after, rfl, h⟩ := h
      simp only [declaration?, qualifier?_word, startsWithMark_name]
      exact (declaredName_reads hwf.1 hwf.2 h).map fun _ hr => hr.declaring
    | some e =>
      simp only [Stmt.wellFormed, Bool.and_eq_true, decide_eq_true_eq] at hwf
      simp only [Stmt.kinds, spells_cons, spells_append] at h
      obtain ⟨p, _, rfl, t, after, rfl, _, ht, a, _, rfl, he⟩ := h
      simp only [declaration?, qualifier?_word, startsWithMark_name]
      exact (declaredName_value_reads hb hwf.1.1 hwf.1.2 hwf.2 ht he hstop).map
        fun _ hr => hr.declaring
  | destructure _ x targets e exported =>
    simp only [Stmt.wellFormed, Bool.and_eq_true] at hwf
    simp only [Stmt.kinds, spells_cons, spells_append] at h
    obtain ⟨p, _, rfl, b, _, rfl, _, hps, d, _, rfl, a, _, rfl, he⟩ := h
    simp only [declaration?, qualifier?_word, startsWithMark_mark, decide_true, if_true]
    exact (destructuring_reads hb hwf.1 hwf.2 hps he hstop).map fun _ hr => hr.declaring
  | function _ d exported =>
    simp only [Stmt.wellFormed, Bool.and_eq_true] at hwf
    obtain ⟨name, hname⟩ := Option.isSome_iff_exists.1 hwf.1
    simp only [Stmt.kinds, hname, nameKinds, Option.map_some, Option.toList_some, spells_cons,
      spells_append, spells_nil] at h
    obtain ⟨p, _, rfl, _, ⟨t, _, rfl, rfl⟩, hd⟩ := h
    have hread := functionRest_reads hb p (c := c.within .function) hwf.2 hd
    rw [hname] at hread
    refine hread.andThen fun r hr => ?_
    obtain ⟨d', rfl, hview⟩ := hr
    exact ⟨_, rfl, _, rfl, congrArg (Stmt.function default · exported) hview⟩
  | classDef _ d exported =>
    simp only [Stmt.wellFormed, Bool.and_eq_true] at hwf
    obtain ⟨name, hname⟩ := Option.isSome_iff_exists.1 hwf.1
    simp only [Stmt.kinds, hname, nameKinds, Option.map_some, Option.toList_some, spells_cons,
      spells_append, spells_nil] at h
    obtain ⟨p, _, rfl, _, ⟨t, _, rfl, rfl⟩, hd⟩ := h
    have hread := classRest_reads hb p (c := c.within .classDef) hwf.2 hd
    rw [hname] at hread
    refine hread.andThen fun r hr => ?_
    obtain ⟨d', rfl, hview⟩ := hr
    exact ⟨_, rfl, _, rfl, congrArg (Stmt.classDef default · exported) hview⟩
  | namespaceDef _ d exported =>
    simp only [Stmt.wellFormed, Bool.and_eq_true] at hwf
    obtain ⟨name, hname⟩ := Option.isSome_iff_exists.1 hwf.1
    simp only [Stmt.kinds, hname, nameKinds, Option.map_some, Option.toList_some, spells_cons,
      spells_append, spells_nil] at h
    obtain ⟨p, _, rfl, _, ⟨t, after, rfl, rfl⟩, hd⟩ := h
    have hread := namespaceRest_reads hb p (c := c.within .namespaceDef) hwf.2 hd
    rw [hname] at hread
    have hstart : startsNamespace (⟨.name "namespace", p⟩ :: ⟨.name name, t⟩ :: after) = true := by
      obtain ⟨_, _, _⟩ := d
      obtain ⟨b, _, rfl, _⟩ := spells_cons.1 hd
      exact startsNamespace_iff.2 ⟨rfl, .name⟩
    simp only [declaration?, qualifier?, startsWithName, hstart, if_true]
    refine hread.andThen fun r hr => ?_
    obtain ⟨d', rfl, hview⟩ := hr
    exact ⟨_, rfl, _, rfl, congrArg (Stmt.namespaceDef default · exported) hview⟩
  | _ => cases hs

/-! ## Other statements -/

def isControl : Token.Kind → Bool
  | .keyword w => w ∈ [.exportWord, .ifWord, .whileWord, .forWord, .returnWord, .breakWord,
      .continueWord]
  | _ => false

omit hb in
theorem isControl_of_opens {k : Token.Kind} (h : opens k = true) : isControl k = false := by
  cases k with
  | keyword w => cases w <;> first | rfl | cases h
  | _ => rfl

omit hb in
theorem exists_kinds_declaration (h : s.isDeclaration = true) :
    ∃ k ks, s.kinds named = k :: ks ∧ isControl k = false := by
  have hword : ∀ x : Qualifier, isControl (.keyword x.word) = false := fun x => by cases x <;> rfl
  cases s with
  | declare _ x _ _ init => cases init <;> exact ⟨_, _, rfl, hword x⟩
  | destructure _ x => exact ⟨_, _, rfl, hword x⟩
  | function | classDef | namespaceDef => exact ⟨_, _, rfl, rfl⟩
  | _ => cases h

omit hb in
theorem statementBody_declaration {k : Token.Kind} {p : Position} {fits : Prop}
    (hk : isControl k = false)
    (h : Gives fits (Declaring s rest)
      (declaration? below false p (c.within .statement) (⟨k, p⟩ :: ts))) :
    Gives fits (Reading Stmt.unplaced s rest) (statementBody below c (⟨k, p⟩ :: ts)) := by
  simp only [statementBody]
  split
  iterate 7 next => cases hk
  refine h.andThen fun r hr => ?_
  obtain ⟨s', rfl, hview⟩ := hr
  exact ⟨_, rfl, _, rfl, hview⟩

theorem statementBody_expression {k : Token.Kind} {p at' : Position} (hk : isControl k = false)
    (hwf : e.wellFormed = true)
    (hd : declaration? below false p (c.within .statement) (⟨k, p⟩ :: ts) = .ok none)
    (h : Spells (⟨k, p⟩ :: ts) (e.kinds named) rest) (hstop : Stops 0 rest) :
    Gives (e.levels + e.entry ≤ n) (Reading Stmt.unplaced (.expr at' e) rest)
      (statementBody below c (⟨k, p⟩ :: ts)) := by
  simp only [statementBody]
  split
  iterate 7 next => cases hk
  simp only [hd, ok_bind]
  refine (expression_reads hb hwf h hstop).andThen fun r hr => ?_
  obtain ⟨e', rfl, hview⟩ := hr
  exact ⟨_, rfl, _, rfl, congrArg (Stmt.expr default) hview⟩

section

variable {again : Option (Position → Parse Stmt)} {e : Expr} {body : List Stmt}
  {p pos b d : Position}

/-- A condition and a body that no `else` follows. -/
theorem ifBranch_reads (he : e.wellFormed = true)
    (hbody : statementsWellFormed c.place.branch body = true)
    (hcondition : Spells ts (e.kinds named) (⟨.mark .leftBrace, b⟩ :: mid))
    (hss : Spells mid (statementKinds named body) (⟨.mark .rightBrace, d⟩ :: rest))
    (hrest : startsWith (.keyword .elseWord) rest = false) :
    Gives (max (e.levels + e.entry) (statementLevels body) ≤ n)
      (Reading Stmt.unplaced (.ifElse p e body none) rest) (ifBranch below again pos c ts) := by
  refine ((expression_reads hb he hcondition (.of_none rfl)).bind fun r hr => ?_).congr
    Nat.max_le.symm
  obtain ⟨e', rfl, hview⟩ := hr
  refine (block_reads hb ?_ hss).andThen fun r hr => ?_
  · rwa [Context.place_block]
  · obtain ⟨body', rfl, hviews⟩ := hr
    simp only [hrest]
    exact ⟨_, rfl, _, rfl, congrArg₂ (Stmt.ifElse default · · none) hview hviews⟩

/-- A condition, a body and what follows `else`. -/
theorem ifBranch_else_reads {other : Stmt} {l : Position} {after : List Token}
    (he : e.wellFormed = true) (hbody : statementsWellFormed c.place.branch body = true)
    (hcondition : Spells ts (e.kinds named) (⟨.mark .leftBrace, b⟩ :: mid))
    (hss : Spells mid (statementKinds named body)
      (⟨.mark .rightBrace, d⟩ :: ⟨.keyword .elseWord, l⟩ :: after))
    (hother : Gives (other.levels ≤ n) (Reading Stmt.unplaced other rest)
      (elseRest below again ((c.within .ifElse).enter .block) after)) :
    Gives (max (e.levels + e.entry) (max (statementLevels body) other.levels) ≤ n)
      (Reading Stmt.unplaced (.ifElse p e body (some other)) rest)
      (ifBranch below again pos c ts) := by
  rw [Nat.max_le, Nat.max_le]
  refine (expression_reads hb he hcondition (.of_none rfl)).bind fun r hr => ?_
  obtain ⟨e', rfl, hview⟩ := hr
  refine (block_reads hb ?_ hss).bind fun r hr => ?_
  · rwa [Context.place_block]
  · obtain ⟨body', rfl, hviews⟩ := hr
    refine hother.andThen fun r hr => ?_
    obtain ⟨other', rfl, hview'⟩ := hr
    have hbranches := congrArg₂ (Stmt.ifElse default e.unplaced) hviews (congrArg some hview')
    exact ⟨_, rfl, _, rfl, (congrArg (Stmt.ifElse default · _ _) hview).trans hbranches⟩

theorem elseRest_reads (hbody : statementsWellFormed c.place body = true)
    (hss : Spells ts (statementKinds named body) (⟨.mark .rightBrace, d⟩ :: rest)) :
    Gives (statementLevels body ≤ n) (Reading Stmt.unplaced (.block p body) rest)
      (elseRest below again c (⟨.mark .leftBrace, b⟩ :: ts)) := by
  have hblock : elseRest below again c (⟨.mark .leftBrace, b⟩ :: ts) = (do
      let r ← block below c (⟨.mark .leftBrace, b⟩ :: ts)
      return (.block b r.1, r.2)) := by
    cases again <;> rfl
  rw [hblock]
  refine (block_reads hb hbody hss).andThen fun r hr => ?_
  obtain ⟨body', rfl, hviews⟩ := hr
  exact ⟨_, rfl, _, rfl, congrArg (Stmt.block default) hviews⟩

end

/-- What follows the word `if`. The conditions after `else` open no level, and each takes a turn. -/
theorem ifRest_reads {place : Place} : (s : Stmt) → {c : Context} → {pos : Position} →
    {turns ts : List Token} → s.isBlock = false → s.isBranch = true → s.wellFormed place = true →
    Spells ts (s.kinds named).tail (⟨.mark .semicolon, q⟩ :: rest) →
    ts.length ≤ turns.length → c.place.branch = place.branch →
    Gives (s.levels ≤ n) (Reading Stmt.unplaced s (⟨.mark .semicolon, q⟩ :: rest))
      (ifRest below turns pos c ts)
  | .ifElse _ e body none, c, pos, turns, ts, _, _, hwf, h, _, hplace => by
    simp only [Stmt.wellFormed, Bool.and_eq_true, ← hplace] at hwf
    simp only [Stmt.kinds, List.tail_cons, spells_cons, spells_append, spells_nil] at h
    obtain ⟨_, hcondition, b, _, rfl, _, hss, d, _, rfl, rfl⟩ := h
    cases turns <;> exact ifBranch_reads hb hwf.1 hwf.2 hcondition hss rfl
  | .ifElse _ e body (some other), c, pos, turns, ts, _, _, hwf, h, hturns, hplace => by
    simp only [Stmt.wellFormed, Bool.and_eq_true, ← hplace] at hwf
    obtain ⟨⟨⟨he, hbody⟩, hbranch⟩, hother⟩ := hwf
    simp only [Stmt.kinds, List.tail_cons, spells_cons, spells_append] at h
    obtain ⟨_, hcondition, b, _, rfl, _, hss, d, _, rfl, l, after, rfl, hrest⟩ := h
    obtain ⟨turn, turns, rfl, hleft⟩ := exists_turn (Nat.le_trans hcondition.length_le hturns)
    have hshort := Nat.le_trans hss.length_le hleft
    refine ifBranch_else_reads hb he hbody hcondition hss ?_
    have hinner : ((c.within .ifElse).enter .block).place = place.branch := by
      rw [Context.place_block, Context.place_within, hplace]
    cases hblock : other.isBlock with
    | true =>
      obtain ⟨p, ss, rfl⟩ := Stmt.eq_block hblock
      simp only [Stmt.kinds, spells_cons, spells_append, spells_nil] at hrest
      obtain ⟨b, _, rfl, _, hss, d, _, rfl, rfl⟩ := hrest
      exact elseRest_reads hb (hinner ▸ hother) hss
    | false =>
      rw [Stmt.kinds_eq_if hblock hbranch] at hrest
      obtain ⟨p, after, rfl, hmore⟩ := spells_cons.1 hrest
      refine ifRest_reads other hblock hbranch hother hmore ?_ (by rw [hinner]; rfl)
      simp only [List.length_cons] at hshort
      omega
  | .block .., _, _, _, _, hblock, _, _, _, _, _ => nomatch hblock
  | .expr .., _, _, _, _, _, hbranch, _, _, _, _ | .declare .., _, _, _, _, _, hbranch, _, _, _, _
  | .destructure .., _, _, _, _, _, hbranch, _, _, _, _
  | .function .., _, _, _, _, _, hbranch, _, _, _, _
  | .classDef .., _, _, _, _, _, hbranch, _, _, _, _
  | .namespaceDef .., _, _, _, _, _, hbranch, _, _, _, _
  | .whileLoop .., _, _, _, _, _, hbranch, _, _, _, _
  | .forLoop .., _, _, _, _, _, hbranch, _, _, _, _
  | .returnValue .., _, _, _, _, _, hbranch, _, _, _, _
  | .breakLoop .., _, _, _, _, _, hbranch, _, _, _, _
  | .continueLoop .., _, _, _, _, _, hbranch, _, _, _, _ => nomatch hbranch

/-- The expression and the body of a loop. -/
theorem loop_reads {body : List Stmt} {p pos b d : Position}
    {f : Position → Expr → List Stmt → Stmt}
    (hf : ∀ p e body, (f p e body).unplaced = f default e.unplaced (unplacedStatements body))
    (he : e.wellFormed = true) (hbody : statementsWellFormed c.place.loop body = true)
    (hhead : Spells ts (e.kinds named) (⟨.mark .leftBrace, b⟩ :: mid))
    (hss : Spells mid (statementKinds named body) (⟨.mark .rightBrace, d⟩ :: rest)) :
    Gives (max (e.levels + e.entry) (statementLevels body) ≤ n)
      (Reading Stmt.unplaced (f p e body) rest)
      (expression below c ts >>= fun x => block below (c.enter .loop) x.2 >>= fun y =>
        .ok (f pos x.1 y.1, y.2)) := by
  refine ((expression_reads hb he hhead (.of_none rfl)).bind fun r hr => ?_).congr
    Nat.max_le.symm
  obtain ⟨e', rfl, hview⟩ := hr
  refine (block_reads hb ?_ hss).andThen fun r hr => ?_
  · rwa [Context.place_loop]
  · obtain ⟨body', rfl, hviews⟩ := hr
    exact ⟨_, rfl, _, rfl, by rw [hf, hf, hview, hviews]⟩

theorem returnStatement_reads {p pos r : Position} (hplace : c.place.returns = true)
    (he : e.wellFormed = true) (h : Spells ts (e.kinds named) rest) (hstop : Stops 0 rest) :
    Gives (e.levels + e.entry ≤ n) (Reading Stmt.unplaced (.returnValue p (some e)) rest)
      (returnStatement below pos c (⟨.keyword .returnWord, r⟩ :: ts)) := by
  have hfunction : (c.within .returnValue).inFunction = true := hplace
  have hvalue : endsReturn ts = false := by
    obtain ⟨k, ks, hk, hopens, _⟩ := exists_kinds_eq_cons named e he
    obtain ⟨hbrace, hsemicolon, heof⟩ := begins_of_opens hopens
    rw [hk] at h
    obtain ⟨_, _, rfl, _⟩ := spells_cons.1 h
    simp [endsReturn, startsWithMark, startsWith, hbrace, hsemicolon, heof]
  simp only [returnStatement, hfunction, Bool.not_true, Bool.false_eq_true, if_false,
    List.tail_cons, hvalue]
  refine (expression_reads hb he h hstop).andThen fun r hr => ?_
  obtain ⟨e', rfl, hview⟩ := hr
  exact ⟨_, rfl, _, rfl, congrArg (Stmt.returnValue default) (congrArg some hview)⟩

section

variable (hexport : s.isExported = true → c.place.exports = true)
  (hwf : s.wellFormed c.place = true)
  (h : Spells ts (exportKinds s.isExported ++ s.kinds named) (⟨.mark .semicolon, q⟩ :: rest))

include hexport hwf h

/-- A declaration, with `export` or without. -/
theorem statementBody_reads_declaration (hs : s.isDeclaration = true) :
    Gives (s.levels ≤ n) (Reading Stmt.unplaced s (⟨.mark .semicolon, q⟩ :: rest))
      (statementBody below c ts) := by
  cases hx : s.isExported with
  | true =>
    rw [hx] at h
    obtain ⟨p, after, rfl, hspell⟩ := spells_cons.1 h
    have hread := declaration?_reads hb p (c := c.within .statement) hs hwf hspell
    have htop : (c.within .statement).atTopLevel = true := hexport hx
    rw [hx] at hread
    simp only [statementBody, htop, Bool.not_true, Bool.false_eq_true, if_false]
    refine hread.andThen fun r hr => ?_
    obtain ⟨s', rfl, hview⟩ := hr
    exact ⟨_, rfl, _, rfl, hview⟩
  | false =>
    rw [hx] at h
    have hspell : Spells ts (s.kinds named) (⟨.mark .semicolon, q⟩ :: rest) := h
    obtain ⟨k, ks, hk, hcontrol⟩ := exists_kinds_declaration hs
    rw [hk] at h
    obtain ⟨p, after, rfl, _⟩ := spells_cons.1 h
    have hread := declaration?_reads hb p (c := c.within .statement) hs hwf hspell
    rw [hx] at hread
    exact statementBody_declaration hcontrol hread

theorem statementBody_reads (hblock : s.isBlock = false) :
    Gives (s.levels ≤ n) (Reading Stmt.unplaced s (⟨.mark .semicolon, q⟩ :: rest))
      (statementBody below c ts) := by
  have hstop : Stops 0 (⟨.mark .semicolon, q⟩ :: rest) := .of_none rfl
  by_cases hs : s.isDeclaration = true
  · exact statementBody_reads_declaration hb hexport hwf h hs
  · have hx : s.isExported = false := Bool.eq_false_iff.2 (hs ∘ Stmt.isDeclaration_of_isExported)
    rw [hx] at h
    have hspell : Spells ts (s.kinds named) (⟨.mark .semicolon, q⟩ :: rest) := h
    cases s with
    | declare | destructure | function | classDef | namespaceDef => exact absurd rfl hs
    | block => cases hblock
    | expr _ e =>
      simp only [Stmt.wellFormed, Bool.and_eq_true, Option.isNone_iff_eq_none] at hwf
      obtain ⟨k, ks, hk, hopens, _⟩ := exists_kinds_eq_cons named e hwf.2
      rw [Stmt.kinds, hk] at hspell
      obtain ⟨p, after, rfl, _⟩ := spells_cons.1 hspell
      exact statementBody_expression hb (isControl_of_opens hopens) hwf.2
        (declaration?_expression e hwf.2 hwf.1 h) h hstop
    | ifElse _ e body other =>
      rw [Stmt.kinds_eq_if rfl rfl] at hspell
      obtain ⟨p, after, rfl, hmore⟩ := spells_cons.1 hspell
      exact ifRest_reads hb _ rfl rfl hwf hmore (Nat.le_refl _) (by rw [Context.place_within])
    | whileLoop _ e body =>
      simp only [Stmt.wellFormed, Bool.and_eq_true] at hwf
      simp only [Stmt.kinds, spells_cons, spells_append, spells_nil] at hspell
      obtain ⟨p, _, rfl, _, hcondition, b, _, rfl, _, hss, d, _, rfl, rfl⟩ := hspell
      exact loop_reads hb (f := .whileLoop) (fun _ _ _ => rfl) hwf.1 hwf.2 hcondition hss
    | forLoop _ item e body =>
      simp only [Stmt.wellFormed, Bool.and_eq_true] at hwf
      simp only [Stmt.kinds, spells_cons, spells_append, spells_nil] at hspell
      obtain ⟨p, _, rfl, t, _, rfl, i, _, rfl, _, hiterable, b, _, rfl, _, hss, d, _, rfl, rfl⟩ :=
        hspell
      simp only [statementBody, forRest, readName, ok_bind, consume_keyword]
      exact loop_reads hb (f := (.forLoop · item)) (fun _ _ _ => rfl) hwf.1 hwf.2 hiterable hss
    | returnValue _ value =>
      cases value with
      | none =>
        simp only [Stmt.kinds, spells_cons, spells_nil] at hspell
        obtain ⟨p, _, rfl, rfl⟩ := hspell
        have hfunction : ((c.within .statement).within .returnValue).inFunction = true := hwf
        simp only [statementBody, returnStatement, hfunction]
        exact .ok (Nat.zero_le n) ⟨_, rfl, rfl⟩
      | some e =>
        simp only [Stmt.wellFormed, Bool.and_eq_true] at hwf
        obtain ⟨p, after, rfl, hvalue⟩ := spells_cons.1 hspell
        exact returnStatement_reads hb hwf.1 hwf.2 hvalue hstop
    | breakLoop =>
      simp only [Stmt.kinds, spells_cons, spells_nil] at hspell
      obtain ⟨p, _, rfl, rfl⟩ := hspell
      have hloop : (c.within .statement).inLoop = true := hwf
      simp only [statementBody, hloop, if_true]
      exact .ok (Nat.zero_le n) ⟨_, rfl, rfl⟩
    | continueLoop =>
      simp only [Stmt.kinds, spells_cons, spells_nil] at hspell
      obtain ⟨p, _, rfl, rfl⟩ := hspell
      have hloop : (c.within .statement).inLoop = true := hwf
      simp only [statementBody, hloop, if_true]
      exact .ok (Nat.zero_le n) ⟨_, rfl, rfl⟩

end

/-! ## Programs -/

omit hb

theorem tooDeep_tooDeep {α : Type} : TooDeep (tooDeep (α := α) c ts) := by
  cases ts <;> exact ⟨_, rfl, rfl⟩

/-- With `n` levels left, what opens `n` or fewer is read back and nothing else is. -/
theorem withLevels_complete (named : String → Bool) (n : Nat) :
    Complete named (withLevels n) n := by
  induction n with
  | zero =>
    refine ⟨fun _ _ _ _ => .tooDeep (Nat.not_succ_le_zero _) tooDeep_tooDeep,
      fun _ _ _ => .tooDeep (Nat.not_succ_le_zero _) tooDeep_tooDeep, fun hrank _ _ _ => ?_⟩
    rw [Expr.operandEntry, if_neg (Nat.not_lt.2 hrank)]
    exact .tooDeep (Nat.not_succ_le_zero _) tooDeep_tooDeep
  | succ n ih =>
    refine ⟨fun hblock hexport hwf h => ?_, fun hwf h hstop => ?_, fun hrank hwf h hstop => ?_⟩
    · exact (statementBody_reads ih hexport hwf h hblock).congr Nat.succ_le_succ_iff.symm
    · exact (assignmentBody_reads ih hwf h hstop).congr Nat.succ_le_succ_iff.symm
    · refine (unaryBody_reads ih hrank hwf h hstop).congr ?_
      rw [Expr.operandEntry, if_neg (Nat.not_lt.2 hrank)]
      exact Nat.succ_le_succ_iff.symm

include hb

theorem programStatements_reads {turns : List Token} {p : Program}
    (hwf : statementsWellFormed c.place p = true) (hturns : ts.length ≤ turns.length)
    (h : Spells ts (statementKinds named p) (⟨.eof, q⟩ :: rest)) :
    Gives (statementLevels p ≤ n) (fun p' => unplacedStatements p' = unplacedStatements p)
      (programStatements below c turns ts) := by
  induction p generalizing ts turns with
  | nil =>
    cases spells_nil.1 h
    unfold programStatements
    rw [if_pos (by simp [startsWith, isKind])]
    exact .ok (Nat.zero_le n) rfl
  | cons s ss ih =>
    obtain ⟨hblock, hexport, hs, hss⟩ := statementsWellFormed_cons.1 hwf
    obtain ⟨p, more, hfront, hmore⟩ := spells_statements.1 h
    obtain ⟨_, hend, _⟩ := statement_begins hs hfront
    obtain ⟨turn, turns, rfl, hleft⟩ := exists_turn (Nat.le_trans hfront.length_le hturns)
    unfold programStatements
    rw [if_neg (by simp [hend])]
    refine ((hb.statement hblock hexport hs hfront).bind fun r hr => ?_).congr Nat.max_le.symm
    obtain ⟨s', rfl, hview⟩ := hr
    simp only [terminator_semicolon, skipSemicolons_statements hss rfl hmore]
    refine (ih hss hleft hmore).andThen fun ss' hviews => ?_
    exact ⟨s' :: ss', rfl, List.cons_eq_cons.2 ⟨hview, hviews⟩⟩

omit hb

/-- The tokens of a well-formed program are read as that program, wherever they stand, if it opens
    at most 512 levels. If it opens more, the error is the nesting. -/
theorem program_reads_back (named : String → Bool) {p : Program} {ts : List Token}
    (hp : statementsWellFormed .file p = true)
    (hts : ts.map Token.kind = statementKinds named p ++ [.eof]) :
    (statementLevels p ≤ 512 →
      ∃ p', program ts = .ok p' ∧ unplacedStatements p' = unplacedStatements p) ∧
    (512 < statementLevels p → ∃ e, program ts = .error e ∧ e.cause = .nestedTooDeeply) := by
  have hspell : Spells ts (statementKinds named p ++ [.eof]) [] := ⟨ts, hts, by simp⟩
  simp only [spells_append, spells_cons, spells_nil] at hspell
  obtain ⟨_, hspell, q, _, rfl, rfl⟩ := hspell
  have hread := programStatements_reads (withLevels_complete named maxNesting)
    (c := ⟨[.program], []⟩) hp (Nat.le_refl _) hspell
  unfold program
  rw [skipSemicolons_statements hp rfl hspell]
  exact ⟨hread.1, fun h => hread.2 (Nat.not_le.2 h)⟩

def parenthesized : Nat → Expr
  | 0 => .name default "x"
  | k + 1 => .group default (parenthesized k)

theorem rank_parenthesized (k : Nat) : (parenthesized k).rank = 9 := by
  cases k <;> rfl

theorem wellFormed_parenthesized (k : Nat) :
    statementsWellFormed .file [.expr default (parenthesized k)] = true := by
  have hwf : ∀ k, (parenthesized k).wellFormed = true := by
    intro k
    induction k with
    | zero => rfl
    | succ k ih => exact ih
  have hhead : (parenthesized k).head.ownName?.join = none := by cases k <;> rfl
  simp [statementsWellFormed, Stmt.isBlock, Stmt.isExported, Stmt.wellFormed, hhead, hwf]

/-- A pair of parentheses opens two levels, the expression in them and its operand. -/
theorem levels_parenthesized (k : Nat) : (parenthesized k).levels = 2 * k := by
  induction k with
  | zero => rfl
  | succ k ih =>
    rw [parenthesized, Expr.levels, ih, Expr.entry, Expr.operandEntry, rank_parenthesized]
    rfl

theorem statementLevels_parenthesized (k : Nat) :
    statementLevels [.expr default (parenthesized k)] = 2 * k + 3 := by
  simp [statementLevels, Stmt.levels, levels_parenthesized, Expr.entry, Expr.operandEntry,
    rank_parenthesized]

def writtenTokens (p : Program) : List Token :=
  (statementKinds (fun _ => true) p ++ [Token.Kind.eof]).map (⟨·, default⟩)

theorem map_kind_writtenTokens (p : Program) :
    (writtenTokens p).map Token.kind = statementKinds (fun _ => true) p ++ [.eof] := by
  simp [writtenTokens, Function.comp_def]

/-- 254 pairs of parentheses are read back, and 255 are too many. -/
theorem parentheses_are_read_back_to_the_limit :
    (∃ p, program (writtenTokens [.expr default (parenthesized 254)]) = .ok p ∧
      unplacedStatements p = unplacedStatements [.expr default (parenthesized 254)]) ∧
    ∃ e, program (writtenTokens [.expr default (parenthesized 255)]) = .error e ∧
      e.cause = .nestedTooDeeply := by
  constructor
  · refine (program_reads_back _ (wellFormed_parenthesized 254) (map_kind_writtenTokens _)).1 ?_
    rw [statementLevels_parenthesized]
    decide
  · refine (program_reads_back _ (wellFormed_parenthesized 255) (map_kind_writtenTokens _)).2 ?_
    rw [statementLevels_parenthesized]
    decide

end TinyScript.Grammar

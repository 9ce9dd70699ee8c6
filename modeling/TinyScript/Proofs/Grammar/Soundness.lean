/-
  TinyScript.Proofs.Grammar.Soundness — what is read is what is written.

  Statements are sound as expressions are, with any number of levels left, and with them the whole
  program: no token before the end of the file is left out, and none is read twice.
-/

import TinyScript.Proofs.Grammar.Deriving

namespace TinyScript.Grammar

open TinyScript.Text TinyScript.Derivation

variable {ts mid rest after : List Token} {c : Context} {below : Below} (hb : Sound below)
  {pos : Position} {s : Stmt} {exported : Bool} {q : Qualifier}

include hb

/-! ## Statements -/

omit hb in
theorem qualifier?_eq_some {kind : Token.Kind} (h : qualifier? kind = some q) :
    kind = .keyword q.word := by
  unfold qualifier? at h
  split at h <;> cases h <;> rfl

theorem destructuring_sound {pos p b : Position}
    (h : destructuring below q exported pos c ts = .ok (s, rest)) :
    Reads (Declaration true exported pos) (⟨.keyword q.word, p⟩ :: ⟨.mark .leftBracket, b⟩ :: ts)
      rest s := by
  simp only [destructuring, bind_eq_ok, Prod.exists] at h
  obtain ⟨targets, left, htargets, left', hset, e, left'', he, h⟩ := h
  obtain ⟨a, rfl⟩ := consume_eq_ok hset
  cases h
  have hitems := list_sound param_sound htargets
  have hread := expression_sound hb he
  refine ⟨.cons nofun (.cons nofun (hitems.1.trans (.cons nofun hread.1))), ?_⟩
  exact .destructure hitems.2 (fun _ => rfl) hread.2

theorem declaredName_sound {pos p : Position}
    (h : declaredName below q exported pos c ts = .ok (s, rest)) :
    Reads (Declaration true exported pos) (⟨.keyword q.word, p⟩ :: ts) rest s := by
  simp only [declaredName, bind_eq_ok, Prod.exists] at h
  obtain ⟨name, left, hname, typing, left', htyping, h⟩ := h
  obtain ⟨n, rfl⟩ := readName_eq_ok hname
  have htype := typing?_sound htyping
  split at h
  next hs =>
    simp only [bind_eq_ok, Prod.exists] at h
    obtain ⟨e, left'', he, h⟩ := h
    obtain ⟨a, ha⟩ := startsWith_eq_true hs
    cases h
    have hread := expression_sound hb he
    rw [ha] at htype
    refine ⟨.cons nofun (.cons nofun (htype.1.trans_takes (.cons nofun hread.1))), ?_⟩
    exact .value htype.2 hread.2
  next =>
    split at h
    next => cases h
    next hq =>
      cases h
      exact ⟨.cons nofun (Takes.trans_may (.one nofun) htype.1), .empty hq htype.2⟩

theorem declaration?_sound (h : declaration? below exported pos c ts = .ok (some (s, rest))) :
    Reads (Declaration true exported pos) ts rest s := by
  unfold declaration? at h
  split at h
  next => cases h
  next kind p more =>
    split at h
    next q hq =>
      cases qualifier?_eq_some hq
      split at h
      next hs =>
        obtain ⟨found, hfound, h⟩ := map_eq_ok.1 h
        obtain ⟨b, hb'⟩ := startsWith_eq_true hs
        cases h
        rw [hb']
        exact destructuring_sound hb hfound
      next =>
        obtain ⟨found, hfound, h⟩ := map_eq_ok.1 h
        cases h
        exact declaredName_sound hb hfound
    next =>
      split at h
      next => cases h
      next =>
        split at h
        next =>
          simp only [bind_eq_ok, Prod.exists] at h
          obtain ⟨name, left, hname, d, left', hd, h⟩ := h
          obtain ⟨n, rfl⟩ := readName_eq_ok hname
          cases h
          have hread := functionRest_sound hb hd
          exact ⟨.cons nofun (.cons nofun hread.1), .function hread.2⟩
        next =>
          simp only [bind_eq_ok, Prod.exists] at h
          obtain ⟨name, left, hname, d, left', hd, h⟩ := h
          obtain ⟨n, rfl⟩ := readName_eq_ok hname
          cases h
          obtain ⟨q, body, rfl, htakes, properties, methods, rfl, hmembers⟩ := classRest_sound hb hd
          exact ⟨.cons nofun (.cons nofun (.cons nofun htakes)), .classDef hmembers⟩
        next word =>
          split at h
          next hs =>
            simp only [bind_eq_ok, Prod.exists] at h
            obtain ⟨name, left, hname, d, left', hd, h⟩ := h
            obtain ⟨n, rfl⟩ := readName_eq_ok hname
            cases h
            obtain ⟨rfl, _⟩ := startsNamespace_iff.1 hs
            obtain ⟨htakes, body, rfl, hbody⟩ := namespaceRest_sound hb hd
            exact ⟨.cons nofun (.cons nofun htakes), .namespaceDef hbody⟩
          next => cases h
        next => cases h

omit hb in
/-- What is not read as a declaration does not start one. -/
theorem not_startsDeclaration (h : declaration? below exported pos c ts = .ok none) :
    ¬ StartsDeclaration ts := by
  intro hs
  cases hs with
  | @qualifier q p more =>
    have hq : qualifier? (.keyword q.word) = some q := by cases q <;> rfl
    simp only [declaration?, hq] at h
    split at h <;> obtain ⟨_, _, h⟩ := map_eq_ok.1 h <;> cases h
  | function =>
    simp only [declaration?, qualifier?, startsWithName] at h
    obtain ⟨_, _, h⟩ := bind_eq_ok.1 h
    obtain ⟨_, _, h⟩ := bind_eq_ok.1 h
    cases h
  | classDef =>
    simp only [declaration?, qualifier?, startsWithName] at h
    obtain ⟨_, _, h⟩ := bind_eq_ok.1 h
    obtain ⟨_, _, h⟩ := bind_eq_ok.1 h
    cases h
  | namespaceDef =>
    have hstart : ∀ {s p q r more}, startsNamespace
        (⟨.name "namespace", p⟩ :: ⟨.name s, q⟩ :: ⟨.mark .leftBrace, r⟩ :: more) = true :=
      startsNamespace_iff.2 ⟨rfl, .name⟩
    simp only [declaration?, qualifier?, startsWithName, hstart] at h
    obtain ⟨_, _, h⟩ := bind_eq_ok.1 h
    obtain ⟨_, _, h⟩ := bind_eq_ok.1 h
    cases h

theorem elseRest_sound {place : Place} {again : Option (Position → Parse Stmt)} {p : Position}
    (pos : Position) {e : Expr} {body : List Stmt} (hplace : c.place = place.branch)
    (hagain : ∀ read ∈ again, ∀ {q : Position} {ts rest : List Token} {s : Stmt},
      read q c ts = .ok (s, rest) → Reads (IfRest true place q) ts rest s)
    (he : Expression true ts mid e)
    (hbody : Block true place.branch mid (⟨.keyword .elseWord, p⟩ :: after) body)
    (h : elseRest below again c after = .ok (s, rest)) :
    Takes after rest ∧ IfRest true place pos ts rest (.ifElse pos e body (some s)) := by
  unfold elseRest at h
  split at h
  next => cases h
  next t more =>
    split at h
    next read hif =>
      obtain ⟨kind, q⟩ := t
      cases isKind_eq hif
      have hread := hagain read rfl h
      exact ⟨.cons nofun hread.1, .ifElse he hbody hread.2⟩
    next =>
      simp only [bind_eq_ok, Prod.exists] at h
      obtain ⟨ss, left, hss, h⟩ := h
      cases h
      have hread := block_sound hb hss
      rw [hplace] at hread
      exact ⟨hread.1, .block he hbody hread.2⟩

theorem ifBranch_sound {place : Place} {again : Option (Position → Parse Stmt)}
    (hplace : c.place.branch = place.branch)
    (hagain : ∀ read ∈ again, ∀ {c : Context} {q : Position} {ts rest : List Token} {s : Stmt},
      c.place.branch = place.branch → read q c ts = .ok (s, rest) →
      Reads (IfRest true place q) ts rest s) (h : ifBranch below again pos c ts = .ok (s, rest)) :
    Reads (IfRest true place pos) ts rest s := by
  simp only [ifBranch, bind_eq_ok, Prod.exists] at h
  obtain ⟨e, left, he, body, left', hbody, h⟩ := h
  have hreadE := expression_sound hb he
  have hreadBody := block_sound hb hbody
  have hinner : ((c.within .ifElse).enter .block).place = place.branch := by
    rw [Context.place_block, Context.place_within, hplace]
  rw [hinner] at hreadBody
  split at h
  next helse =>
    obtain ⟨p, hp⟩ := startsWith_eq_true helse
    simp only [bind_eq_ok, Prod.exists] at h
    obtain ⟨other, left'', hother, h⟩ := h
    cases h
    rw [hp] at hreadBody
    have hread := elseRest_sound hb pos hinner
      (fun read hread {_ _ _ _} h => hagain read hread (by rw [hinner]; rfl) h)
      hreadE.2 hreadBody.2 hother
    exact ⟨hreadE.1.trans (hreadBody.1.trans (.cons nofun hread.1)), hread.2⟩
  next =>
    cases h
    exact ⟨hreadE.1.trans hreadBody.1, .plain hreadE.2 hreadBody.2⟩

theorem ifRest_sound (place : Place) (turns : List Token) {c : Context} {ts rest : List Token}
    (hplace : c.place.branch = place.branch) (h : ifRest below turns pos c ts = .ok (s, rest)) :
    Reads (IfRest true place pos) ts rest s := by
  induction turns generalizing c pos ts rest s with
  | nil => exact ifBranch_sound hb hplace (fun _ hread => absurd hread (Option.not_mem_none _)) h
  | cons _ turns ih =>
    refine ifBranch_sound hb hplace (fun read hread => ?_) h
    cases Option.mem_some_iff.1 hread
    exact ih

theorem whileRest_sound (h : whileRest below pos c ts = .ok (s, rest)) :
    Reads (Statement true c.place) (⟨.keyword .whileWord, pos⟩ :: ts) rest s := by
  simp only [whileRest, bind_eq_ok, Prod.exists] at h
  obtain ⟨e, left, he, body, left', hbody, h⟩ := h
  cases h
  have hreadE := expression_sound hb he
  have hreadBody := block_sound hb hbody
  rw [Context.place_loop, Context.place_within] at hreadBody
  exact ⟨.cons nofun (hreadE.1.trans hreadBody.1), .whileLoop hreadE.2 hreadBody.2⟩

theorem forRest_sound (h : forRest below pos c ts = .ok (s, rest)) :
    Reads (Statement true c.place) (⟨.keyword .forWord, pos⟩ :: ts) rest s := by
  simp only [forRest, bind_eq_ok, Prod.exists] at h
  obtain ⟨item, left, hitem, left', hin, e, left'', he, body, left''', hbody, h⟩ := h
  cases h
  obtain ⟨p, rfl⟩ := readName_eq_ok hitem
  obtain ⟨q, rfl⟩ := consume_eq_ok hin
  have hreadE := expression_sound hb he
  have hreadBody := block_sound hb hbody
  rw [Context.place_loop, Context.place_within] at hreadBody
  exact ⟨.cons nofun (.cons nofun (.cons nofun (hreadE.1.trans hreadBody.1))),
    .forLoop hreadE.2 hreadBody.2⟩

theorem returnStatement_sound
    (h : returnStatement below pos c (⟨.keyword .returnWord, pos⟩ :: ts) = .ok (s, rest)) :
    Reads (Statement true c.place) (⟨.keyword .returnWord, pos⟩ :: ts) rest s := by
  simp only [returnStatement] at h
  split at h
  next => cases h
  next hreturn =>
    have hplace : (c.within .returnValue).inFunction = true := by simpa using hreturn
    split at h
    next =>
      cases h
      exact ⟨.one nofun, .returnNothing hplace⟩
    next =>
      simp only [bind_eq_ok, Prod.exists] at h
      obtain ⟨e, left, he, h⟩ := h
      cases h
      have hread := expression_sound hb he
      exact ⟨.cons nofun hread.1, .returnValue hplace hread.2⟩

theorem statementBody_sound (h : statementBody below c ts = .ok (s, rest)) :
    Reads (Statement true c.place) ts rest s := by
  simp only [statementBody] at h
  split at h
  next => cases h
  next kind pos more =>
    split at h
    next =>
      split at h
      next => cases h
      next hexport =>
        have hplace : (c.within .statement).atTopLevel = true := by simpa using hexport
        simp only [bind_eq_ok] at h
        obtain ⟨found, hfound, h⟩ := h
        split at h
        next =>
          cases h
          have hread := declaration?_sound hb hfound
          exact ⟨.cons nofun hread.1, .exported hplace hread.2⟩
        next => cases h
    next =>
      have hread := ifRest_sound hb c.place more (by rw [Context.place_within]) h
      exact ⟨.cons nofun hread.1, .ifElse hread.2⟩
    next =>
      have hread := whileRest_sound hb h
      exact hread
    next =>
      have hread := forRest_sound hb h
      exact hread
    next =>
      have hread := returnStatement_sound hb h
      exact hread
    next =>
      split at h
      next hloop =>
        cases h
        exact ⟨.one nofun, .breakLoop hloop⟩
      next => cases h
    next =>
      split at h
      next hloop =>
        cases h
        exact ⟨.one nofun, .continueLoop hloop⟩
      next => cases h
    next =>
      simp only [bind_eq_ok] at h
      obtain ⟨found, hfound, h⟩ := h
      split at h
      next =>
        cases h
        have hread := declaration?_sound hb hfound
        exact ⟨hread.1, .declaration hread.2⟩
      next =>
        simp only [bind_eq_ok, Prod.exists] at h
        obtain ⟨e, left, he, h⟩ := h
        cases h
        have hread := expression_sound hb he
        exact ⟨hread.1, .expr (not_startsDeclaration hfound) hread.2⟩

omit hb in
/-- The rules that count are sound, whatever number of levels is left. -/
theorem withLevels_sound (n : Nat) : Sound (withLevels n) := by
  induction n with
  | zero => exact ⟨nofun, nofun, nofun⟩
  | succ n ih => exact ⟨statementBody_sound ih, assignmentBody_sound ih, unaryBody_sound ih⟩

/-! ## Programs -/

/-- There are turns enough, since each statement takes a token. -/
theorem programStatements_sound {turns : List Token} {p : Program}
    (hturns : ts.length ≤ turns.length) (h : programStatements below c turns ts = .ok p) :
    ∃ rest, MayTake ts rest ∧ (rest = [] ∨ startsWith .eof rest = true) ∧
      Statements true c.place ts rest p := by
  fun_induction programStatements below c turns ts generalizing p with
  | case1 turns ts hend =>
    cases h
    refine ⟨ts, .inl rfl, ?_, .nil⟩
    simp only [Bool.or_eq_true, List.isEmpty_iff] at hend
    exact hend.symm
  | case2 ts hend =>
    have hts : ts = [] := List.eq_nil_of_length_eq_zero (Nat.le_zero.1 hturns)
    simp [hts] at hend
  | case3 ts hend turn turns ih =>
    simp only [bind_eq_ok, Prod.exists] at h
    obtain ⟨s, left, hs, left', hleft, ss, hss, h⟩ := h
    cases h
    have hread := hb.statement hs
    obtain ⟨hended, hskip⟩ := terminator_eq_ok hleft hread.1
    have htakes := hread.1.trans_may (mayTake_of_terminator hskip)
    have hshort := htakes.length_lt
    obtain ⟨rest, hmay, hrest, hstatements⟩ := ih left' (by simp at hturns; omega) hss
    exact ⟨rest, .inr (htakes.trans_may hmay), hrest,
      .cons hread.2 hended (statements_of_terminator hskip hstatements)⟩

omit hb

/-- No token is dropped and none is made up: what is read is written by the tokens there are. -/
theorem program_derives {p : Program} (h : program ts = .ok p) : Derives true ts p := by
  obtain ⟨rest, hmay, hrest, hstatements⟩ :=
    programStatements_sound (withLevels_sound maxNesting) (Nat.le_refl _) h
  have hend : rest = [] ∨ ∃ q after, rest = ⟨.eof, q⟩ :: after :=
    hrest.imp_right fun heof =>
      have ⟨q, hq⟩ := startsWith_eq_true heof
      ⟨q, rest.tail, hq⟩
  have hall : Statements true .file ts rest p := statements_skipSemicolons hstatements
  rcases (mayTake_skipSemicolons ts).trans hmay with rfl | htakes
  · exact ⟨[], ts, rfl, by simp, hend, hall⟩
  · obtain ⟨used, rfl, _, hused⟩ := htakes.exists_append
    exact ⟨used, rest, rfl, hused, hend, hall⟩

/-- The tokens of `; let f = func(a) -a ** a;; f(f,)`, and one after the end of the file. -/
theorem program_derives_before_the_end :
    ∃ ts p, ts.map Token.kind = [.mark .semicolon, .keyword .letWord, .name "f", .assign .set,
        .keyword .funcWord, .mark .leftParen, .name "a", .mark .rightParen, .mark .minus, .name "a",
        .mark .starStar, .name "a", .mark .semicolon, .mark .semicolon, .name "f", .mark .leftParen,
        .name "f", .mark .comma, .mark .rightParen, .eof, .mark .dot] ∧
      program ts = .ok p ∧ p.length = 2 ∧ Derives true ts p :=
  ⟨[.mark .semicolon, .keyword .letWord, .name "f", .assign .set,
      .keyword .funcWord, .mark .leftParen, .name "a", .mark .rightParen, .mark .minus, .name "a",
      .mark .starStar, .name "a", .mark .semicolon, .mark .semicolon, .name "f", .mark .leftParen,
      .name "f", .mark .comma, .mark .rightParen, .eof, .mark .dot].map (⟨·, default⟩),
    [.declare default .letDecl "f" none (some (.function default ⟨some "f", [⟨"a", none, default⟩],
      none, [.returnValue default (some (.unary default .negate
        (.binary default .power (.name default "a") (.name default "a"))))], default⟩)) false,
    .expr default (.call default (.name default "f") [.name default "f"])],
    rfl, rfl, rfl, program_derives rfl⟩

theorem eq_true_of_no_targets {w exported exported' : Bool} {pos p : Position} {e : Expr}
    (h : Declaration w exported pos ts rest (.destructure p q [] e exported')) :
    w = true := by
  cases h with
  | destructure _ htargets => exact htargets rfl

/-- `let [] = a;` is read, and the grammar asks for a target. -/
theorem destructuring_without_targets_is_read :
    ∃ ts p, ts.map Token.kind = [.keyword .letWord, .mark .leftBracket, .mark .rightBracket,
        .assign .set, .name "a", .mark .semicolon, .eof] ∧
      program ts = .ok p ∧ ¬ Derives false ts p := by
  refine ⟨[.keyword .letWord, .mark .leftBracket, .mark .rightBracket, .assign .set, .name "a",
      .mark .semicolon, .eof].map (⟨·, default⟩),
    [.destructure default .letDecl [] (.name default "a") false], rfl, rfl, ?_⟩
  rintro ⟨used, rest, _, _, _, hstatements⟩
  cases hstatements with
  | cons hstatement =>
    cases hstatement with
    | declaration hdeclaration => exact Bool.false_ne_true (eq_true_of_no_targets hdeclaration)

end TinyScript.Grammar

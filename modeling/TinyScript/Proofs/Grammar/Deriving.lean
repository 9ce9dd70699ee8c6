/-
  TinyScript.Proofs.Grammar.Deriving — the expressions that are read are written.

  Rules that count a level of nesting are sound if those with fewer levels left are (`Sound`).
-/

import TinyScript.Proofs.Grammar.Taking

namespace TinyScript.Grammar

open TinyScript.Text TinyScript.Derivation

variable {α : Type} {ts mid rest after : List Token} {c : Context} {w : Bool} {name : Option String}
  {ss : List Stmt} {pos : Position}

/-! ## Blocks, functions and classes -/

structure Sound (below : Below) : Prop where
  statement : ∀ {c : Context} {ts rest : List Token} {s : Stmt},
    below.statement c ts = .ok (s, rest) → Reads (Statement true c.place) ts rest s
  assignment : IsSound (Expression true) below.assignment
  unary : IsSound (Unary true) below.unary

variable {below : Below} (hb : Sound below)

/-- A statement has an end, and then come semicolons if any. -/
theorem terminator_eq_ok {before : List Token} (h : terminator c before after = .ok rest)
    (ht : Takes before after) :
    Ended before after ∧ (rest = after ∨ rest = skipSemicolons after) := by
  unfold terminator at h
  split at h
  next hs =>
    obtain ⟨p, hp⟩ := startsWith_eq_true hs
    cases h
    refine ⟨?_, .inr rfl⟩
    rw [hp]
    exact .semicolon
  next =>
    split at h
    next hs =>
      cases h
      refine ⟨?_, .inl rfl⟩
      simp only [Bool.or_eq_true] at hs
      rcases hs with (hs | hs) | hs
      · obtain ⟨p, hp⟩ := startsWith_eq_true hs
        rw [hp]
        exact .brace
      · obtain ⟨p, hp⟩ := startsWith_eq_true hs
        rw [hp]
        exact .eof
      · obtain ⟨⟨kind, p⟩, hlast, hk⟩ := (Option.any_eq_true _ _).1 hs
        cases isKind_eq hk
        obtain ⟨used, rfl, _, _⟩ := ht.exists_append
        have hused : used.getLast? = some ⟨.mark .rightBrace, p⟩ := by
          simpa [lastTaken?] using hlast
        obtain ⟨taken, rfl⟩ := List.getLast?_eq_some_iff.1 hused
        rw [List.append_assoc]
        exact .last
    next => cases h

/-- What comes after the semicolons comes after the statement. -/
theorem statements_of_terminator {place : Place} (hafter : after = mid ∨ after = skipSemicolons mid)
    (h : Statements w place after rest ss) : Statements w place mid rest ss := by
  rcases hafter with rfl | rfl
  · exact h
  · exact statements_skipSemicolons h

theorem mayTake_of_terminator (hafter : after = mid ∨ after = skipSemicolons mid) :
    MayTake mid after := by
  rcases hafter with rfl | rfl
  · exact .inl rfl
  · exact mayTake_skipSemicolons mid

include hb

theorem expression_sound : IsSound (Expression true) (expression below) :=
  fun h => hb.assignment h

theorem blockStatements_sound {turns : List Token}
    (h : blockStatements below c turns ts = .ok (ss, rest)) :
    Takes ts rest ∧ ∃ p, Statements true c.place ts (⟨.mark .rightBrace, p⟩ :: rest) ss := by
  fun_induction blockStatements below c turns ts generalizing ss with
  | case1 turns ts hs =>
    obtain ⟨p, hp⟩ := startsWith_eq_true hs
    cases h
    rw [hp]
    exact ⟨.one nofun, p, .nil⟩
  | case2 => cases h
  | case3 => cases h
  | case4 ts _ _ turn turns ih =>
    simp only [bind_eq_ok, Prod.exists] at h
    obtain ⟨s, left, hs, left', hleft, more, left'', hmore, h⟩ := h
    cases h
    have hread := hb.statement hs
    obtain ⟨hended, hskip⟩ := terminator_eq_ok hleft hread.1
    obtain ⟨htakes, p, hss⟩ := ih left' hmore
    refine ⟨hread.1.trans ((mayTake_of_terminator hskip).trans_takes htakes), p, ?_⟩
    exact .cons hread.2 hended (statements_of_terminator hskip hss)

theorem block_sound (h : block below c ts = .ok (ss, rest)) :
    Reads (Block true c.place) ts rest ss := by
  simp only [block, bind_eq_ok] at h
  obtain ⟨left, hleft, h⟩ := h
  obtain ⟨p, rfl⟩ := consume_eq_ok hleft
  obtain ⟨htakes, q, hss⟩ := blockStatements_sound hb h
  refine ⟨.cons nofun ((mayTake_skipSemicolons left).trans_takes htakes), ?_⟩
  exact .mk (statements_skipSemicolons hss)

theorem functionRest_sound :
    IsSound (FunctionRest true name pos) (functionRest below name pos) := by
  intro c ts rest d h
  simp only [functionRest, bind_eq_ok, Prod.exists] at h
  obtain ⟨left, hleft, params, after, hparams, returns, body, hreturns, h⟩ := h
  obtain ⟨p, rfl⟩ := consume_eq_ok hleft
  have hps := list_sound param_sound hparams
  have hrs := typing?_sound hreturns
  have htakes : Takes (⟨.mark .leftParen, p⟩ :: left) body := .cons nofun (hps.1.trans_may hrs.1)
  split at h
  next hs =>
    simp only [bind_eq_ok, Prod.exists] at h
    obtain ⟨ss, left', hss, h⟩ := h
    cases h
    have hread := block_sound hb hss
    rw [Context.place_function] at hread
    exact ⟨htakes.trans hread.1, .block hps.2 hrs.2 hread.2⟩
  next hs =>
    simp only [bind_eq_ok, Prod.exists] at h
    obtain ⟨e, left', he, h⟩ := h
    cases h
    have hread := expression_sound hb he
    refine ⟨htakes.trans hread.1, .value hps.2 hrs.2 ?_ hread.2⟩
    rintro q more rfl
    exact hs rfl

omit hb in
theorem members_of_skipSemicolons {properties : List Param} {methods : List FunctionDecl}
    (htakes : Takes (skipSemicolons ts) rest)
    (h : Members w (skipSemicolons ts) rest properties methods) :
    Takes ts rest ∧ Members w ts rest properties methods :=
  ⟨(mayTake_skipSemicolons ts).trans_takes htakes, members_skipSemicolons h⟩

theorem classMembers_sound {turns : List Token} {properties : List Param}
    {methods : List FunctionDecl}
    (h : classMembers below c turns ts = .ok (properties, methods, rest)) :
    Takes ts rest ∧ Members true ts rest properties methods := by
  fun_induction classMembers below c turns ts generalizing properties methods with
  | case1 =>
    rename_i ts _ hs
    obtain ⟨p, hp⟩ : ∃ p, skipSemicolons ts = ⟨.mark .rightBrace, p⟩ :: (skipSemicolons ts).tail :=
      startsWith_eq_true hs
    cases h
    apply members_of_skipSemicolons
    · show Takes (skipSemicolons ts) (skipSemicolons ts).tail
      rw [hp]
      exact .one nofun
    · show Members true (skipSemicolons ts) (skipSemicolons ts).tail [] []
      rw [hp]
      exact .nil
  | case2 =>
    rename_i turns ts _ _ _ _ ih
    simp only [bind_eq_ok, Prod.exists] at h
    obtain ⟨name, left, hname, d, left', hd, h⟩ := h
    obtain ⟨p, hp⟩ : ∃ p, skipSemicolons ts = ⟨.name name, p⟩ :: left := readName_eq_ok hname
    have hread : Reads (FunctionRest true (some name)
        (((skipSemicolons ts).head?.map (·.pos)).getD (.start ""))) left left' d :=
      functionRest_sound hb hd
    rw [hp] at hread
    cases turns with
    | nil => cases h
    | cons turn turns =>
      simp only [bind_eq_ok, Prod.exists] at h
      obtain ⟨ps, ms, left'', hmore, h⟩ := h
      cases h
      obtain ⟨htakes, hmembers⟩ := ih left' hmore
      apply members_of_skipSemicolons
      · rw [hp]
        exact .cons nofun (hread.1.trans htakes)
      · rw [hp]
        exact .method hread.2 hmembers
  | case3 =>
    rename_i turns ts _ _ _ ih
    simp only [bind_eq_ok, Prod.exists] at h
    obtain ⟨x, left, hx, h⟩ := h
    have hread : Reads Parameter (skipSemicolons ts) left x := param_sound hx
    cases turns with
    | nil => cases h
    | cons turn turns =>
      simp only [bind_eq_ok, Prod.exists] at h
      obtain ⟨ps, ms, left', hmore, h⟩ := h
      cases h
      obtain ⟨htakes, hmembers⟩ := ih left hmore
      exact members_of_skipSemicolons (hread.1.trans htakes) (.property hread.2 hmembers)

theorem classRest_sound {d : ClassDecl} (h : classRest below name pos c ts = .ok (d, rest)) :
    ∃ p left,
      ts = ⟨.mark .leftBrace, p⟩ :: left ∧ Takes left rest ∧ ∃ properties methods,
        d = ⟨name, properties, methods, pos⟩ ∧ Members true left rest properties methods := by
  simp only [classRest, bind_eq_ok, Prod.exists] at h
  obtain ⟨left, hleft, properties, methods, left', hmembers, h⟩ := h
  obtain ⟨p, rfl⟩ := consume_eq_ok hleft
  cases h
  obtain ⟨htakes, hmembers⟩ := classMembers_sound hb hmembers
  exact ⟨p, left, rfl, htakes, properties, methods, rfl, hmembers⟩

theorem namespaceRest_sound {d : NamespaceDecl}
    (h : namespaceRest below name pos c ts = .ok (d, rest)) : Takes ts rest ∧
      ∃ body, d = ⟨name, body, pos⟩ ∧ Block true .space ts rest body := by
  simp only [namespaceRest, bind_eq_ok, Prod.exists] at h
  obtain ⟨body, left, hbody, h⟩ := h
  cases h
  have hread := block_sound hb hbody
  rw [Context.place_space] at hread
  exact ⟨hread.1, body, rfl, hread.2⟩

/-! ## Expressions -/

theorem field_sound : IsSound (Field true) (field below) := by
  intro c ts rest f h
  unfold field at h
  dsimp only at h
  split at h
  next key p more =>
    simp only [bind_eq_ok, Prod.exists] at h
    obtain ⟨left, hleft, e, left', he, h⟩ := h
    obtain ⟨q, rfl⟩ := consume_eq_ok hleft
    cases h
    have hread := expression_sound hb he
    exact ⟨.cons nofun (.cons nofun hread.1), .name hread.2⟩
  next key p more =>
    simp only [bind_eq_ok, Prod.exists] at h
    obtain ⟨left, hleft, e, left', he, h⟩ := h
    obtain ⟨q, rfl⟩ := consume_eq_ok hleft
    cases h
    have hread := expression_sound hb he
    exact ⟨.cons nofun (.cons nofun hread.1), .string hread.2⟩
  next => cases h

theorem primary_sound : IsSound (Primary true) (primary below) := by
  intro c ts rest e h
  unfold primary at h
  dsimp only at h
  split at h
  next => cases h
  next kind p more =>
    split at h
    next =>
      cases h
      exact ⟨.one nofun, .number⟩
    next =>
      cases h
      exact ⟨.one nofun, .string⟩
    next =>
      cases h
      exact ⟨.one nofun, .true⟩
    next =>
      cases h
      exact ⟨.one nofun, .false⟩
    next =>
      cases h
      exact ⟨.one nofun, .nil⟩
    next s =>
      split at h
      next hs =>
        simp only [bind_eq_ok, Prod.exists] at h
        obtain ⟨d, left, hd, h⟩ := h
        cases h
        obtain ⟨rfl, _⟩ := startsNamespace_iff.1 hs
        obtain ⟨htakes, body, rfl, hbody⟩ := namespaceRest_sound hb hd
        have hname := readName?_sound more
        exact ⟨.cons nofun (hname.1.trans_takes htakes), .namespaceDef hname.2 hbody⟩
      next hs =>
        cases h
        exact ⟨.one nofun, .name fun hn => hs (startsNamespace_iff.2 hn)⟩
    next =>
      simp only [bind_eq_ok, Prod.exists] at h
      obtain ⟨inner, left, he, left', hclose, h⟩ := h
      obtain ⟨q, rfl⟩ := consume_eq_ok hclose
      cases h
      have hread := expression_sound hb he
      exact ⟨.cons nofun (hread.1.trans (.one nofun)), .group hread.2⟩
    next =>
      simp only [bind_eq_ok, Prod.exists] at h
      obtain ⟨es, left, hes, h⟩ := h
      cases h
      have hread := list_sound (expression_sound hb) hes
      exact ⟨.cons nofun hread.1, .array hread.2⟩
    next =>
      simp only [bind_eq_ok, Prod.exists] at h
      obtain ⟨fs, left, hfs, h⟩ := h
      cases h
      have hread := list_sound (field_sound hb) hfs
      exact ⟨.cons nofun hread.1, .object hread.2⟩
    next =>
      simp only [bind_eq_ok, Prod.exists] at h
      obtain ⟨d, left, hd, h⟩ := h
      cases h
      have hread := functionRest_sound hb hd
      have hname := readName?_sound more
      exact ⟨.cons nofun (hname.1.trans_takes hread.1), .function hname.2 hread.2⟩
    next =>
      simp only [bind_eq_ok, Prod.exists] at h
      obtain ⟨d, left, hd, h⟩ := h
      cases h
      obtain ⟨q, left, hleft, htakes, properties, methods, rfl, hmembers⟩ := classRest_sound hb hd
      have hname := readName?_sound more
      rw [hleft] at hname
      exact ⟨.cons nofun (hname.1.trans_takes (.cons nofun htakes)), .classDef hname.2 hmembers⟩
    next =>
      simp only [bind_eq_ok, Prod.exists] at h
      obtain ⟨left, hopen, e, left', he, left'', hclose, h⟩ := h
      obtain ⟨q, rfl⟩ := consume_eq_ok hopen
      obtain ⟨r, rfl⟩ := consume_eq_ok hclose
      cases h
      have hread := expression_sound hb he
      exact ⟨.cons nofun (.cons nofun (hread.1.trans (.one nofun))), .importFrom hread.2⟩
    next => cases h

/-- Each turn extends what was read from `start` on. -/
theorem postfixes_sound {start turns : List Token} {e found : Expr}
    (h : postfixes below c turns e ts = .ok (found, rest)) (hread : Reads (Call true) start ts e) :
    Reads (Call true) start rest found := by
  fun_induction postfixes below c turns e ts with
  | case1 =>
    cases h
    exact hread
  | case2 turn turns e p ts ih =>
    simp only [bind_eq_ok, Prod.exists] at h
    obtain ⟨args, left, hargs, h⟩ := h
    have hitems := list_sound (expression_sound hb) hargs
    refine ih args left h ⟨hread.1.trans (.cons nofun hitems.1), .call hread.2 hitems.2⟩
  | case3 turn turns e p ts ih =>
    simp only [bind_eq_ok, Prod.exists] at h
    obtain ⟨name, left, hname, h⟩ := h
    obtain ⟨q, rfl⟩ := readName_eq_ok hname
    exact ih name left h ⟨hread.1.trans (.cons nofun (.one nofun)), .member hread.2⟩
  | case4 =>
    rename_i ih
    simp only [bind_eq_ok, Prod.exists] at h
    obtain ⟨key, left, hkey, left', hclose, h⟩ := h
    obtain ⟨q, rfl⟩ := consume_eq_ok hclose
    have hexpr := expression_sound hb hkey
    refine ih key left' h ⟨hread.1.trans (.cons nofun (hexpr.1.trans (.one nofun))), ?_⟩
    exact .index hread.2 hexpr.2
  | case5 =>
    cases h
    exact hread

theorem call_sound : IsSound (Call true) (call below) := by
  intro c ts rest e h
  simp only [call, bind_eq_ok, Prod.exists] at h
  obtain ⟨first, left, hfirst, h⟩ := h
  have hread := primary_sound hb hfirst
  exact postfixes_sound hb h ⟨hread.1, .primary hread.2⟩

theorem power_sound : IsSound (Unary true) (power below) := by
  intro c ts rest e h
  simp only [power, bind_eq_ok, Prod.exists] at h
  obtain ⟨base, left, hbase, h⟩ := h
  have hread := call_sound hb hbase
  split at h
  next hs =>
    simp only [bind_eq_ok, Prod.exists] at h
    obtain ⟨exponent, left', hexponent, h⟩ := h
    obtain ⟨p, hp⟩ := startsWith_eq_true hs
    cases h
    have hexp := hb.unary hexponent
    rw [hp] at hread
    exact ⟨hread.1.trans (.cons nofun hexp.1), .power hread.2 hexp.2⟩
  next =>
    cases h
    exact ⟨hread.1, .call hread.2⟩

omit hb in
theorem prefixOp?_eq_some {kind : Token.Kind} {op : UnaryOp} (h : prefixOp? kind = some op) :
    kind = .mark op.mark := by
  unfold prefixOp? at h
  split at h <;> cases h <;> rfl

theorem unaryBody_sound : IsSound (Unary true) (unaryBody below) := by
  intro c ts rest e h
  unfold unaryBody at h
  split at h
  next kind p more =>
    split at h
    next op hop =>
      simp only [bind_eq_ok, Prod.exists] at h
      obtain ⟨operand, left, hoperand, h⟩ := h
      cases prefixOp?_eq_some hop
      cases h
      have hread := hb.unary hoperand
      exact ⟨.cons nofun hread.1, .sign hread.2⟩
    next => exact power_sound hb h
  next => exact power_sound hb h

omit hb in
/-- Each operator and its operand extend what was read from `start` on. -/
theorem binaryChain_sound {k : Nat} {operators : Operators} {operand : Parse Expr}
    {start turns : List Token} {left found : Expr}
    (hops : ∀ kind op, operators kind = some op → kind = .mark op.mark ∧ op.level = k)
    (hoperand : IsSound (Operand true (k + 1)) operand)
    (h : binaryChain operators operand c turns left ts = .ok (found, rest))
    (hread : Reads (Operand true k) start ts left) : Reads (Operand true k) start rest found := by
  fun_induction binaryChain operators operand c turns left ts with
  | case1 =>
    cases h
    exact hread
  | case2 turn turns left t more op hop ih =>
    simp only [bind_eq_ok, Prod.exists] at h
    obtain ⟨right, after, hright, h⟩ := h
    obtain ⟨kind, p⟩ := t
    obtain ⟨rfl, hlevel⟩ := hops _ _ hop
    have hr := hoperand hright
    exact ih right after h ⟨hread.1.trans (.cons nofun hr.1), .binary hlevel hread.2 hr.2⟩
  | case3 =>
    cases h
    exact hread
  | case4 =>
    cases h
    exact hread

omit hb in
theorem binaryLevel_sound {k : Nat} {operators : Operators} {operand : Parse Expr}
    (hops : ∀ kind op, operators kind = some op → kind = .mark op.mark ∧ op.level = k)
    (hoperand : IsSound (Operand true (k + 1)) operand) :
    IsSound (Operand true k) (binaryLevel operators operand) := by
  intro c ts rest e h
  simp only [binaryLevel, bind_eq_ok, Prod.exists] at h
  obtain ⟨left, after, hleft, h⟩ := h
  have hread := hoperand hleft
  exact binaryChain_sound hops hoperand h ⟨hread.1, .tighter hread.2⟩

omit hb in
/-- The tables of operators are those of the grammar. -/
theorem operatorLevels_eq_some : ∀ (k : Nat) (operators : Operators),
    operatorLevels[k]? = some operators → ∀ kind op, operators kind = some op →
      kind = .mark op.mark ∧ op.level = k := by
  have h : ∀ x ∈ operatorLevels.zipIdx, ∀ kind op, x.1 kind = some op →
      kind = .mark op.mark ∧ op.level = x.2 := by
    simp only [operatorLevels, List.zipIdx_cons, List.zipIdx_nil, List.forall_mem_cons]
    refine ⟨?_, ?_, ?_, ?_, ?_, ?_, ?_, fun _ h => nomatch h⟩
    all_goals
      intro kind op hop
      cases kind with
      | mark m => cases m <;> cases hop <;> exact ⟨rfl, rfl⟩
      | _ => cases hop
  intro k operators hk
  exact h (operators, k) (List.mem_zipIdx_iff_getElem?.2 hk)

omit hb in
/-- Levels of operators from the `k`th on, over operands that are tighter than all of them. -/
theorem levels_sound {operand : Parse Expr} (levels : List Operators) (k : Nat)
    (hlevels : ∀ (j : Nat) operators, levels[j]? = some operators → ∀ kind op,
      operators kind = some op → kind = .mark op.mark ∧ op.level = k + j)
    (hoperand : IsSound (Operand true (k + levels.length)) operand) :
    IsSound (Operand true k) (levels.foldr binaryLevel operand) := by
  induction levels generalizing k with
  | nil => exact hoperand
  | cons operators levels ih =>
    apply binaryLevel_sound (hlevels 0 operators rfl)
    apply ih
    · intro j ops hj
      rw [Nat.add_assoc, Nat.add_comm 1 j]
      exact hlevels (j + 1) ops hj
    · rw [Nat.add_assoc, Nat.add_comm 1]
      exact hoperand

theorem binaryExpr_sound : IsSound (Operand true 0) (binaryExpr below) := by
  apply levels_sound
  · intro j operators hj
    rw [Nat.zero_add]
    exact operatorLevels_eq_some j operators hj
  · intro c ts rest e h
    exact ⟨(hb.unary h).1, .unary (hb.unary h).2⟩

theorem assignmentBody_sound : IsSound (Expression true) (assignmentBody below) := by
  intro c ts rest e h
  simp only [assignmentBody, bind_eq_ok, Prod.exists] at h
  obtain ⟨target, left, htarget, h⟩ := h
  have hread := binaryExpr_sound hb htarget
  split at h
  next sign p after =>
    split at h
    next hs =>
      simp only [bind_eq_ok, Prod.exists] at h
      obtain ⟨value, left', hvalue, h⟩ := h
      cases h
      have hv := hb.assignment hvalue
      exact ⟨hread.1.trans (.cons nofun hv.1), .assign hread.2 hs hv.2⟩
    next => cases h
  next =>
    cases h
    exact ⟨hread.1, .plain hread.2⟩

end TinyScript.Grammar

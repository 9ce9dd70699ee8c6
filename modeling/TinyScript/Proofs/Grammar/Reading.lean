/-
  TinyScript.Proofs.Grammar.Reading — reading back what was written.

  `Spells ts ks rest` says that the tokens of `ts` before `rest` are of the kinds `ks`, whatever
  their positions. A rule that reads a tree back does so where the levels left are enough, and
  elsewhere fails because of the nesting (`Gives`): what comes before the place that is nested too
  deeply is read without error. An expression ends where the next token does not bind to it
  (`Stops`).
-/

import TinyScript.Proofs.Grammar.Linearization
import TinyScript.Proofs.Grammar.Taking

namespace TinyScript.Grammar

open TinyScript.Text TinyScript.Derivation

variable {α β γ : Type} {ts mid rest : List Token} {c : Context} {k : Token.Kind} {p : Position}
  {name : String}

@[simp] theorem startsWithMark_mark {m n : Mark} {p : Position} :
    startsWithMark m (⟨.mark n, p⟩ :: ts) = decide (m = n) := rfl

@[simp] theorem startsWithMark_name {m : Mark} {s : String} {p : Position} :
    startsWithMark m (⟨.name s, p⟩ :: ts) = false := rfl

@[simp] theorem ok_bind {ε : Type} {a : α} {f : α → Except ε β} : (.ok a >>= f) = f a := rfl

@[simp] theorem consume_mark {m : Mark} {p : Position} :
    consume (.mark m) c (⟨.mark m, p⟩ :: ts) = .ok ts := by
  simp [consume, startsWith, isKind]

@[simp] theorem consume_keyword {w : Keyword} {p : Position} :
    consume (.keyword w) c (⟨.keyword w, p⟩ :: ts) = .ok ts := by
  simp [consume, startsWith, isKind]

@[simp] theorem consume_assign {sign : AssignSign} {p : Position} :
    consume (.assign sign) c (⟨.assign sign, p⟩ :: ts) = .ok ts := by
  simp [consume, startsWith, isKind]

/-! ## Outcomes -/

def TooDeep (x : Except SyntaxError α) : Prop :=
  ∃ e, x = .error e ∧ e.cause = .nestedTooDeeply

theorem TooDeep.bind {x : Except SyntaxError α} {f : α → Except SyntaxError β} (h : TooDeep x) :
    TooDeep (x >>= f) := by
  obtain ⟨e, rfl, he⟩ := h
  exact ⟨e, rfl, he⟩

/-- A result that satisfies `Q` where `fits` holds, and nesting that is too deep elsewhere. -/
def Gives (fits : Prop) (Q : α → Prop) (x : Except SyntaxError α) : Prop :=
  (fits → ∃ a, x = .ok a ∧ Q a) ∧ (¬ fits → TooDeep x)

namespace Gives

variable {p q : Prop} {Q : α → Prop} {R : β → Prop} {x : Except SyntaxError α}
  {f : α → Except SyntaxError β}

theorem ok {a : α} (hp : p) (h : Q a) : Gives p Q (.ok a) := ⟨fun _ => ⟨a, rfl, h⟩, (absurd hp ·)⟩

theorem tooDeep (hp : ¬ p) (h : TooDeep x) : Gives p Q x := ⟨(absurd · hp), fun _ => h⟩

theorem bind (hx : Gives p Q x) (hf : ∀ a, Q a → Gives q R (f a)) : Gives (p ∧ q) R (x >>= f) := by
  by_cases hp : p
  · obtain ⟨a, rfl, ha⟩ := hx.1 hp
    exact ⟨fun h => (hf a ha).1 h.2, fun h => (hf a ha).2 fun hq => h ⟨hp, hq⟩⟩
  · exact ⟨fun h => absurd h.1 hp, fun _ => (hx.2 hp).bind⟩

/-- What follows a result opens no more levels. -/
theorem andThen (hx : Gives p Q x) (hf : ∀ a, Q a → ∃ b, f a = .ok b ∧ R b) :
    Gives p R (x >>= f) := by
  refine ⟨fun hp => ?_, fun hp => (hx.2 hp).bind⟩
  obtain ⟨a, rfl, ha⟩ := hx.1 hp
  exact hf a ha

theorem map {g : α → β} (hx : Gives p Q x) (hg : ∀ a, Q a → R (g a)) : Gives p R (g <$> x) := by
  refine ⟨fun hp => ?_, fun hp => ?_⟩
  · obtain ⟨a, rfl, ha⟩ := hx.1 hp
    exact ⟨g a, rfl, hg a ha⟩
  · obtain ⟨e, rfl, he⟩ := hx.2 hp
    exact ⟨e, rfl, he⟩

theorem congr (h : Gives p Q x) (hpq : p ↔ q) : Gives q Q x := by rwa [← propext hpq]

theorem imp {Q' : α → Prop} (h : Gives p Q x) (hQ : ∀ a, Q a → Q' a) : Gives p Q' x :=
  ⟨fun hp => have ⟨a, hx, ha⟩ := h.1 hp; ⟨a, hx, hQ a ha⟩, h.2⟩

end Gives

def Reading (view : α → β) (a : α) (rest : List Token) (r : α × List Token) : Prop :=
  ∃ a', r = (a', rest) ∧ view a' = view a

/-! ## Spelling -/

def Spells (ts : List Token) (ks : List Token.Kind) (rest : List Token) : Prop :=
  ∃ used, used.map Token.kind = ks ∧ ts = used ++ rest

@[simp] theorem spells_nil : Spells ts [] rest ↔ ts = rest := by
  simp [Spells]

@[simp] theorem spells_cons {k : Token.Kind} {ks : List Token.Kind} :
    Spells ts (k :: ks) rest ↔ ∃ p after, ts = ⟨k, p⟩ :: after ∧ Spells after ks rest := by
  constructor
  · rintro ⟨used, hused, rfl⟩
    obtain ⟨⟨_, p⟩, after, rfl, rfl, rfl⟩ := List.map_eq_cons_iff.1 hused
    exact ⟨p, after ++ rest, rfl, after, rfl, rfl⟩
  · rintro ⟨p, after, rfl, used, rfl, rfl⟩
    exact ⟨⟨k, p⟩ :: used, rfl, rfl⟩

@[simp] theorem spells_append {ks ls : List Token.Kind} :
    Spells ts (ks ++ ls) rest ↔ ∃ mid, Spells ts ks mid ∧ Spells mid ls rest := by
  constructor
  · rintro ⟨used, hused, rfl⟩
    obtain ⟨front, back, rfl, rfl, rfl⟩ := List.map_eq_append_iff.1 hused
    exact ⟨back ++ rest, ⟨front, rfl, List.append_assoc ..⟩, back, rfl, rfl⟩
  · rintro ⟨mid, ⟨front, rfl, rfl⟩, back, rfl, rfl⟩
    exact ⟨front ++ back, List.map_append, (List.append_assoc ..).symm⟩

theorem Spells.length_le {ks : List Token.Kind} (h : Spells ts ks rest) :
    rest.length ≤ ts.length := by
  obtain ⟨used, _, rfl⟩ := h
  simp

/-- There is a turn for a token, and turns enough for those after it. -/
theorem exists_turn {t : Token} {turns : List Token} (h : (t :: ts).length ≤ turns.length) :
    ∃ turn more, turns = turn :: more ∧ ts.length ≤ more.length := by
  cases turns with
  | nil => cases h
  | cons turn more => exact ⟨turn, more, rfl, Nat.le_of_succ_le_succ h⟩

/-! ## Where expressions end -/

/-- How tightly a token binds to an expression before it, as the rank of what it builds. -/
def binding : Token.Kind → Option Nat
  | .assign _ => some 0
  | .mark .questionQuestion => some 1
  | .mark .orOr => some 2
  | .mark .andAnd => some 3
  | .mark .equalEqual | .mark .bangEqual => some 4
  | .mark .less | .mark .lessEqual | .mark .greater | .mark .greaterEqual => some 5
  | .mark .plus | .mark .minus => some 6
  | .mark .star | .mark .slash | .mark .percent => some 7
  | .mark .starStar => some 8
  | .mark .leftParen | .mark .dot | .mark .leftBracket => some 9
  | _ => none

theorem binding_mark (op : BinaryOp) : binding (.mark op.mark) = some op.rank := by
  cases op <;> rfl

/-- An expression of rank `r` or more ends here: what comes next binds less tightly. -/
def Stops (r : Nat) (ts : List Token) : Prop := ∀ t ∈ ts.head?, ∀ j ∈ binding t.kind, j < r

theorem Stops.mono {r s : Nat} (h : Stops r ts) (hrs : r ≤ s) : Stops s ts :=
  fun t ht j hj => Nat.lt_of_lt_of_le (h t ht j hj) hrs

theorem Stops.of_none {r : Nat} (h : binding k = none) :
    Stops r (⟨k, p⟩ :: ts) := by
  simp [Stops, h]

theorem Stops.of_some {r j : Nat} (h : binding k = some j) (hj : j < r) :
    Stops r (⟨k, p⟩ :: ts) := by
  simp [Stops, h, hj]

theorem not_stops {r j : Nat} (h : binding k = some j) (hr : r ≤ j) : ¬ Stops r (⟨k, p⟩ :: ts) :=
  fun hstop => Nat.not_lt.2 hr (hstop ⟨k, p⟩ rfl j h)

/-! ## Types, parameters and lists -/

theorem readTypeNames_last (hrest : startsWithMark .pipe rest = false) :
    readTypeNames c (⟨typeKind name, p⟩ :: rest) = .ok ([name], rest) := by
  have hne : ∀ q after, rest = ⟨.mark .pipe, q⟩ :: after → False := by
    rintro q after rfl
    simp [startsWithMark, startsWith, isKind] at hrest
  unfold typeKind
  split
  next hname =>
    subst hname
    rw [readTypeNames]
    exact hne
  next =>
    rw [readTypeNames]
    exact hne

theorem readTypeNames_more {p q : Position} {names : List String}
    (h : readTypeNames c ts = .ok (names, rest)) :
    readTypeNames c (⟨typeKind name, p⟩ :: ⟨.mark .pipe, q⟩ :: ts) =
      .ok (name :: names, rest) := by
  unfold typeKind
  split
  next hname =>
    subst hname
    rw [readTypeNames, h]
    rfl
  next =>
    rw [readTypeNames, h]
    rfl

theorem readTypeNames_reads {names : List String}
    (h : Spells ts (separated .pipe ((name :: names).map fun s => [typeKind s])) rest)
    (hrest : startsWithMark .pipe rest = false) :
    readTypeNames c ts = .ok (name :: names, rest) := by
  induction names generalizing name ts with
  | nil =>
    simp only [List.map_cons, List.map_nil, separated, spells_cons, spells_nil] at h
    obtain ⟨p, _, rfl, rfl⟩ := h
    exact readTypeNames_last hrest
  | cons next names ih =>
    simp only [List.map_cons, separated, spells_append, spells_cons, spells_nil] at h
    obtain ⟨_, ⟨p, _, rfl, rfl⟩, q, after, rfl, h⟩ := h
    exact readTypeNames_more (ih h)

theorem typing?_reads {o : Option Typing} (ho : typingWellFormed o = true)
    (h : Spells ts (typingKinds o) rest) (hpipe : startsWithMark .pipe rest = false)
    (hcolon : startsWithMark .colon rest = false) :
    ∃ o', typing? c ts = .ok (o', rest) ∧ o'.map Typing.unplaced = o.map Typing.unplaced := by
  cases o with
  | none =>
    cases spells_nil.1 h
    exact ⟨none, by simp [typing?, hcolon], rfl⟩
  | some t =>
    obtain ⟨_ | ⟨name, names⟩, pos⟩ := t
    · cases ho
    · obtain ⟨p, after, rfl, hnames⟩ := spells_cons.1 h
      have hread := readTypeNames_reads (c := c.within .typing) hnames hpipe
      obtain ⟨t, after, rfl⟩ : ∃ t more, after = t :: more := by
        cases after with
        | nil => simp [readTypeNames] at hread
        | cons t more => exact ⟨t, more, rfl⟩
      refine ⟨some ⟨name :: names, t.pos⟩, ?_, rfl⟩
      simp only [typing?, startsWithMark, startsWith, isKind, decide_true, if_true, List.tail_cons,
        typing, hread]
      rfl

theorem items_reads {close : Mark} {item : Parse α} {kinds : α → List Token.Kind} {view : α → β}
    {good fits : α → Prop} {turns : List Token} {as : List α} {q : Position}
    (hclose : close ≠ .comma)
    (hitem : ∀ {a : α} {ts rest : List Token} {m : Mark} {p : Position}, good a →
      m = .comma ∨ m = close → Spells ts (kinds a) (⟨.mark m, p⟩ :: rest) →
      Gives (fits a) (Reading view a (⟨.mark m, p⟩ :: rest)) (item c ts))
    (hfirst : ∀ {a : α} {ts rest : List Token}, good a → Spells ts (kinds a) rest →
      startsWithMark close ts = false)
    (has : ∀ a ∈ as, good a) (hturns : ts.length ≤ turns.length)
    (h : Spells ts (separated .comma (as.map kinds)) (⟨.mark close, q⟩ :: rest)) :
    Gives (∀ a ∈ as, fits a) (Reading (List.map view) as rest) (items close item c turns ts) := by
  induction as generalizing ts turns with
  | nil =>
    cases spells_nil.1 h
    rw [items, if_pos (by simp)]
    exact .ok (by simp) ⟨_, rfl, rfl⟩
  | cons a as ih =>
    obtain ⟨ha, has⟩ := List.forall_mem_cons.1 has
    cases as with
    | nil =>
      have hread := hitem ha (.inr rfl) h
      rw [items, hfirst ha h]
      refine (hread.andThen fun r hr => ?_).congr (by simp)
      obtain ⟨a', rfl, hview⟩ := hr
      refine ⟨([a'], rest), ?_, _, rfl, congrArg (· :: []) hview⟩
      simp [hclose.symm]
      rfl
    | cons b as =>
      simp only [List.map_cons, separated, spells_append, spells_cons] at h
      obtain ⟨mid, hfront, p, after, rfl, h⟩ := h
      have hread := hitem ha (.inl rfl) hfront
      obtain ⟨turn, turns, rfl, hleft⟩ := exists_turn (Nat.le_trans hfront.length_le hturns)
      rw [items, hfirst ha hfront]
      refine (hread.bind fun r hr => ?_).congr (List.forall_mem_cons (p := fits)).symm
      obtain ⟨a', rfl, hview⟩ := hr
      simp only [startsWithMark_mark, decide_true, if_true, List.tail_cons]
      refine (ih has hleft h).andThen fun r hr => ?_
      obtain ⟨as', rfl, hviews⟩ := hr
      exact ⟨(a' :: as', rest), rfl, _, rfl, List.cons_eq_cons.2 ⟨hview, hviews⟩⟩

theorem param_reads {p : Param} (hp : p.wellFormed = true) (h : Spells ts p.kinds rest)
    (hpipe : startsWithMark .pipe rest = false) (hcolon : startsWithMark .colon rest = false) :
    Gives True (Reading Param.unplaced p rest) (param c ts) := by
  obtain ⟨q, after, rfl, htyping⟩ := spells_cons.1 h
  obtain ⟨o, ho, hview⟩ := typing?_reads (c := c) hp htyping hpipe hcolon
  have hread : param c (⟨.name p.name, q⟩ :: after) = .ok (⟨p.name, o, q⟩, rest) := by
    simp only [param, readName, bind, Except.bind, ho]
    rfl
  rw [hread]
  exact .ok trivial ⟨_, rfl, by simp [Param.unplaced, hview]⟩

/-- Parameters up to a closing mark. -/
theorem params_reads {close : Mark} {ps : List Param} {q : Position}
    (hclose : close ∉ [.comma, .pipe, .colon]) (hps : ∀ p ∈ ps, p.wellFormed = true)
    (h : Spells ts (separated .comma (ps.map Param.kinds)) (⟨.mark close, q⟩ :: rest)) :
    ∃ ps', list close param c ts = .ok (ps', rest) ∧
      ps'.map Param.unplaced = ps.map Param.unplaced := by
  simp only [List.mem_cons, List.not_mem_nil, or_false, not_or] at hclose
  obtain ⟨hcomma, hpipe, hcolon⟩ := hclose
  have hread : Gives (∀ p ∈ ps, True) (Reading (List.map Param.unplaced) ps rest)
      (items close param c ts ts) := by
    refine items_reads hcomma (fun ha hm hp => ?_) (fun _ hp => ?_) hps (Nat.le_refl _) h
    · rcases hm with rfl | rfl
      · exact param_reads ha hp rfl rfl
      · exact param_reads ha hp (by simp [Ne.symm hpipe]) (by simp [Ne.symm hcolon])
    · obtain ⟨p, after, rfl, _⟩ := spells_cons.1 hp
      rfl
  obtain ⟨_, hok, ps', rfl, hview⟩ := hread.1 (by simp)
  exact ⟨ps', hok, hview⟩

/-! ## First tokens -/

def opens : Token.Kind → Bool
  | .number _ | .string _ | .name _ => true
  | .keyword w => w ∈ [.trueWord, .falseWord, .nilWord, .funcWord, .classWord, .importWord]
  | .mark m => m ∈ [.leftParen, .leftBracket, .leftBrace, .minus, .plus, .bang]
  | _ => false

def begins (k : Token.Kind) : Prop :=
  isKind (.mark .rightBrace) k = false ∧ isKind (.mark .semicolon) k = false ∧
    isKind .eof k = false

/-- What needs no parentheses starts with no prefix operator. -/
theorem exists_kinds_eq_cons (named : String → Bool) :
    (e : Expr) → e.wellFormed = true →
    ∃ k ks, e.kinds named = k :: ks ∧ opens k = true ∧ (9 ≤ e.rank → prefixOp? k = none)
  | .name .. => fun _ => ⟨_, _, rfl, rfl, fun _ => rfl⟩
  | .literal _ l => fun _ => by
    rcases l with _ | _ | (_ | _) | _ <;> exact ⟨_, _, rfl, rfl, fun _ => rfl⟩
  | .group .. => fun _ => ⟨_, _, rfl, rfl, fun _ => rfl⟩
  | .array .. => fun _ => ⟨_, _, rfl, rfl, fun _ => rfl⟩
  | .object .. => fun _ => ⟨_, _, rfl, rfl, fun _ => rfl⟩
  | .binary _ op l r => fun h => by
    have hwf : l.wellFormed = true := by simp_all [Expr.wellFormed]
    obtain ⟨k, ks, hk, hopens, _⟩ := exists_kinds_eq_cons named l hwf
    refine ⟨k, _, by rw [Expr.kinds, hk, List.cons_append], hopens, ?_⟩
    cases op <;> simp [Expr.rank, BinaryOp.rank, BinaryOp.level]
  | .unary _ op e => fun _ => by
    refine ⟨_, _, rfl, ?_, by simp [Expr.rank]⟩
    cases op <;> rfl
  | .assign _ _ t _ => fun h => by
    have hwf : t.wellFormed = true := by simp_all [Expr.wellFormed]
    obtain ⟨k, ks, hk, hopens, _⟩ := exists_kinds_eq_cons named t hwf
    exact ⟨k, _, by rw [Expr.kinds, hk, List.cons_append], hopens, by simp [Expr.rank]⟩
  | .call _ f _ => fun h => by
    obtain ⟨hrank, hwf⟩ : 9 ≤ f.rank ∧ f.wellFormed = true := by simp_all [Expr.wellFormed]
    obtain ⟨k, ks, hk, hopens, hplain⟩ := exists_kinds_eq_cons named f hwf
    exact ⟨k, _, by rw [Expr.kinds, hk, List.cons_append], hopens, fun _ => hplain hrank⟩
  | .member _ e _ => fun h => by
    obtain ⟨hrank, hwf⟩ : 9 ≤ e.rank ∧ e.wellFormed = true := by simpa [Expr.wellFormed] using h
    obtain ⟨k, ks, hk, hopens, hplain⟩ := exists_kinds_eq_cons named e hwf
    exact ⟨k, _, by rw [Expr.kinds, hk, List.cons_append], hopens, fun _ => hplain hrank⟩
  | .index _ e _ => fun h => by
    obtain ⟨hrank, hwf⟩ : 9 ≤ e.rank ∧ e.wellFormed = true := by simp_all [Expr.wellFormed]
    obtain ⟨k, ks, hk, hopens, hplain⟩ := exists_kinds_eq_cons named e hwf
    exact ⟨k, _, by rw [Expr.kinds, hk, List.cons_append], hopens, fun _ => hplain hrank⟩
  | .function .. => fun _ => ⟨_, _, rfl, rfl, fun _ => rfl⟩
  | .classDef .. => fun _ => ⟨_, _, rfl, rfl, fun _ => rfl⟩
  | .namespaceDef .. => fun _ => ⟨_, _, rfl, rfl, fun _ => rfl⟩
  | .importFrom .. => fun _ => ⟨_, _, rfl, rfl, fun _ => rfl⟩

theorem begins_of_opens (h : opens k = true) : begins k := by
  cases k with
  | mark m => cases m <;> simp_all [opens, begins, isKind]
  | _ => simp_all [opens, begins, isKind]

theorem exists_kinds_begins (named : String → Bool) {place : Place} {s : Stmt}
    (h : s.wellFormed place = true) : ∃ k ks, s.kinds named = k :: ks ∧ begins k := by
  have hword : ∀ {w : Keyword}, begins (.keyword w) := ⟨rfl, rfl, rfl⟩
  cases s with
  | expr _ e =>
    have hwf : e.wellFormed = true := by simp_all [Stmt.wellFormed]
    obtain ⟨k, ks, hk, hopens, _⟩ := exists_kinds_eq_cons named e hwf
    exact ⟨k, ks, hk, begins_of_opens hopens⟩
  | declare _ _ _ _ init => cases init <;> exact ⟨_, _, rfl, hword⟩
  | namespaceDef => exact ⟨_, _, rfl, rfl, rfl, rfl⟩
  | ifElse _ _ _ other => cases other <;> exact ⟨_, _, rfl, hword⟩
  | block => exact ⟨_, _, rfl, rfl, rfl, rfl⟩
  | returnValue _ e => cases e <;> exact ⟨_, _, rfl, hword⟩
  | _ => exact ⟨_, _, rfl, hword⟩

/-- An expression that does not start with what has a name is no declaration. -/
theorem declaration?_expression {named : String → Bool} {below : Below} {exported : Bool}
    {pos : Position} : (e : Expr) → {ts rest : List Token} → e.wellFormed = true →
    e.head.ownName?.join = none → Spells ts (e.kinds named) rest →
    declaration? below exported pos c ts = .ok none
  | .assign _ _ e _, _, _, hwf, hhead, h | .binary _ _ e _, _, _, hwf, hhead, h
  | .call _ e _, _, _, hwf, hhead, h | .member _ e _, _, _, hwf, hhead, h
  | .index _ e _, _, _, hwf, hhead, h => by
    obtain ⟨mid, h, _⟩ := spells_append.1 h
    exact declaration?_expression e (by simp_all [Expr.wellFormed]) hhead h
  | .name _ s, _, _, hwf, _, h => by
    obtain ⟨p, after, rfl, _⟩ := spells_cons.1 h
    have hs : s ≠ "namespace" := by simpa [Expr.wellFormed] using hwf
    simp [declaration?, qualifier?, startsNamespace, hs]
  | .literal _ l, _, _, _, _, h => by
    obtain ⟨p, after, rfl, _⟩ := spells_cons.1 h
    rcases l with _ | _ | (_ | _) | _ <;> simp [declaration?, qualifier?, Literal.kind]
  | .unary .., _, _, _, _, h | .group .., _, _, _, _, h | .array .., _, _, _, _, h
  | .object .., _, _, _, _, h | .importFrom .., _, _, _, _, h => by
    obtain ⟨p, after, rfl, _⟩ := spells_cons.1 h
    simp [declaration?, qualifier?]
  | .function _ ⟨_, _, _, _, _⟩, _, _, _, hhead, h | .classDef _ ⟨_, _, _, _⟩, _, _, _, hhead, h
  | .namespaceDef _ ⟨_, _, _⟩, _, _, _, hhead, h => by
    cases hhead
    obtain ⟨p, _, rfl, hrest⟩ := spells_cons.1 h
    obtain ⟨q, after, rfl, _⟩ := spells_cons.1 hrest
    rfl

end TinyScript.Grammar

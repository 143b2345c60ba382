import ByteMachine.Proofs.Source.ExprRoundTrip
/-!
# Every parse consumes what it reads

The parsers stop on every token list: each loop runs down the tokens left, and each level of
nesting runs down the nesting budget of `level`, which is spent before any token is read again.
What keeps the loops going down is that a parser that succeeds has consumed tokens. This module
proves more than the types of the parsers carry: what a parser leaves is its input after a prefix
(`Leaves`), and that prefix has at least as many tokens as the syntax tree read from it has
nodes (`Expr.size`, `Stmt.size`). Since every tree has a node, a successful call of the
expression, statement or declaration parser consumes a token; and since every round of a loop
adds a node (an operator, a call, an argument, a parameter, a statement of a block, a
declaration of the program), every round consumes one too.

## Main statements

* `chain_leaves`, `callsAfter_leaves`, `argumentsFrom_leaves`, `paramsFrom_leaves`,
  `blockBody_leaves`: each round of a loop consumes the tokens of the nodes it adds.
* `level_consuming`: the parsers of every nesting level consume the tokens of what they read.
* `declarations_size_le`: a program has no more nodes than it has tokens.
-/

namespace ByteMachine.Source

/-! ## The size of a syntax tree -/

mutual

/-- The nodes of an expression. -/
def Expr.size : Expr → Nat
  | .binary _ l r => l.size + r.size + 1
  | .grouping e => e.size + 1
  | .unary _ e => e.size + 1
  | .bool _ | .str _ | .num _ | .var _ | .input => 1
  | .assign _ v => v.size + 1
  | .logical _ l r => l.size + r.size + 1
  | .call callee _ args => callee.size + Expr.sizes args + 1

/-- The nodes of a list of expressions. -/
def Expr.sizes : List Expr → Nat
  | [] => 0
  | e :: es => e.size + Expr.sizes es

end

/-- The nodes of an optional part: none when it is absent. -/
def optionSize {α : Type} (size : α → Nat) : Option α → Nat
  | none => 0
  | some a => size a

mutual

/-- The nodes of a statement. An expression statement counts as its expression alone, since its
semicolon may be left out; a function counts its parameters. -/
def Stmt.size : Stmt → Nat
  | .expr e => e.size
  | .ifElse c th el => c.size + th.size + Stmt.optSize el + 1
  | .whileLoop c body => c.size + body.size + 1
  | .forLoop init c step body =>
      Stmt.optSize init + optionSize Expr.size c + optionSize Expr.size step + body.size + 1
  | .block body => Stmt.sizes body + 1
  | .varDecl _ init => optionSize Expr.size init + 1
  | .funDecl _ params body => params.length + Stmt.sizes body + 1
  | .returnStmt _ value => optionSize Expr.size value + 1
  | .output e => e.size + 1

/-- The nodes of an optional statement. -/
def Stmt.optSize : Option Stmt → Nat
  | none => 0
  | some s => s.size

/-- The nodes of a list of statements. -/
def Stmt.sizes : List Stmt → Nat
  | [] => 0
  | s :: ss => s.size + Stmt.sizes ss

end

@[simp] theorem Expr.sizes_nil : Expr.sizes [] = 0 := rfl

@[simp] theorem Expr.sizes_cons (e : Expr) (es : List Expr) :
    Expr.sizes (e :: es) = e.size + Expr.sizes es := rfl

@[simp] theorem Expr.sizes_append (es es' : List Expr) :
    Expr.sizes (es ++ es') = Expr.sizes es + Expr.sizes es' := by
  induction es with
  | nil => simp
  | cons e es ih => simp [ih, Nat.add_assoc]

@[simp] theorem Stmt.sizes_nil : Stmt.sizes [] = 0 := rfl

@[simp] theorem Stmt.sizes_cons (s : Stmt) (ss : List Stmt) :
    Stmt.sizes (s :: ss) = s.size + Stmt.sizes ss := rfl

@[simp] theorem Stmt.sizes_append (ss ss' : List Stmt) :
    Stmt.sizes (ss ++ ss') = Stmt.sizes ss + Stmt.sizes ss' := by
  induction ss with
  | nil => simp
  | cons s ss ih => simp [ih, Nat.add_assoc]

theorem Stmt.optSize_eq (o : Option Stmt) : Stmt.optSize o = optionSize Stmt.size o := by
  cases o <;> rfl

/-- Every expression has a node. -/
theorem Expr.size_pos (e : Expr) : 0 < e.size := by
  cases e <;> simp [Expr.size]

/-- Every statement has a node. -/
theorem Stmt.size_pos (s : Stmt) : 0 < s.size := by
  cases s with
  | expr e => exact e.size_pos
  | _ => simp [Stmt.size]

/-- A list of statements has at least a node for each. -/
theorem Stmt.length_le_sizes (ss : List Stmt) : ss.length ≤ Stmt.sizes ss := by
  induction ss with
  | nil => simp
  | cons s ss ih =>
      have := s.size_pos
      simp only [List.length_cons, Stmt.sizes_cons]
      omega

/-! ## What a parser leaves -/

/-- `rest` is what reading at least `k` tokens from the front of `ts` leaves. -/
def Leaves (ts rest : List Token) (k : Nat) : Prop :=
  ∃ pre, ts = pre ++ rest ∧ k ≤ pre.length

namespace Leaves

variable {ts r r' : List Token} {k k' : Nat}

theorem refl (ts : List Token) : Leaves ts ts 0 := ⟨[], rfl, Nat.zero_le _⟩

theorem trans (h : Leaves ts r k) (h' : Leaves r r' k') : Leaves ts r' (k + k') := by
  obtain ⟨pre, rfl, hk⟩ := h
  obtain ⟨pre', rfl, hk'⟩ := h'
  exact ⟨pre ++ pre', (List.append_assoc _ _ _).symm, by simp only [List.length_append]; omega⟩

theorem cons (t : Token) (h : Leaves ts r k) : Leaves (t :: ts) r (k + 1) := by
  obtain ⟨pre, rfl, hk⟩ := h
  exact ⟨t :: pre, rfl, by simp only [List.length_cons]; omega⟩

theorem mono (h : Leaves ts r k) (hk : k' ≤ k) : Leaves ts r k' := by
  obtain ⟨pre, hts, hle⟩ := h
  exact ⟨pre, hts, Nat.le_trans hk hle⟩

/-- What is left is no longer than the input less the tokens read. -/
theorem length_le (h : Leaves ts r k) : k + r.length ≤ ts.length := by
  obtain ⟨pre, rfl, hk⟩ := h
  simp only [List.length_append]
  omega

/-- Reading a positive number of tokens reads a nonempty prefix. -/
theorem exists_ne_nil (h : Leaves ts r k) (hk : 0 < k) :
    ∃ pre, pre ≠ [] ∧ ts = pre ++ r ∧ k ≤ pre.length := by
  obtain ⟨pre, hts, hle⟩ := h
  refine ⟨pre, ?_, hts, hle⟩
  rintro rfl
  simp at hle
  omega

end Leaves

theorem skipped_leaves (kind : TokenKind) (ts : List Token) : Leaves ts (skipped kind ts) 0 := by
  cases ts with
  | nil => exact Leaves.refl []
  | cons t rest =>
      by_cases h : t.kind = kind
      · rw [skipped, if_pos h]
        exact ((Leaves.refl rest).cons t).mono (Nat.zero_le _)
      · rw [skipped, if_neg h]
        exact Leaves.refl _

/-- A parser consumes at least `size v` tokens when it reads `v`. -/
def Consumes {α : Type} (size : α → Nat) (p : Parser α) : Prop :=
  ∀ ts s, p ts = .ok s → Leaves ts s.rest (size s.value)

/-- With no nesting budget left, nothing is read. -/
theorem consumes_tooDeep {α : Type} (size : α → Nat) (eof : Token) :
    Consumes size (tooDeep eof) := by
  intro ts s h
  simp [tooDeep] at h

theorem expect_consumes (eof : Token) (kind : TokenKind) (reason : String) :
    Consumes (fun _ => 1) (expect eof kind reason) := by
  intro ts s h
  cases ts with
  | nil => simp [expect] at h
  | cons t rest =>
      rw [expect] at h
      split at h
      · obtain rfl := Except.ok.inj h
        exact (Leaves.refl rest).cons t
      · simp at h

section Optional

variable {α : Type} {size : α → Nat} {p : Parser α}

theorem after?_leaves (hp : Consumes size p) {kind : TokenKind} {ts : List Token}
    {s : Tail ts (Option α)} (h : after? kind p ts = .ok s) :
    Leaves ts s.rest (optionSize size s.value) := by
  cases ts with
  | nil =>
      rw [after?] at h
      obtain rfl := Except.ok.inj h
      exact Leaves.refl []
  | cons t rest =>
      rw [after?] at h
      split at h
      · obtain ⟨⟨v, r, hr⟩, hv, h⟩ := bind_eq_ok.1 h
        obtain rfl := Except.ok.inj h
        exact ((hp rest _ hv).cons t).mono (Nat.le_succ _)
      · obtain rfl := Except.ok.inj h
        exact Leaves.refl _

theorem unless?_leaves (hp : Consumes size p) {absent : List Token → Bool} {ts : List Token}
    {s : Tail ts (Option α)} (h : unless? absent p ts = .ok s) :
    Leaves ts s.rest (optionSize size s.value) := by
  unfold unless? at h
  split at h
  · obtain rfl := Except.ok.inj h
    exact Leaves.refl ts
  · obtain ⟨⟨v, r, hr⟩, hv, h⟩ := bind_eq_ok.1 h
    obtain rfl := Except.ok.inj h
    exact hp ts _ hv

end Optional

/-! ## Expressions -/

/-- Each operator of a table joins its two operands under one new node, which nests as deep as
the deeper operand. -/
def Combines (combine : TokenKind → Option (Expr → Expr → Expr)) : Prop :=
  ∀ k f, combine k = some f →
    ∀ l r, (f l r).size = l.size + r.size + 1 ∧ (f l r).depth = max l.depth r.depth

theorem levelOps_combines (q : Nat) : Combines (levelOps q) := by
  intro k f h l r
  rcases (levelOps_eq_some h).2 l r with ⟨op, hf⟩ | ⟨op, hf⟩ <;> rw [hf] <;> exact ⟨rfl, rfl⟩

section Chain

variable {operand : Parser Expr} {combine : TokenKind → Option (Expr → Expr → Expr)}

/-- Each round of a chain of operators consumes the operator and the operand after it. -/
theorem chain_leaves (hop : Consumes Expr.size operand) (hc : Combines combine) (lhs : Expr)
    (ts : List Token) :
    ∀ s, chain operand combine lhs ts = .ok s → Leaves ts s.rest (s.value.size - lhs.size) := by
  induction lhs, ts using chain.induct combine with
  | case1 lhs =>
      intro s h
      rw [chain] at h
      obtain rfl := Except.ok.inj h
      exact (Leaves.refl []).mono (by simp)
  | case2 lhs t tail hnone =>
      intro s h
      rw [chain] at h
      simp only [hnone] at h
      obtain rfl := Except.ok.inj h
      exact (Leaves.refl _).mono (by simp)
  | case3 lhs t tail f hf ih =>
      intro s h
      rw [chain] at h
      simp only [hf] at h
      obtain ⟨⟨rhs, r, hr⟩, hrhs, h⟩ := bind_eq_ok.1 h
      obtain ⟨⟨e, r', hr'⟩, he, h⟩ := bind_eq_ok.1 h
      obtain rfl := Except.ok.inj h
      have hsize := (hc t.kind f hf lhs rhs).1
      exact (((hop tail _ hrhs).trans (ih rhs r hr _ he)).cons t).mono (by dsimp only; omega)

theorem leftAssoc_consumes (hop : Consumes Expr.size operand) (hc : Combines combine) :
    Consumes Expr.size (leftAssoc operand combine) := by
  intro ts s h
  unfold leftAssoc at h
  obtain ⟨⟨lhs, r, hr⟩, hl, h⟩ := bind_eq_ok.1 h
  obtain ⟨⟨e, r', hr'⟩, he, h⟩ := bind_eq_ok.1 h
  obtain rfl := Except.ok.inj h
  exact ((hop ts _ hl).trans (chain_leaves hop hc lhs r _ he)).mono (by dsimp only; omega)

end Chain

section Calls

variable {inner : Level} (hexpr : Consumes Expr.size inner.expr)
include hexpr

theorem primary_consumes : Consumes Expr.size (primary inner) := by
  intro ts s h
  cases ts with
  | nil => simp [primary] at h
  | cons t rest =>
      rw [primary] at h
      split at h
      -- a literal, a name or `in` is one token
      any_goals
        obtain rfl := Except.ok.inj h
        exact (Leaves.refl rest).cons t
      -- an expression in parentheses
      · obtain ⟨⟨e, r, hr⟩, he, h⟩ := bind_eq_ok.1 h
        obtain ⟨⟨p, r', hr'⟩, hp, h⟩ := bind_eq_ok.1 h
        obtain rfl := Except.ok.inj h
        exact (((hexpr rest _ he).trans (expect_consumes _ _ _ r _ hp)).cons t).mono
          (by simp [Expr.size])
      · simp at h

/-- Each round of an argument list consumes the argument and the comma before the next. -/
theorem argumentsFrom_leaves (done : Array Expr) (ts : List Token) :
    ∀ s, argumentsFrom inner done ts = .ok s →
      Leaves ts s.rest (Expr.sizes s.value - Expr.sizes done.toList) := by
  induction done, ts using argumentsFrom.induct with
  | case1 done ts hfull =>
      intro s h
      rw [argumentsFrom, if_pos hfull] at h
      simp at h
  | case2 done ts hroom ih =>
      intro s h
      rw [argumentsFrom, if_neg hroom] at h
      obtain ⟨⟨a, r, hr⟩, ha, h⟩ := bind_eq_ok.1 h
      have hread := hexpr ts _ ha
      cases r with
      | nil =>
          obtain rfl := Except.ok.inj h
          exact hread.mono (by simp)
      | cons t rest =>
          dsimp only at h
          split at h
          · obtain ⟨⟨args, r', hr'⟩, hargs, h⟩ := bind_eq_ok.1 h
            obtain rfl := Except.ok.inj h
            have hnext := ih a [] t rest hr _ hargs
            simp only [Array.toList_push, Expr.sizes_append, Expr.sizes_cons, Expr.sizes_nil]
              at hnext
            exact (hread.trans (hnext.cons t)).mono (by dsimp only; omega)
          · obtain rfl := Except.ok.inj h
            exact hread.mono (by simp)

theorem arguments_leaves {ts : List Token} {s : Tail ts (List Expr)}
    (h : arguments inner ts = .ok s) : Leaves ts s.rest (Expr.sizes s.value) := by
  unfold arguments at h
  split at h
  · obtain rfl := Except.ok.inj h
    exact Leaves.refl ts
  · simpa using argumentsFrom_leaves hexpr #[] ts s h

/-- Each call applied consumes its parentheses and its arguments. -/
theorem callsAfter_leaves (callee : Expr) (ts : List Token) :
    ∀ s, callsAfter inner callee ts = .ok s →
      Leaves ts s.rest (s.value.size - callee.size) := by
  induction callee, ts using callsAfter.induct with
  | case1 callee =>
      intro s h
      rw [callsAfter] at h
      obtain rfl := Except.ok.inj h
      exact (Leaves.refl []).mono (by simp)
  | case2 callee t tail hlp ih =>
      intro s h
      rw [callsAfter, if_pos hlp] at h
      obtain ⟨⟨args, r, hr⟩, ha, h⟩ := bind_eq_ok.1 h
      obtain ⟨⟨paren, r2, hr2⟩, hp, h⟩ := bind_eq_ok.1 h
      obtain ⟨⟨e, r3, hr3⟩, he, h⟩ := bind_eq_ok.1 h
      obtain rfl := Except.ok.inj h
      have hargs := (arguments_leaves hexpr ha).trans (expect_consumes _ _ _ r _ hp)
      have hnext := ih args r hr paren r2 hr2 _ he
      simp only [Expr.size] at hnext
      exact ((hargs.trans hnext).cons t).mono (by dsimp only; omega)
  | case3 callee t tail hlp =>
      intro s h
      rw [callsAfter, if_neg hlp] at h
      obtain rfl := Except.ok.inj h
      exact (Leaves.refl _).mono (by simp)

theorem call_consumes : Consumes Expr.size (call inner) := by
  intro ts s h
  unfold call at h
  obtain ⟨⟨e, r, hr⟩, hp, h⟩ := bind_eq_ok.1 h
  obtain ⟨⟨e', r', hr'⟩, hc, h⟩ := bind_eq_ok.1 h
  obtain rfl := Except.ok.inj h
  exact ((primary_consumes hexpr ts _ hp).trans (callsAfter_leaves hexpr e r _ hc)).mono
    (by dsimp only; omega)

variable (hoperand : Consumes Expr.size inner.operand)
include hoperand

theorem unary_consumes : Consumes Expr.size (unary inner) := by
  intro ts s h
  cases ts with
  | nil => exact call_consumes hexpr [] s h
  | cons t rest =>
      rw [unary] at h
      cases hk : unaryOp? t.kind with
      | none =>
          simp only [hk] at h
          exact call_consumes hexpr _ s h
      | some op =>
          simp only [hk] at h
          obtain ⟨⟨e, r, hr⟩, he, h⟩ := bind_eq_ok.1 h
          obtain rfl := Except.ok.inj h
          exact (hoperand rest _ he).cons t

theorem disjunction_consumes : Consumes Expr.size (disjunction inner) := by
  rw [disjunction_eq_tower]
  -- the seven binary levels stand on the prefix operators
  have htower : ∀ n, Consumes Expr.size (tower inner n) := by
    intro n
    induction n with
    | zero => exact unary_consumes hexpr hoperand
    | succ n ih => exact leftAssoc_consumes ih (levelOps_combines _)
  exact htower 7

theorem assignment_consumes : Consumes Expr.size (assignment inner) := by
  intro ts s h
  unfold assignment at h
  obtain ⟨⟨node, r, hr⟩, hn, h⟩ := bind_eq_ok.1 h
  have hread := disjunction_consumes hexpr hoperand ts _ hn
  cases r with
  | nil =>
      obtain rfl := Except.ok.inj h
      exact hread
  | cons t rest =>
      dsimp only at h
      split at h
      · obtain ⟨⟨value, r', hr'⟩, hv, h⟩ := bind_eq_ok.1 h
        -- only a variable can be assigned to
        split at h
        · obtain rfl := Except.ok.inj h
          exact (hread.trans ((hexpr rest _ hv).cons t)).mono (by simp [Expr.size])
        · simp at h
      · obtain rfl := Except.ok.inj h
        exact hread

end Calls

/-! ## Statements -/

/-- Each round of a parameter list consumes the name and the comma before the next. -/
theorem paramsFrom_leaves (eof : Token) (done : Array Token) (ts : List Token) :
    ∀ s, paramsFrom eof done ts = .ok s → Leaves ts s.rest (s.value.length - done.size) := by
  induction done, ts using paramsFrom.induct with
  | case1 done ts hfull =>
      intro s h
      rw [paramsFrom, if_pos hfull] at h
      simp at h
  | case2 done ts hroom ih =>
      intro s h
      rw [paramsFrom, if_neg hroom] at h
      obtain ⟨⟨p, r, hr⟩, hp, h⟩ := bind_eq_ok.1 h
      have hread := expect_consumes _ _ _ ts _ hp
      cases r with
      | nil =>
          obtain rfl := Except.ok.inj h
          exact hread.mono (by simp)
      | cons t rest =>
          dsimp only at h
          split at h
          · obtain ⟨⟨ps, r', hr'⟩, hps, h⟩ := bind_eq_ok.1 h
            obtain rfl := Except.ok.inj h
            have hnext := ih p [] t rest hr _ hps
            simp only [Array.size_push] at hnext
            exact (hread.trans (hnext.cons t)).mono (by dsimp only; omega)
          · obtain rfl := Except.ok.inj h
            exact hread.mono (by simp)

section Statements

variable {inner : Level} (hexpr : Consumes Expr.size inner.expr)
include hexpr

theorem exprStatement_consumes : Consumes Stmt.size (exprStatement inner) := by
  intro ts s h
  unfold exprStatement at h
  obtain ⟨⟨e, r, hr⟩, he, h⟩ := bind_eq_ok.1 h
  obtain rfl := Except.ok.inj h
  exact (hexpr ts _ he).trans (skipped_leaves .semicolon r)

theorem varDeclaration_consumes : Consumes Stmt.size (varDeclaration inner) := by
  intro ts s h
  unfold varDeclaration at h
  obtain ⟨⟨name, r, hr⟩, hname, h⟩ := bind_eq_ok.1 h
  obtain ⟨⟨init, r2, hr2⟩, hinit, h⟩ := bind_eq_ok.1 h
  obtain rfl := Except.ok.inj h
  have hread := (expect_consumes _ _ _ ts _ hname).trans (after?_leaves hexpr hinit)
  exact (hread.trans (skipped_leaves .semicolon r2)).mono (by simp only [Stmt.size]; omega)

theorem forInit_leaves {ts : List Token} {s : Tail ts (Option Stmt)}
    (h : forInit inner ts = .ok s) : Leaves ts s.rest (Stmt.optSize s.value) := by
  cases ts with
  | nil =>
      rw [forInit] at h
      obtain ⟨⟨st, r, hr⟩, hst, h⟩ := bind_eq_ok.1 h
      obtain rfl := Except.ok.inj h
      exact exprStatement_consumes hexpr [] _ hst
  | cons t rest =>
      rw [forInit] at h
      split at h
      · -- an empty initializer is its semicolon
        obtain rfl := Except.ok.inj h
        exact ((Leaves.refl rest).cons t).mono (Nat.zero_le _)
      · split at h
        · obtain ⟨⟨st, r, hr⟩, hst, h⟩ := bind_eq_ok.1 h
          obtain rfl := Except.ok.inj h
          exact ((varDeclaration_consumes hexpr rest _ hst).cons t).mono (Nat.le_succ _)
        · obtain ⟨⟨st, r, hr⟩, hst, h⟩ := bind_eq_ok.1 h
          obtain rfl := Except.ok.inj h
          exact exprStatement_consumes hexpr _ _ hst

variable (hstmt : Consumes Stmt.size inner.stmt)
  (hblock : Consumes (fun b => Stmt.sizes b + 1) inner.block)

omit hexpr in
include hblock in
theorem function_consumes : Consumes Stmt.size (function inner) := by
  intro ts s h
  unfold function at h
  obtain ⟨⟨name, r1, hr1⟩, hname, h⟩ := bind_eq_ok.1 h
  obtain ⟨⟨lp, r2, hr2⟩, hlp, h⟩ := bind_eq_ok.1 h
  obtain ⟨⟨params, r3, hr3⟩, hparams, h⟩ := bind_eq_ok.1 h
  obtain ⟨⟨rp, r4, hr4⟩, hrp, h⟩ := bind_eq_ok.1 h
  obtain ⟨⟨lb, r5, hr5⟩, hlb, h⟩ := bind_eq_ok.1 h
  obtain ⟨⟨body, r6, hr6⟩, hbody, h⟩ := bind_eq_ok.1 h
  obtain rfl := Except.ok.inj h
  -- the parameters are read one token each
  have hps : Leaves r2 r3 params.length := by
    split at hparams
    · obtain ⟨rfl, rfl⟩ : [] = params ∧ r2 = r3 := by
        simp only [Except.ok.injEq, Tail.mk.injEq] at hparams
        exact hparams
      exact Leaves.refl _
    · simpa using paramsFrom_leaves inner.eof #[] r2 _ hparams
  have hread := (expect_consumes _ _ _ ts _ hname).trans ((expect_consumes _ _ _ r1 _ hlp).trans
    (hps.trans ((expect_consumes _ _ _ r3 _ hrp).trans
      ((expect_consumes _ _ _ r4 _ hlb).trans (hblock r5 _ hbody)))))
  exact hread.mono (by simp only [Stmt.size]; omega)

include hstmt

theorem ifStatement_consumes : Consumes Stmt.size (ifStatement inner) := by
  intro ts s h
  unfold ifStatement at h
  obtain ⟨⟨lp, r1, hr1⟩, hlp, h⟩ := bind_eq_ok.1 h
  obtain ⟨⟨c, r2, hr2⟩, hc, h⟩ := bind_eq_ok.1 h
  obtain ⟨⟨rp, r3, hr3⟩, hrp, h⟩ := bind_eq_ok.1 h
  obtain ⟨⟨th, r4, hr4⟩, hth, h⟩ := bind_eq_ok.1 h
  obtain ⟨⟨el, r5, hr5⟩, hel, h⟩ := bind_eq_ok.1 h
  obtain rfl := Except.ok.inj h
  have hread := (expect_consumes _ _ _ ts _ hlp).trans ((hexpr r1 _ hc).trans
    ((expect_consumes _ _ _ r2 _ hrp).trans ((hstmt r3 _ hth).trans (after?_leaves hstmt hel))))
  exact hread.mono (by simp only [Stmt.size, Stmt.optSize_eq]; omega)

theorem whileStatement_consumes : Consumes Stmt.size (whileStatement inner) := by
  intro ts s h
  unfold whileStatement at h
  obtain ⟨⟨lp, r1, hr1⟩, hlp, h⟩ := bind_eq_ok.1 h
  obtain ⟨⟨c, r2, hr2⟩, hc, h⟩ := bind_eq_ok.1 h
  obtain ⟨⟨rp, r3, hr3⟩, hrp, h⟩ := bind_eq_ok.1 h
  obtain ⟨⟨body, r4, hr4⟩, hbody, h⟩ := bind_eq_ok.1 h
  obtain rfl := Except.ok.inj h
  have hread := (expect_consumes _ _ _ ts _ hlp).trans ((hexpr r1 _ hc).trans
    ((expect_consumes _ _ _ r2 _ hrp).trans (hstmt r3 _ hbody)))
  exact hread.mono (by simp only [Stmt.size]; omega)

theorem forStatement_consumes : Consumes Stmt.size (forStatement inner) := by
  intro ts s h
  unfold forStatement at h
  obtain ⟨⟨lp, r1, hr1⟩, hlp, h⟩ := bind_eq_ok.1 h
  obtain ⟨⟨init, r2, hr2⟩, hinit, h⟩ := bind_eq_ok.1 h
  obtain ⟨⟨c, r3, hr3⟩, hc, h⟩ := bind_eq_ok.1 h
  obtain ⟨⟨semi, r4, hr4⟩, hsemi, h⟩ := bind_eq_ok.1 h
  obtain ⟨⟨incr, r5, hr5⟩, hincr, h⟩ := bind_eq_ok.1 h
  obtain ⟨⟨rp, r6, hr6⟩, hrp, h⟩ := bind_eq_ok.1 h
  obtain ⟨⟨body, r7, hr7⟩, hbody, h⟩ := bind_eq_ok.1 h
  obtain rfl := Except.ok.inj h
  have hread := (expect_consumes _ _ _ ts _ hlp).trans ((forInit_leaves hexpr hinit).trans
    ((unless?_leaves hexpr hc).trans ((expect_consumes _ _ _ r3 _ hsemi).trans
      ((unless?_leaves hexpr hincr).trans ((expect_consumes _ _ _ r5 _ hrp).trans
        (hstmt r6 _ hbody))))))
  exact hread.mono (by simp only [Stmt.size]; omega)

include hblock

theorem statement_consumes : Consumes Stmt.size (statement inner) := by
  intro ts s h
  cases ts with
  | nil => exact exprStatement_consumes hexpr [] s h
  | cons t rest =>
      rw [statement] at h
      split at h
      · -- `if`, `while` and `for` consume their keyword before the rest
        obtain ⟨st, hst, rfl⟩ := map_eq_ok.1 h
        exact ((ifStatement_consumes hexpr hstmt rest st hst).cons t).mono (Nat.le_succ _)
      · obtain ⟨st, hst, rfl⟩ := map_eq_ok.1 h
        exact ((whileStatement_consumes hexpr hstmt rest st hst).cons t).mono (Nat.le_succ _)
      · obtain ⟨st, hst, rfl⟩ := map_eq_ok.1 h
        exact ((forStatement_consumes hexpr hstmt rest st hst).cons t).mono (Nat.le_succ _)
      · -- `return`, with or without a value
        obtain ⟨⟨v, r, hr⟩, hv, h⟩ := bind_eq_ok.1 h
        obtain rfl := Except.ok.inj h
        exact ((unless?_leaves hexpr hv).trans (skipped_leaves .semicolon r)).cons t
      · obtain ⟨⟨e, r, hr⟩, he, h⟩ := bind_eq_ok.1 h
        obtain rfl := Except.ok.inj h
        exact ((hexpr rest _ he).trans (skipped_leaves .semicolon r)).cons t
      · -- a block consumes its braces
        obtain ⟨⟨b, r, hr⟩, hb, h⟩ := bind_eq_ok.1 h
        obtain rfl := Except.ok.inj h
        exact ((hblock rest _ hb).cons t).mono (Nat.le_succ _)
      · exact exprStatement_consumes hexpr _ s h

theorem declaration_consumes : Consumes Stmt.size (declaration inner) := by
  intro ts s h
  cases ts with
  | nil => exact hstmt [] s h
  | cons t rest =>
      rw [declaration] at h
      split at h
      · obtain ⟨st, hst, rfl⟩ := map_eq_ok.1 h
        exact ((function_consumes hblock rest st hst).cons t).mono (Nat.le_succ _)
      · split at h
        · obtain ⟨st, hst, rfl⟩ := map_eq_ok.1 h
          exact ((varDeclaration_consumes hexpr rest st hst).cons t).mono (Nat.le_succ _)
        · exact hstmt _ s h

/-- Each round of a block consumes a declaration, and the block ends by consuming its brace. -/
theorem blockBody_leaves (done : Array Stmt) (ts : List Token) :
    ∀ s, blockBody inner done ts = .ok s →
      Leaves ts s.rest (Stmt.sizes s.value + 1 - Stmt.sizes done.toList) := by
  induction done, ts using blockBody.induct with
  | case1 done =>
      intro s h
      simp [blockBody] at h
  | case2 done t tail hclose =>
      intro s h
      rw [blockBody, if_pos hclose] at h
      obtain rfl := Except.ok.inj h
      exact ((Leaves.refl tail).cons t).mono (by simp)
  | case3 done t tail hopen ih =>
      intro s h
      rw [blockBody, if_neg hopen] at h
      obtain ⟨⟨st, r, hr⟩, hst, h⟩ := bind_eq_ok.1 h
      obtain ⟨⟨ss, r', hr'⟩, hss, h⟩ := bind_eq_ok.1 h
      obtain rfl := Except.ok.inj h
      have hnext := ih st r hr _ hss
      simp only [Array.toList_push, Stmt.sizes_append, Stmt.sizes_cons, Stmt.sizes_nil] at hnext
      exact ((declaration_consumes hexpr hstmt hblock _ _ hst).trans hnext).mono
        (by dsimp only; omega)

end Statements

/-! ## Every level of nesting -/

/-- The parsers of a nesting level consume the tokens of what they read; a block also consumes
its closing brace. -/
structure Level.Consuming (inner : Level) : Prop where
  expr : Consumes Expr.size inner.expr
  stmt : Consumes Stmt.size inner.stmt
  block : Consumes (fun b => Stmt.sizes b + 1) inner.block
  operand : Consumes Expr.size inner.operand

theorem Level.Consuming.declaration {inner : Level} (h : inner.Consuming) :
    Consumes Stmt.size (declaration inner) :=
  declaration_consumes h.expr h.stmt h.block

/-- The parsers of every nesting level consume the tokens of what they read: with no budget
left they read nothing, and each level is built on the one below. -/
theorem level_consuming (eof : Token) : (budget : Nat) → (level eof budget).Consuming
  | 0 => ⟨consumes_tooDeep _ eof, consumes_tooDeep _ eof, consumes_tooDeep _ eof,
      consumes_tooDeep _ eof⟩
  | n + 1 =>
      have ih := level_consuming eof n
      ⟨assignment_consumes ih.expr ih.operand, statement_consumes ih.expr ih.stmt ih.block,
        fun ts s h => by simpa using blockBody_leaves ih.expr ih.stmt ih.block #[] ts s h,
        unary_consumes ih.expr ih.operand⟩

/-- Each round of the declarations of a program consumes a declaration, so a program has no
more nodes than tokens. -/
theorem declarations_size_le {top : Level} (htop : top.Consuming) (done : Array Stmt)
    (ts : List Token) :
    ∀ prog, declarations top done ts = .ok prog →
      Stmt.sizes prog ≤ Stmt.sizes done.toList + ts.length := by
  induction done, ts using declarations.induct with
  | case1 done =>
      intro prog h
      rw [declarations] at h
      obtain rfl := Except.ok.inj h
      simp
  | case2 done t tail ih =>
      intro prog h
      rw [declarations] at h
      obtain ⟨s, hs, h⟩ := bind_eq_ok.1 h
      have hread := (htop.declaration _ s hs).length_le
      have hnext := ih s prog h
      simp only [Array.toList_push, Stmt.sizes_append, Stmt.sizes_cons, Stmt.sizes_nil] at hnext
      omega

end ByteMachine.Source

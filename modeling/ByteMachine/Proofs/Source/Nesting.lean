import ByteMachine.Proofs.Source.Consumption
/-!
# The nesting budget bounds what is read

`level eof n` builds the parsers that have `n` levels of nesting left. Each of them reads what
is nested inside the tree it reads (an expression in parentheses, the operand of a prefix
operator, an assigned value, a call argument, the parts of a statement, the body of a block)
with the parsers of the level below, and with no level left every parser fails. So a tree read
with `n` levels left nests less than `n` levels deep, counting levels as `Expr.depth` and
`Stmt.depth` count those the parser spends, and a program nests at most `maxDepth` levels deep.

Together with `Consumption`, this is why parsing stops: within a level every loop consumes
tokens, and every call of a parser that consumes none first goes one level down.

## Main statements

* `level_nested`: the parsers with `n` levels left read trees that nest less than `n` deep.
* `declarations_allDepth_le`: the declarations of a program stay within its budget.
* `parsing_consumes_within_budget`: every successful parse reads a nonempty prefix of its input,
  with at least as many tokens as the tree read has nodes, and the tree nests within the
  budget; a program has no more nodes than tokens and nests at most 100 levels deep.
-/

namespace ByteMachine.Source

/-! ## Depths of lists and optional parts -/

theorem Expr.argsDepth_le_iff {args : List Expr} {n : Nat} :
    Expr.argsDepth args ≤ n ↔ ∀ a ∈ args, a.depth + 1 ≤ n := by
  induction args with
  | nil => simp [Expr.argsDepth]
  | cons a rest ih => simp only [Expr.argsDepth, Nat.max_le, ih, List.forall_mem_cons]

theorem Stmt.allDepth_le_iff {ss : List Stmt} {n : Nat} :
    Stmt.allDepth ss ≤ n ↔ ∀ s ∈ ss, s.depth true ≤ n := by
  induction ss with
  | nil => simp [Stmt.allDepth]
  | cons s rest ih => simp only [Stmt.allDepth, Nat.max_le, ih, List.forall_mem_cons]

/-- Read where declarations are, a statement takes at most one level more. -/
theorem Stmt.depth_true_le (s : Stmt) : s.depth true ≤ s.depth false + 1 := by
  cases s <;> simp [Stmt.depth]

theorem Expr.optDepth_le {o : Option Expr} {n : Nat} (h : ∀ e, o = some e → e.depth < n) :
    Expr.optDepth o ≤ n := by
  cases o with
  | none => simp [Expr.optDepth]
  | some e => exact h e rfl

theorem Stmt.elseDepth_le {o : Option Stmt} {n : Nat}
    (h : ∀ s, o = some s → s.depth false < n) : Stmt.elseDepth o ≤ n := by
  cases o with
  | none => simp [Stmt.elseDepth]
  | some s => exact h s rfl

/-! ## Parsers within a budget -/

/-- A parser reads only trees that nest less than `n` levels deep. -/
def Nests {α : Type} (depth : α → Nat) (n : Nat) (p : Parser α) : Prop :=
  ∀ ts s, p ts = .ok s → depth s.value < n

/-- With no nesting budget left, nothing is read. -/
theorem nests_tooDeep {α : Type} (depth : α → Nat) (eof : Token) (n : Nat) :
    Nests depth n (tooDeep eof) := by
  intro ts s h
  simp [tooDeep] at h

section Optional

variable {α : Type} {depth : α → Nat} {n : Nat} {p : Parser α}

theorem after?_nests (hp : Nests depth n p) {kind : TokenKind} {ts : List Token}
    {s : Tail ts (Option α)} (h : after? kind p ts = .ok s) :
    ∀ v, s.value = some v → depth v < n := by
  cases ts with
  | nil =>
      rw [after?] at h
      obtain rfl := Except.ok.inj h
      simp
  | cons t rest =>
      rw [after?] at h
      split at h
      · obtain ⟨⟨v, r, hr⟩, hv, h⟩ := bind_eq_ok.1 h
        obtain rfl := Except.ok.inj h
        intro w hw
        obtain rfl := Option.some.inj hw
        exact hp rest _ hv
      · obtain rfl := Except.ok.inj h
        simp

theorem unless?_nests (hp : Nests depth n p) {absent : List Token → Bool} {ts : List Token}
    {s : Tail ts (Option α)} (h : unless? absent p ts = .ok s) :
    ∀ v, s.value = some v → depth v < n := by
  unfold unless? at h
  split at h
  · obtain rfl := Except.ok.inj h
    simp
  · obtain ⟨⟨v, r, hr⟩, hv, h⟩ := bind_eq_ok.1 h
    obtain rfl := Except.ok.inj h
    intro w hw
    obtain rfl := Option.some.inj hw
    exact hp ts _ hv

end Optional

/-! ## Expressions -/

section Chain

variable {n : Nat} {operand : Parser Expr} {combine : TokenKind → Option (Expr → Expr → Expr)}

/-- An operator joins operands within the budget into a node within it. -/
theorem chain_nests (hop : Nests Expr.depth n operand) (hc : Combines combine) (lhs : Expr)
    (ts : List Token) :
    lhs.depth < n → ∀ s, chain operand combine lhs ts = .ok s → s.value.depth < n := by
  induction lhs, ts using chain.induct combine with
  | case1 lhs =>
      intro hl s h
      rw [chain] at h
      obtain rfl := Except.ok.inj h
      exact hl
  | case2 lhs t tail hnone =>
      intro hl s h
      rw [chain] at h
      simp only [hnone] at h
      obtain rfl := Except.ok.inj h
      exact hl
  | case3 lhs t tail f hf ih =>
      intro hl s h
      rw [chain] at h
      simp only [hf] at h
      obtain ⟨⟨rhs, r, hr⟩, hrhs, h⟩ := bind_eq_ok.1 h
      obtain ⟨⟨e, r', hr'⟩, he, h⟩ := bind_eq_ok.1 h
      obtain rfl := Except.ok.inj h
      have hnode : (f lhs rhs).depth < n := by
        have hright := hop tail _ hrhs
        rw [(hc t.kind f hf lhs rhs).2]
        dsimp only at hright
        omega
      exact ih rhs r hr hnode _ he

theorem leftAssoc_nests (hop : Nests Expr.depth n operand) (hc : Combines combine) :
    Nests Expr.depth n (leftAssoc operand combine) := by
  intro ts s h
  unfold leftAssoc at h
  obtain ⟨⟨lhs, r, hr⟩, hl, h⟩ := bind_eq_ok.1 h
  obtain ⟨⟨e, r', hr'⟩, he, h⟩ := bind_eq_ok.1 h
  obtain rfl := Except.ok.inj h
  exact chain_nests hop hc lhs r (hop ts _ hl) _ he

end Chain

section Calls

variable {n : Nat} {inner : Level} (hexpr : Nests Expr.depth n inner.expr)
include hexpr

theorem primary_nests : Nests Expr.depth (n + 1) (primary inner) := by
  intro ts s h
  cases ts with
  | nil => simp [primary] at h
  | cons t rest =>
      rw [primary] at h
      split at h
      -- a literal, a name or `in` nests no level deep
      any_goals
        obtain rfl := Except.ok.inj h
        exact Nat.succ_pos n
      -- the expression inside parentheses is read one level down
      · obtain ⟨⟨e, r, hr⟩, he, h⟩ := bind_eq_ok.1 h
        obtain ⟨⟨p, r', hr'⟩, hp, h⟩ := bind_eq_ok.1 h
        obtain rfl := Except.ok.inj h
        exact Nat.succ_lt_succ (hexpr rest _ he)
      · simp at h

/-- Each argument of a call is read one level down. -/
theorem argumentsFrom_nests (done : Array Expr) (ts : List Token) :
    (∀ a ∈ done.toList, a.depth < n) →
      ∀ s, argumentsFrom inner done ts = .ok s → ∀ a ∈ s.value, a.depth < n := by
  induction done, ts using argumentsFrom.induct with
  | case1 done ts hfull =>
      intro _ s h
      rw [argumentsFrom, if_pos hfull] at h
      simp at h
  | case2 done ts hroom ih =>
      intro hdone s h
      rw [argumentsFrom, if_neg hroom] at h
      obtain ⟨⟨a, r, hr⟩, ha, h⟩ := bind_eq_ok.1 h
      have hpushed : ∀ b ∈ (done.push a).toList, b.depth < n := by
        intro b hb
        rw [Array.toList_push, List.mem_append, List.mem_singleton] at hb
        rcases hb with hb | rfl
        · exact hdone b hb
        · exact hexpr ts _ ha
      cases r with
      | nil =>
          obtain rfl := Except.ok.inj h
          exact hpushed
      | cons t rest =>
          dsimp only at h
          split at h
          · obtain ⟨⟨args, r', hr'⟩, hargs, h⟩ := bind_eq_ok.1 h
            obtain rfl := Except.ok.inj h
            exact ih a [] t rest hr hpushed _ hargs
          · obtain rfl := Except.ok.inj h
            exact hpushed

theorem arguments_nests {ts : List Token} {s : Tail ts (List Expr)}
    (h : arguments inner ts = .ok s) : ∀ a ∈ s.value, a.depth < n := by
  unfold arguments at h
  split at h
  · obtain rfl := Except.ok.inj h
    simp
  · exact argumentsFrom_nests hexpr #[] ts (by simp) s h

/-- A call nests as deep as its callee, or one level deeper than an argument. -/
theorem callsAfter_nests (callee : Expr) (ts : List Token) :
    callee.depth < n + 1 →
      ∀ s, callsAfter inner callee ts = .ok s → s.value.depth < n + 1 := by
  induction callee, ts using callsAfter.induct with
  | case1 callee =>
      intro hc s h
      rw [callsAfter] at h
      obtain rfl := Except.ok.inj h
      exact hc
  | case2 callee t tail hlp ih =>
      intro hc s h
      rw [callsAfter, if_pos hlp] at h
      obtain ⟨⟨args, r, hr⟩, ha, h⟩ := bind_eq_ok.1 h
      obtain ⟨⟨paren, r2, hr2⟩, hp, h⟩ := bind_eq_ok.1 h
      obtain ⟨⟨e, r3, hr3⟩, he, h⟩ := bind_eq_ok.1 h
      obtain rfl := Except.ok.inj h
      have hargs : Expr.argsDepth args ≤ n := Expr.argsDepth_le_iff.2 (arguments_nests hexpr ha)
      refine ih args r hr paren r2 hr2 ?_ _ he
      simp only [Expr.depth]
      omega
  | case3 callee t tail hlp =>
      intro hc s h
      rw [callsAfter, if_neg hlp] at h
      obtain rfl := Except.ok.inj h
      exact hc

theorem call_nests : Nests Expr.depth (n + 1) (call inner) := by
  intro ts s h
  unfold call at h
  obtain ⟨⟨e, r, hr⟩, hp, h⟩ := bind_eq_ok.1 h
  obtain ⟨⟨e', r', hr'⟩, hc, h⟩ := bind_eq_ok.1 h
  obtain rfl := Except.ok.inj h
  exact callsAfter_nests hexpr e r (primary_nests hexpr ts _ hp) _ hc

variable (hoperand : Nests Expr.depth n inner.operand)
include hoperand

theorem unary_nests : Nests Expr.depth (n + 1) (unary inner) := by
  intro ts s h
  cases ts with
  | nil => exact call_nests hexpr [] s h
  | cons t rest =>
      rw [unary] at h
      cases hk : unaryOp? t.kind with
      | none =>
          simp only [hk] at h
          exact call_nests hexpr _ s h
      | some op =>
          -- the operand of a prefix operator is read one level down
          simp only [hk] at h
          obtain ⟨⟨e, r, hr⟩, he, h⟩ := bind_eq_ok.1 h
          obtain rfl := Except.ok.inj h
          exact Nat.succ_lt_succ (hoperand rest _ he)

theorem disjunction_nests : Nests Expr.depth (n + 1) (disjunction inner) := by
  rw [disjunction_eq_tower]
  -- the binary operators stay on the level of their operands
  have htower : ∀ k, Nests Expr.depth (n + 1) (tower inner k) := by
    intro k
    induction k with
    | zero => exact unary_nests hexpr hoperand
    | succ k ih => exact leftAssoc_nests ih (levelOps_combines _)
  exact htower 7

theorem assignment_nests : Nests Expr.depth (n + 1) (assignment inner) := by
  intro ts s h
  unfold assignment at h
  obtain ⟨⟨node, r, hr⟩, hn, h⟩ := bind_eq_ok.1 h
  have hnode := disjunction_nests hexpr hoperand ts _ hn
  cases r with
  | nil =>
      obtain rfl := Except.ok.inj h
      exact hnode
  | cons t rest =>
      dsimp only at h
      split at h
      · -- the assigned value is read one level down
        obtain ⟨⟨value, r', hr'⟩, hv, h⟩ := bind_eq_ok.1 h
        split at h
        · obtain rfl := Except.ok.inj h
          exact Nat.succ_lt_succ (hexpr rest _ hv)
        · simp at h
      · obtain rfl := Except.ok.inj h
        exact hnode

end Calls

/-! ## Statements -/

section Statements

variable {n : Nat} {inner : Level} (hexpr : Nests Expr.depth n inner.expr)
include hexpr

/-- An expression statement is its expression, read one level down. -/
theorem exprStatement_nests {ts : List Token} {v : Stmt} {r : List Token}
    {hr : r.length < ts.length} (h : exprStatement inner ts = .ok ⟨v, r, hr⟩) :
    ∃ e, v = .expr e ∧ e.depth < n := by
  unfold exprStatement at h
  obtain ⟨⟨e, r₀, hr₀⟩, he, h⟩ := bind_eq_ok.1 h
  obtain ⟨rfl, -⟩ := Step.mk.inj (Except.ok.inj h)
  exact ⟨e, rfl, hexpr ts _ he⟩

/-- A variable declaration, its initial value read one level down. -/
theorem varDeclaration_nests {ts : List Token} {v : Stmt} {r : List Token}
    {hr : r.length < ts.length} (h : varDeclaration inner ts = .ok ⟨v, r, hr⟩) :
    ∃ name init, v = .varDecl name init ∧ Expr.optDepth init ≤ n := by
  unfold varDeclaration at h
  obtain ⟨⟨name, r₁, hr₁⟩, hname, h⟩ := bind_eq_ok.1 h
  obtain ⟨⟨init, r₂, hr₂⟩, hinit, h⟩ := bind_eq_ok.1 h
  obtain ⟨rfl, -⟩ := Step.mk.inj (Except.ok.inj h)
  exact ⟨name, init, rfl, Expr.optDepth_le (after?_nests hexpr hinit)⟩

theorem forInit_nests {ts : List Token} {s : Tail ts (Option Stmt)}
    (h : forInit inner ts = .ok s) : Stmt.initDepth s.value ≤ n := by
  cases ts with
  | nil =>
      rw [forInit] at h
      obtain ⟨⟨st, r, hr⟩, hst, h⟩ := bind_eq_ok.1 h
      obtain rfl := Except.ok.inj h
      obtain ⟨e, rfl, he⟩ := exprStatement_nests hexpr hst
      exact he
  | cons t rest =>
      rw [forInit] at h
      split at h
      · obtain rfl := Except.ok.inj h
        exact Nat.zero_le n
      · split at h
        · obtain ⟨⟨st, r, hr⟩, hst, h⟩ := bind_eq_ok.1 h
          obtain rfl := Except.ok.inj h
          obtain ⟨name, init, rfl, hinit⟩ := varDeclaration_nests hexpr hst
          cases init with
          | none => exact Nat.zero_le n
          | some e => exact hinit
        · obtain ⟨⟨st, r, hr⟩, hst, h⟩ := bind_eq_ok.1 h
          obtain rfl := Except.ok.inj h
          obtain ⟨e, rfl, he⟩ := exprStatement_nests hexpr hst
          exact he

variable (hstmt : Nests (Stmt.depth false) n inner.stmt)
  (hblock : Nests Stmt.allDepth n inner.block)

omit hexpr in
include hblock in
/-- A function, its body read one level down. -/
theorem function_nests {ts : List Token} {v : Stmt} {r : List Token}
    {hr : r.length < ts.length} (h : function inner ts = .ok ⟨v, r, hr⟩) :
    ∃ name params body, v = .funDecl name params body ∧ Stmt.allDepth body < n := by
  unfold function at h
  obtain ⟨⟨name, r1, hr1⟩, hname, h⟩ := bind_eq_ok.1 h
  obtain ⟨⟨lp, r2, hr2⟩, hlp, h⟩ := bind_eq_ok.1 h
  obtain ⟨⟨params, r3, hr3⟩, hparams, h⟩ := bind_eq_ok.1 h
  obtain ⟨⟨rp, r4, hr4⟩, hrp, h⟩ := bind_eq_ok.1 h
  obtain ⟨⟨lb, r5, hr5⟩, hlb, h⟩ := bind_eq_ok.1 h
  obtain ⟨⟨body, r6, hr6⟩, hbody, h⟩ := bind_eq_ok.1 h
  obtain ⟨rfl, -⟩ := Step.mk.inj (Except.ok.inj h)
  exact ⟨name, params, body, rfl, hblock r5 _ hbody⟩

include hstmt

theorem ifStatement_nests : Nests (Stmt.depth false) (n + 1) (ifStatement inner) := by
  intro ts s h
  unfold ifStatement at h
  obtain ⟨⟨lp, r1, hr1⟩, hlp, h⟩ := bind_eq_ok.1 h
  obtain ⟨⟨c, r2, hr2⟩, hc, h⟩ := bind_eq_ok.1 h
  obtain ⟨⟨rp, r3, hr3⟩, hrp, h⟩ := bind_eq_ok.1 h
  obtain ⟨⟨th, r4, hr4⟩, hth, h⟩ := bind_eq_ok.1 h
  obtain ⟨⟨el, r5, hr5⟩, hel, h⟩ := bind_eq_ok.1 h
  obtain rfl := Except.ok.inj h
  have hcond : c.depth < n := hexpr r1 _ hc
  have hthen : th.depth false < n := hstmt r3 _ hth
  have helse : Stmt.elseDepth el ≤ n := Stmt.elseDepth_le (after?_nests hstmt hel)
  simp only [Stmt.depth, Bool.toNat_false]
  omega

theorem whileStatement_nests : Nests (Stmt.depth false) (n + 1) (whileStatement inner) := by
  intro ts s h
  unfold whileStatement at h
  obtain ⟨⟨lp, r1, hr1⟩, hlp, h⟩ := bind_eq_ok.1 h
  obtain ⟨⟨c, r2, hr2⟩, hc, h⟩ := bind_eq_ok.1 h
  obtain ⟨⟨rp, r3, hr3⟩, hrp, h⟩ := bind_eq_ok.1 h
  obtain ⟨⟨body, r4, hr4⟩, hbody, h⟩ := bind_eq_ok.1 h
  obtain rfl := Except.ok.inj h
  have hcond : c.depth < n := hexpr r1 _ hc
  have hloop : body.depth false < n := hstmt r3 _ hbody
  simp only [Stmt.depth, Bool.toNat_false]
  omega

theorem forStatement_nests : Nests (Stmt.depth false) (n + 1) (forStatement inner) := by
  intro ts s h
  unfold forStatement at h
  obtain ⟨⟨lp, r1, hr1⟩, hlp, h⟩ := bind_eq_ok.1 h
  obtain ⟨⟨init, r2, hr2⟩, hinit, h⟩ := bind_eq_ok.1 h
  obtain ⟨⟨c, r3, hr3⟩, hc, h⟩ := bind_eq_ok.1 h
  obtain ⟨⟨semi, r4, hr4⟩, hsemi, h⟩ := bind_eq_ok.1 h
  obtain ⟨⟨incr, r5, hr5⟩, hincr, h⟩ := bind_eq_ok.1 h
  obtain ⟨⟨rp, r6, hr6⟩, hrp, h⟩ := bind_eq_ok.1 h
  obtain ⟨⟨body, r7, hr7⟩, hbody, h⟩ := bind_eq_ok.1 h
  obtain rfl := Except.ok.inj h
  have hstart : Stmt.initDepth init ≤ n := forInit_nests hexpr hinit
  have hcond : Expr.optDepth c ≤ n := Expr.optDepth_le (unless?_nests hexpr hc)
  have hstep : Expr.optDepth incr ≤ n := Expr.optDepth_le (unless?_nests hexpr hincr)
  have hloop : body.depth false < n := hstmt r6 _ hbody
  simp only [Stmt.depth, Bool.toNat_false]
  omega

include hblock

theorem statement_nests : Nests (Stmt.depth false) (n + 1) (statement inner) := by
  intro ts s h
  cases ts with
  | nil =>
      obtain ⟨v, r, hr⟩ := s
      obtain ⟨e, rfl, he⟩ := exprStatement_nests hexpr h
      simp only [Stmt.depth, Bool.toNat_false]
      omega
  | cons t rest =>
      rw [statement] at h
      split at h
      · obtain ⟨st, hst, rfl⟩ := map_eq_ok.1 h
        exact ifStatement_nests hexpr hstmt rest st hst
      · obtain ⟨st, hst, rfl⟩ := map_eq_ok.1 h
        exact whileStatement_nests hexpr hstmt rest st hst
      · obtain ⟨st, hst, rfl⟩ := map_eq_ok.1 h
        exact forStatement_nests hexpr hstmt rest st hst
      · -- the value of `return` is read one level down
        obtain ⟨⟨v, r, hr⟩, hv, h⟩ := bind_eq_ok.1 h
        obtain rfl := Except.ok.inj h
        have hvalue : Expr.optDepth v ≤ n := Expr.optDepth_le (unless?_nests hexpr hv)
        simp only [Stmt.depth, Bool.toNat_false]
        omega
      · obtain ⟨⟨e, r, hr⟩, he, h⟩ := bind_eq_ok.1 h
        obtain rfl := Except.ok.inj h
        have hout : e.depth < n := hexpr rest _ he
        simp only [Stmt.depth, Bool.toNat_false]
        omega
      · -- a block's declarations are read one level down
        obtain ⟨⟨b, r, hr⟩, hb, h⟩ := bind_eq_ok.1 h
        obtain rfl := Except.ok.inj h
        have hbody : Stmt.allDepth b < n := hblock rest _ hb
        simp only [Stmt.depth, Bool.toNat_false]
        omega
      · obtain ⟨v, r, hr⟩ := s
        obtain ⟨e, rfl, he⟩ := exprStatement_nests hexpr h
        simp only [Stmt.depth, Bool.toNat_false]
        omega

/-- A declaration read with `n` levels below it nests at most `n` deep: a statement is read one
level down, where it takes one level more as a declaration. -/
theorem declaration_nests : Nests (Stmt.depth true) (n + 1) (declaration inner) := by
  intro ts s h
  cases ts with
  | nil =>
      have hs : s.value.depth false < n := hstmt [] s h
      have := s.value.depth_true_le
      omega
  | cons t rest =>
      rw [declaration] at h
      split at h
      · obtain ⟨⟨v, r, hr⟩, hst, rfl⟩ := map_eq_ok.1 h
        obtain ⟨name, params, body, rfl, hbody⟩ := function_nests hblock hst
        show Stmt.depth true (.funDecl name params body) < n + 1
        simp only [Stmt.depth]
        omega
      · split at h
        · obtain ⟨⟨v, r, hr⟩, hst, rfl⟩ := map_eq_ok.1 h
          obtain ⟨name, init, rfl, hinit⟩ := varDeclaration_nests hexpr hst
          show Stmt.depth true (.varDecl name init) < n + 1
          simp only [Stmt.depth]
          omega
        · have hs : s.value.depth false < n := hstmt _ s h
          have := s.value.depth_true_le
          omega

/-- The declarations of a block are read with the budget of the block. -/
theorem blockBody_nests (done : Array Stmt) (ts : List Token) :
    (∀ d ∈ done.toList, d.depth true < n + 1) →
      ∀ s, blockBody inner done ts = .ok s → ∀ d ∈ s.value, d.depth true < n + 1 := by
  induction done, ts using blockBody.induct with
  | case1 done =>
      intro _ s h
      simp [blockBody] at h
  | case2 done t tail hclose =>
      intro hdone s h
      rw [blockBody, if_pos hclose] at h
      obtain rfl := Except.ok.inj h
      exact hdone
  | case3 done t tail hopen ih =>
      intro hdone s h
      rw [blockBody, if_neg hopen] at h
      obtain ⟨⟨st, r, hr⟩, hst, h⟩ := bind_eq_ok.1 h
      obtain ⟨⟨ss, r', hr'⟩, hss, h⟩ := bind_eq_ok.1 h
      obtain rfl := Except.ok.inj h
      refine ih st r hr ?_ _ hss
      intro d hd
      rw [Array.toList_push, List.mem_append, List.mem_singleton] at hd
      rcases hd with hd | rfl
      · exact hdone d hd
      · exact declaration_nests hexpr hstmt hblock _ _ hst

end Statements

/-! ## Every level of nesting -/

/-- The parsers of a level with `n` levels left read trees that nest less than `n` deep. -/
structure Level.Nested (inner : Level) (n : Nat) : Prop where
  expr : Nests Expr.depth n inner.expr
  stmt : Nests (Stmt.depth false) n inner.stmt
  block : Nests Stmt.allDepth n inner.block
  operand : Nests Expr.depth n inner.operand

theorem Level.Nested.declaration {inner : Level} {n : Nat} (h : inner.Nested n) :
    Nests (Stmt.depth true) (n + 1) (declaration inner) :=
  declaration_nests h.expr h.stmt h.block

/-- The parsers with `n` levels of nesting left read trees that nest less than `n` deep. -/
theorem level_nested (eof : Token) : (budget : Nat) → (level eof budget).Nested budget
  | 0 => ⟨nests_tooDeep _ eof 0, nests_tooDeep _ eof 0, nests_tooDeep _ eof 0,
      nests_tooDeep _ eof 0⟩
  | n + 1 =>
      have ih := level_nested eof n
      ⟨assignment_nests ih.expr ih.operand, statement_nests ih.expr ih.stmt ih.block,
        fun ts s h => by
          have hall := blockBody_nests ih.expr ih.stmt ih.block #[] ts (by simp) s h
          exact Nat.lt_succ_of_le
            (Stmt.allDepth_le_iff.2 fun d hd => Nat.le_of_lt_succ (hall d hd)),
        unary_nests ih.expr ih.operand⟩

/-- The declarations of a program stay within the budget of the parser that reads them. -/
theorem declarations_allDepth_le {top : Level} {n : Nat}
    (htop : Nests (Stmt.depth true) (n + 1) (declaration top)) (done : Array Stmt)
    (ts : List Token) :
    (∀ d ∈ done.toList, d.depth true ≤ n) →
      ∀ prog, declarations top done ts = .ok prog → Stmt.allDepth prog ≤ n := by
  induction done, ts using declarations.induct with
  | case1 done =>
      intro hdone prog h
      rw [declarations] at h
      obtain rfl := Except.ok.inj h
      exact Stmt.allDepth_le_iff.2 hdone
  | case2 done t tail ih =>
      intro hdone prog h
      rw [declarations] at h
      obtain ⟨s, hs, h⟩ := bind_eq_ok.1 h
      refine ih s ?_ prog h
      intro d hd
      rw [Array.toList_push, List.mem_append, List.mem_singleton] at hd
      rcases hd with hd | rfl
      · exact hdone d hd
      · exact Nat.le_of_lt_succ (htop _ s hs)

/-- Parsing stops on every token list. Every parser is built from those one nesting level down,
and with no level left none reads anything; within a level every loop runs on fewer tokens each
round, because every successful parse consumes what it reads. At every nesting budget, the
expression, statement and declaration parsers that succeed read a nonempty prefix of their
input, with at least as many tokens as the tree they return has nodes, and leave the rest; a
block reads one token more, its closing brace. So each round of a loop over operators, calls,
arguments, parameters, block statements or declarations consumes a token. What they read nests
within the budget. A program read from a token list has no more declarations than nodes, no
more nodes than the tokens before the first end-of-input token, and nests at most 100 levels
deep. -/
theorem parsing_consumes_within_budget (eof : Token) (budget : Nat) (ts : List Token) :
    (∀ s, (level eof budget).expr ts = .ok s →
      (∃ pre, pre ≠ [] ∧ ts = pre ++ s.rest ∧ s.value.size ≤ pre.length) ∧
        s.value.depth < budget) ∧
    (∀ s, (level eof budget).stmt ts = .ok s →
      (∃ pre, pre ≠ [] ∧ ts = pre ++ s.rest ∧ s.value.size ≤ pre.length) ∧
        s.value.depth false < budget) ∧
    (∀ s, declaration (level eof budget) ts = .ok s →
      (∃ pre, pre ≠ [] ∧ ts = pre ++ s.rest ∧ s.value.size ≤ pre.length) ∧
        s.value.depth true ≤ budget) ∧
    (∀ s, (level eof budget).block ts = .ok s →
      (∃ pre, ts = pre ++ s.rest ∧ Stmt.sizes s.value + 1 ≤ pre.length) ∧
        Stmt.allDepth s.value < budget) ∧
    (∀ prog, parseTokens ts = .ok prog →
      prog.length ≤ Stmt.sizes prog ∧
        Stmt.sizes prog ≤ (ts.takeWhile (·.kind ≠ .eof)).length ∧
        Stmt.allDepth prog ≤ maxDepth) := by
  have hc := level_consuming eof budget
  have hn := level_nested eof budget
  -- a tree has a node, so reading it consumes a token
  refine ⟨fun s h => ⟨(hc.expr ts s h).exists_ne_nil s.value.size_pos, hn.expr ts s h⟩,
    fun s h => ⟨(hc.stmt ts s h).exists_ne_nil s.value.size_pos, hn.stmt ts s h⟩,
    fun s h => ⟨(hc.declaration ts s h).exists_ne_nil s.value.size_pos,
      Nat.le_of_lt_succ (hn.declaration ts s h)⟩,
    fun s h => ⟨hc.block ts s h, hn.block ts s h⟩,
    fun prog h => ⟨Stmt.length_le_sizes prog, ?_, ?_⟩⟩
  · simpa using declarations_size_le (level_consuming _ maxDepth) #[] _ prog h
  · exact declarations_allDepth_le (level_nested _ maxDepth).declaration #[] _ (by simp) prog h

end ByteMachine.Source

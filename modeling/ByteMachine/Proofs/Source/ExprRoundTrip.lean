import ByteMachine.Proofs.Source.Printer
import ByteMachine.Proofs.Except

/-!
# Reading printed expressions back

The parser reads an expression through nine precedence levels: an assignment, seven levels of
left-associative binary operators from disjunction to factors, prefix operators, and calls over
primary expressions. The binary levels are one tower of `leftAssoc` parsers (`tower`), so that
one statement about a level covers all seven.

Printing an expression and reading it back gives the expression, and the reader stops exactly
after it, when the tokens that follow cannot continue it: no `(` (which would start a call), no
operator of a level the reader is still at, and for a whole expression no `=`. The statement
about the binary levels is carried by the left spine of a chain: the printed left operand,
followed by the operator, is read as the start of the same chain (`ExprSpec.spine`).

## Main statements

* `exprSpec`: every expression has the properties of `ExprSpec`.
* `assignment_print`: a well-formed expression is read back by the expression parser.
-/

namespace ByteMachine.Source

/-! ## Runs of the parser -/

/-- A parser run that reads `v` and leaves `r`. -/
def Reads {α : Type} {ts : List Token} (x : Except SyntaxError (Step ts α)) (v : α)
    (r : List Token) : Prop :=
  ∃ h, x = .ok ⟨v, r, h⟩

/-- A run that may read nothing, reading `v` and leaving `r`. -/
def ReadsTail {α : Type} {ts : List Token} (x : Except SyntaxError (Tail ts α)) (v : α)
    (r : List Token) : Prop :=
  ∃ h, x = .ok ⟨v, r, h⟩

/-! ## The binary levels -/

/-- The operators of each binary level, from disjunction at 1 to factors at 7. -/
def levelOps : Nat → TokenKind → Option (Expr → Expr → Expr)
  | 1 => orOp
  | 2 => andOp
  | 3 => equalityOp
  | 4 => comparisonOp
  | 5 => bitwiseOp
  | 6 => termOp
  | 7 => factorOp
  | _ => fun _ => none

/-- The parser of the `n` tightest binary levels over prefix expressions: level `n + 1` reads
the operators of precedence `7 - n`. -/
def tower (inner : Level) : Nat → Parser Expr
  | 0 => unary inner
  | n + 1 => leftAssoc (tower inner n) (levelOps (7 - n))

theorem disjunction_eq_tower (inner : Level) : disjunction inner = tower inner 7 := rfl

/-- A binary level reads an operator only at a token of its own level, and the operator joins
its operands under a binary or a short-circuit node. -/
theorem levelOps_eq_some {q : Nat} {k : TokenKind} {f : Expr → Expr → Expr}
    (h : levelOps q k = some f) :
    k.binaryLevel = q ∧
      ∀ l r, (∃ op, f l r = .binary op l r) ∨ ∃ op, f l r = .logical op l r := by
  -- each level's table names its operators by kind and reads nothing at any other kind
  unfold levelOps at h
  split at h <;>
    simp only [orOp.eq_def, andOp.eq_def, equalityOp.eq_def, comparisonOp.eq_def,
      bitwiseOp.eq_def, termOp.eq_def, factorOp.eq_def, reduceCtorEq] at h <;>
    split at h <;> cases h <;> simp [TokenKind.binaryLevel]

theorem levelOps_eq_none {q : Nat} {k : TokenKind} (h : k.binaryLevel ≠ q) :
    levelOps q k = none := by
  cases hk : levelOps q k with
  | none => rfl
  | some f => exact absurd (levelOps_eq_some hk).1 h

theorem levelOps_binOp (op : BinOp) : levelOps op.prec op.token.kind = some (.binary op) := by
  cases op <;> rfl

theorem levelOps_logicOp (op : LogicOp) :
    levelOps op.prec op.token.kind = some (.logical op) := by
  cases op <;> rfl

@[simp] theorem BinOp.binaryLevel_token (op : BinOp) : op.token.kind.binaryLevel = op.prec := by
  cases op <;> rfl

@[simp] theorem LogicOp.binaryLevel_token (op : LogicOp) :
    op.token.kind.binaryLevel = op.prec := by
  cases op <;> rfl

theorem BinOp.prec_pos (op : BinOp) : 3 ≤ op.prec ∧ op.prec ≤ 7 := by
  cases op <;> decide

theorem LogicOp.prec_pos (op : LogicOp) : 1 ≤ op.prec ∧ op.prec ≤ 2 := by
  cases op <;> decide

@[simp] theorem unaryOp?_token (op : UnaryOp) : unaryOp? op.token.kind = some op := by
  cases op <;> rfl

/-! ## Where an expression stops -/

/-- The tokens after an expression read at binary level `p` or tighter cannot continue it: they
start neither a call nor an operator of level `p` or above. -/
def StopsAt (p : Nat) : List Token → Prop
  | [] => True
  | t :: _ => t.kind ≠ .leftParen ∧ t.kind.binaryLevel < p

/-- The tokens after a whole expression cannot continue it: no call, no binary operator and
no `=`. -/
def EndsExpr : List Token → Prop
  | [] => True
  | t :: _ => t.kind ≠ .leftParen ∧ t.kind.binaryLevel = 0 ∧ t.kind ≠ .equal

theorem StopsAt.mono {p q : Nat} {rest : List Token} (h : StopsAt p rest) (hpq : p ≤ q) :
    StopsAt q rest := by
  cases rest with
  | nil => trivial
  | cons t r => exact ⟨h.1, by have := h.2; omega⟩

theorem EndsExpr.stopsAt {rest : List Token} (h : EndsExpr rest) (p : Nat) (hp : 1 ≤ p) :
    StopsAt p rest := by
  cases rest with
  | nil => trivial
  | cons t r => exact ⟨h.1, by have := h.2.1; omega⟩

/-- A chain at level `q` ends at tokens that stop it. -/
theorem chain_stop (operand : Parser Expr) {q : Nat} (lhs : Expr) {rest : List Token}
    (h : StopsAt q rest) :
    ReadsTail (chain operand (levelOps q) lhs rest) lhs rest := by
  cases rest with
  | nil => exact ⟨_, by rw [chain]⟩
  | cons t r =>
      have hnone : levelOps q t.kind = none := levelOps_eq_none (by have := h.2; omega)
      exact ⟨_, by rw [chain, hnone]⟩

/-- Calls end at tokens that open none. -/
theorem callsAfter_stop (inner : Level) (e : Expr) {rest : List Token}
    (h : StopsAt 8 rest) : ReadsTail (callsAfter inner e rest) e rest := by
  cases rest with
  | nil => exact ⟨_, by rw [callsAfter]⟩
  | cons t r => exact ⟨_, by rw [callsAfter, if_neg h.1]⟩

theorem TokenKind.unaryOp?_of_startsPrimary {k : TokenKind} (h : k.startsPrimary = true) :
    unaryOp? k = none := by
  revert h
  cases k <;> decide

theorem TokenKind.startsExpr_of_startsPrimary {k : TokenKind} (h : k.startsPrimary = true) :
    k.startsExpr = true := by
  revert h
  cases k <;> decide

theorem TokenKind.ne_rightParen_of_startsExpr {k : TokenKind} (h : k.startsExpr = true) :
    k ≠ .rightParen := by
  rintro rfl
  exact absurd h (by decide)

theorem endsExpr_cons {t : Token} (rest : List Token)
    (h : t.kind = .rightParen ∨ t.kind = .comma ∨ t.kind = .semicolon) :
    EndsExpr (t :: rest) := by
  show t.kind ≠ .leftParen ∧ t.kind.binaryLevel = 0 ∧ t.kind ≠ .equal
  rcases h with h | h | h <;> rw [h] <;> decide

/-! ## One step of a parser -/

@[simp] theorem level_eof (eof : Token) (m : Nat) : (level eof m).eof = eof := by
  cases m <;> rfl

theorem level_expr (eof : Token) (m : Nat) : (level eof (m + 1)).expr = assignment (level eof m) :=
  rfl

theorem level_operand (eof : Token) (m : Nat) :
    (level eof (m + 1)).operand = tower (level eof m) 0 :=
  rfl

theorem expect_reads (eof : Token) (kind : TokenKind) (reason : String) {t : Token}
    (rest : List Token) (h : t.kind = kind) : Reads (expect eof kind reason (t :: rest)) t rest :=
  ⟨_, by rw [expect, if_pos h]⟩

/-- An operator of the level continues a chain with the operand read after it. -/
theorem chain_cons {operand : Parser Expr} {combine : TokenKind → Option (Expr → Expr → Expr)}
    {f : Expr → Expr → Expr} {lhs rhs v : Expr} {t : Token} {rest r r' : List Token}
    (hop : combine t.kind = some f) (hrhs : Reads (operand rest) rhs r)
    (hnext : ReadsTail (chain operand combine (f lhs rhs) r) v r') :
    ReadsTail (chain operand combine lhs (t :: rest)) v r' := by
  obtain ⟨h₁, hR⟩ := hrhs
  obtain ⟨h₂, hN⟩ := hnext
  refine ⟨by simp only [List.length_cons]; omega, ?_⟩
  rw [chain, hop]
  simp only [hR, hN, ok_bind]
  rfl

/-- An argument list in parentheses continues a chain of calls. -/
theorem callsAfter_cons {inner : Level} {callee v : Expr} {lp paren : Token} {args : List Expr}
    {ts rest r : List Token} (hlp : lp.kind = .leftParen)
    (hargs : ReadsTail (arguments inner ts) args (paren :: rest))
    (hparen : paren.kind = .rightParen)
    (hnext : ReadsTail (callsAfter inner (.call callee paren args) rest) v r) :
    ReadsTail (callsAfter inner callee (lp :: ts)) v r := by
  obtain ⟨h₁, hA⟩ := hargs
  obtain ⟨h₂, hP⟩ :=
    expect_reads inner.eof .rightParen "Expect ')' after arguments." rest hparen
  obtain ⟨h₃, hN⟩ := hnext
  refine ⟨by simp only [List.length_cons] at h₁ ⊢; omega, ?_⟩
  rw [callsAfter, if_pos hlp]
  simp only [hA, hP, hN, ok_bind]
  rfl

/-! ## What reading an expression back means at each level -/

section Properties

variable (eof : Token) (e : Expr)

/-- Level `n` of the tower reads the printed expression and stops before what follows. -/
def TowerReads (n : Nat) : Prop :=
  ∀ m rest, e.WellFormed → e.depth ≤ m → StopsAt (8 - n) rest →
    Reads (tower (level eof m) n (e.print ++ rest)) e rest

/-- Level `n + 1` of the tower reads the printed expression as the start of a chain of its
operators: what the chain goes on to read from the expression is what the level reads. -/
def SpineReads (n : Nat) : Prop :=
  ∀ m rest v r, e.WellFormed → e.depth ≤ m → StopsAt (8 - n) rest →
    ReadsTail (chain (tower (level eof m) n) (levelOps (7 - n)) e rest) v r →
    Reads (tower (level eof m) (n + 1) (e.print ++ rest)) v r

/-- The expression parser reads the printed expression back. -/
def ExprReads : Prop :=
  ∀ m rest, e.WellFormed → e.depth ≤ m → EndsExpr rest →
    Reads (assignment (level eof m) (e.print ++ rest)) e rest

/-- The call level reads the printed expression as the start of a chain of calls. -/
def CallReads : Prop :=
  ∀ m rest v r, e.WellFormed → e.depth ≤ m →
    ReadsTail (callsAfter (level eof m) e rest) v r →
    Reads (call (level eof m) (e.print ++ rest)) v r

/-- A printed expression starts with a token that can start one, a call or primary expression
with one that starts a primary expression. -/
def StartsWell : Prop :=
  e.WellFormed → ∃ t ts, e.print = t :: ts ∧ t.kind.startsExpr = true ∧
    (9 ≤ e.prec → t.kind.startsPrimary = true)

/-- Everything the round trip of an expression needs, at every level that can read it. -/
structure ExprSpec : Prop where
  head : StartsWell e
  tower : ∀ n, n ≤ 7 → 8 - n ≤ e.prec → TowerReads eof e n
  spine : ∀ n, n < 7 → 7 - n ≤ e.prec → SpineReads eof e n
  expr : ExprReads eof e
  calls : 9 ≤ e.prec → CallReads eof e

end Properties

section Generic

variable {eof : Token} {e : Expr}

/-- A chain that stops at once: the next level reads what the level below read. -/
theorem SpineReads.succ {n : Nat} (hs : SpineReads eof e n) : TowerReads eof e (n + 1) := by
  intro m rest hwf hd hstop
  have hstop' : StopsAt (7 - n) rest := by
    have : 8 - (n + 1) = 7 - n := by omega
    rwa [this] at hstop
  exact hs m rest e rest hwf hd (hstop'.mono (by omega)) (chain_stop _ e hstop')

/-- An expression read whole by a level starts a chain of the level above. -/
theorem TowerReads.spine {n : Nat} (ht : TowerReads eof e n) : SpineReads eof e n := by
  intro m rest v r hwf hd hstop hchain
  obtain ⟨h₁, hT⟩ := ht m rest hwf hd hstop
  obtain ⟨h₂, hC⟩ := hchain
  refine ⟨by omega, ?_⟩
  show leftAssoc (tower (level eof m) n) (levelOps (7 - n)) (e.print ++ rest) = _
  simp only [leftAssoc, hT, hC, ok_bind]
  rfl

/-- What the primary level reads, the call level reads as the start of a chain of calls. -/
theorem CallReads.of_primary
    (hp : ∀ m rest, e.WellFormed → e.depth ≤ m →
      Reads (primary (level eof m) (e.print ++ rest)) e rest) :
    CallReads eof e := by
  intro m rest v r hwf hd hcalls
  obtain ⟨h₁, hP⟩ := hp m rest hwf hd
  obtain ⟨h₂, hC⟩ := hcalls
  refine ⟨by omega, ?_⟩
  simp only [call, hP, hC, ok_bind]
  rfl

/-- A call or primary expression is read whole by the prefix level. -/
theorem CallReads.tower_zero (hc : CallReads eof e) (hhead : StartsWell e) (h9 : 9 ≤ e.prec) :
    TowerReads eof e 0 := by
  intro m rest hwf hd hstop
  obtain ⟨t, ts, hprint, -, hprim⟩ := hhead hwf
  obtain ⟨h₁, hC⟩ := hc m rest e rest hwf hd (callsAfter_stop _ e hstop)
  refine ⟨h₁, ?_⟩
  show unary (level eof m) (e.print ++ rest) = _
  rw [← hC, hprint, List.cons_append, unary,
    TokenKind.unaryOp?_of_startsPrimary (hprim h9)]

/-- What the whole tower reads, the expression parser reads when no `=` follows. -/
theorem TowerReads.expr (ht : TowerReads eof e 7) : ExprReads eof e := by
  intro m rest hwf hd hend
  obtain ⟨h₁, hT⟩ := ht m rest hwf hd (hend.stopsAt 1 (Nat.le_refl 1))
  refine ⟨h₁, ?_⟩
  simp only [assignment, disjunction_eq_tower, hT, ok_bind]
  cases rest with
  | nil => rfl
  | cons t r =>
      simp only [if_neg hend.2.2]
      rfl

/-- The properties of an expression that binds at some level, from what holds at its own
level: the tower reads it at every level from its own up, and starts chains above it. -/
theorem ExprSpec.of_level (hhead : StartsWell e) (hprec : 1 ≤ e.prec)
    (hlow : ∀ n, n < 7 → 7 - n = e.prec → SpineReads eof e n)
    (h0 : 8 ≤ e.prec → TowerReads eof e 0) (hcalls : 9 ≤ e.prec → CallReads eof e) :
    ExprSpec eof e := by
  have htower : ∀ n, n ≤ 7 → 8 - n ≤ e.prec → TowerReads eof e n := by
    intro n
    induction n with
    | zero => exact fun _ h => h0 (by omega)
    | succ n ih =>
        intro hn hp
        by_cases hlev : 7 - n = e.prec
        · exact (hlow n (by omega) hlev).succ
        · exact (ih (by omega) (by omega)).spine.succ
  refine ⟨hhead, htower, fun n hn hp => ?_, (htower 7 (Nat.le_refl 7) (by omega)).expr, hcalls⟩
  by_cases hlev : 7 - n = e.prec
  · exact hlow n hn hlev
  · exact (htower n (by omega) (by omega)).spine

end Generic

/-! ## Each kind of expression -/

section Constructors

variable {eof : Token}

/-- A call or primary expression has every property once the primary level reads it. -/
theorem ExprSpec.of_primary {e : Expr} (h9 : e.prec = 9) (hhead : StartsWell e)
    (hp : ∀ m rest, e.WellFormed → e.depth ≤ m →
      Reads (primary (level eof m) (e.print ++ rest)) e rest) :
    ExprSpec eof e :=
  have hc : CallReads eof e := CallReads.of_primary hp
  ExprSpec.of_level hhead (by omega) (fun _ _ h => absurd h (by omega))
    (fun _ => hc.tower_zero hhead (by omega)) (fun _ => hc)

/-- A primary expression of one token. -/
theorem ExprSpec.of_token {e : Expr} {t : Token} (hprint : e.print = [t]) (h9 : e.prec = 9)
    (hstart : e.WellFormed → t.kind.startsPrimary = true)
    (hprim : ∀ inner rest, e.WellFormed → Reads (primary inner (t :: rest)) e rest) :
    ExprSpec eof e :=
  ExprSpec.of_primary h9
    (fun hwf => ⟨t, [], hprint, TokenKind.startsExpr_of_startsPrimary (hstart hwf),
      fun _ => hstart hwf⟩)
    (fun m rest hwf _ => by rw [hprint]; exact hprim _ rest hwf)

theorem num_spec (s : String) : ExprSpec eof (.num s) :=
  ExprSpec.of_token rfl rfl (fun _ => rfl) (fun _ _ _ => ⟨_, rfl⟩)

theorem str_spec (s : String) : ExprSpec eof (.str s) :=
  ExprSpec.of_token rfl rfl (fun _ => rfl) (fun _ _ _ => ⟨_, rfl⟩)

theorem input_spec : ExprSpec eof .input :=
  ExprSpec.of_token rfl rfl (fun _ => rfl) (fun _ _ _ => ⟨_, rfl⟩)

theorem bool_spec (b : Bool) : ExprSpec eof (.bool b) := by
  cases b with
  | false => exact ExprSpec.of_token rfl rfl (fun _ => rfl) (fun _ _ _ => ⟨_, rfl⟩)
  | true => exact ExprSpec.of_token rfl rfl (fun _ => rfl) (fun _ _ _ => ⟨_, rfl⟩)

theorem var_spec (name : Token) : ExprSpec eof (.var name) :=
  -- a well-formed variable is an identifier, which the primary level reads as a name
  ExprSpec.of_token rfl rfl (fun h => by rw [show name.kind = .identifier from h]; rfl)
    (fun _ rest h => ⟨by simp, by simp only [primary, show name.kind = .identifier from h]⟩)

theorem grouping_spec {x : Expr} (hx : ExprSpec eof x) : ExprSpec eof (.grouping x) := by
  refine ExprSpec.of_primary rfl (fun _ => ⟨_, _, rfl, rfl, fun _ => rfl⟩) ?_
  intro m rest hwf hd
  -- the parenthesised expression is read one nesting level deeper
  cases m with
  | zero => rw [Expr.depth_grouping] at hd; omega
  | succ m =>
      have hd' : x.depth ≤ m := by rw [Expr.depth_grouping] at hd; omega
      obtain ⟨h₁, hX⟩ := hx.expr m (mark .rightParen ")" :: rest) hwf hd'
        (endsExpr_cons rest (.inl rfl))
      obtain ⟨h₂, hP⟩ := expect_reads eof .rightParen "Expect ')' after expression." rest
        (mark_kind .rightParen ")")
      have hlist : (Expr.grouping x).print ++ rest =
          mark .leftParen "(" :: (x.print ++ mark .rightParen ")" :: rest) := by
        simp [Expr.print_grouping]
      rw [hlist]
      refine ⟨by simp only [List.length_append, List.length_cons] at h₁ ⊢; omega, ?_⟩
      simp only [primary, mark_kind, level_expr, level_eof, hX, hP, ok_bind]
      rfl

theorem unary_spec (op : UnaryOp) {x : Expr} (hx : ExprSpec eof x) :
    ExprSpec eof (.unary op x) := by
  have hprec : (Expr.unary op x).prec = 8 := rfl
  refine ExprSpec.of_level (fun _ => ⟨op.token, x.print, rfl, by cases op <;> rfl,
      fun h => absurd h (by omega)⟩) (by omega) (fun _ _ h => absurd h (by omega)) (fun _ => ?_)
    (fun h => absurd h (by omega))
  intro m rest hwf hd hstop
  obtain ⟨h8, hwx⟩ := hwf
  -- the operand is read one nesting level deeper
  cases m with
  | zero => rw [Expr.depth_unary] at hd; omega
  | succ m =>
      have hd' : x.depth ≤ m := by rw [Expr.depth_unary] at hd; omega
      obtain ⟨h₁, hX⟩ := hx.tower 0 (Nat.zero_le 7) h8 m rest hwx hd' hstop
      refine ⟨by simp only [Expr.print_unary, List.cons_append, List.length_cons]; omega, ?_⟩
      show unary (level eof (m + 1)) (op.token :: (x.print ++ rest)) = _
      rw [unary, unaryOp?_token]
      simp only [level_operand, hX, ok_bind]
      rfl

/-- A binary or logical operator between its operands: the chain of its level, started by the
left operand, reads the operator and the right operand and goes on from the whole. -/
theorem ExprSpec.of_operator {e l r : Expr} {tok : Token} {f : Expr → Expr → Expr} {p : Nat}
    (hprec : e.prec = p) (hp : 1 ≤ p ∧ p ≤ 7) (hprint : e.print = l.print ++ tok :: r.print)
    (hop : levelOps p tok.kind = some f) (hf : f l r = e) (hlevel : tok.kind.binaryLevel = p)
    (hwf : e.WellFormed → p ≤ l.prec ∧ p < r.prec ∧ l.WellFormed ∧ r.WellFormed)
    (hdepth : e.depth = max l.depth r.depth) (hl : ExprSpec eof l) (hr : ExprSpec eof r) :
    ExprSpec eof e := by
  have htok : tok.kind ≠ .leftParen := by
    intro h
    rw [h] at hlevel
    exact absurd hlevel (by show 0 ≠ p; omega)
  refine ExprSpec.of_level ?_ (by omega) ?_ (fun h => absurd h (by omega))
    (fun h => absurd h (by omega))
  · intro hw
    obtain ⟨t, ts, hlp, hst, -⟩ := hl.head (hwf hw).2.2.1
    exact ⟨t, ts ++ tok :: r.print, by rw [hprint, hlp, List.cons_append], hst,
      fun h => absurd h (by omega)⟩
  · intro n hn hlev m rest v r' hw hd hstop hchain
    obtain ⟨hpl, hpr, hwl, hwr⟩ := hwf hw
    rw [hdepth] at hd
    have hq : 7 - n = p := by omega
    rw [hprint, List.append_assoc, List.cons_append]
    refine hl.spine n hn (by omega) m _ v r' hwl (by omega) ⟨htok, by omega⟩ ?_
    rw [hq] at hchain ⊢
    exact chain_cons hop (hr.tower n (by omega) (by omega) m rest hwr (by omega) hstop)
      (hf ▸ hchain)

theorem binary_spec (op : BinOp) {l r : Expr} (hl : ExprSpec eof l) (hr : ExprSpec eof r) :
    ExprSpec eof (.binary op l r) :=
  ExprSpec.of_operator (p := op.prec) rfl ⟨by have := op.prec_pos; omega, op.prec_pos.2⟩ rfl
    (levelOps_binOp op) rfl (BinOp.binaryLevel_token op) id rfl hl hr

theorem logical_spec (op : LogicOp) {l r : Expr} (hl : ExprSpec eof l) (hr : ExprSpec eof r) :
    ExprSpec eof (.logical op l r) :=
  ExprSpec.of_operator (p := op.prec) rfl ⟨op.prec_pos.1, by have := op.prec_pos; omega⟩ rfl
    (levelOps_logicOp op) rfl (LogicOp.binaryLevel_token op) id rfl hl hr

theorem assign_spec (name : Token) {v : Expr} (hv : ExprSpec eof v) :
    ExprSpec eof (.assign name v) := by
  have hhead : StartsWell (.assign name v) := fun hwf =>
    ⟨name, _, rfl, by rw [hwf.1]; rfl, fun h => absurd h (by show ¬ 9 ≤ 0; omega)⟩
  refine ⟨hhead, fun _ _ h => absurd h (by show ¬ _ ≤ 0; omega),
    fun _ _ h => absurd h (by show ¬ _ ≤ 0; omega), ?_,
    fun h => absurd h (by show ¬ 9 ≤ 0; omega)⟩
  intro m rest hwf hd hend
  obtain ⟨hname, hwv⟩ := hwf
  -- the target is read as a whole disjunction, the value one nesting level deeper
  cases m with
  | zero => rw [Expr.depth_assign] at hd; omega
  | succ m =>
      have hd' : v.depth ≤ m := by rw [Expr.depth_assign] at hd; omega
      obtain ⟨h₁, hT⟩ := (var_spec name : ExprSpec eof _).tower 7 (Nat.le_refl 7)
        (by show 1 ≤ 9; omega) (m + 1)
        (mark .equal "=" :: (v.print ++ rest)) hname (Nat.zero_le _) ⟨nofun, by decide⟩
      obtain ⟨h₂, hV⟩ := hv.expr m rest hwv hd' hend
      have hlen : rest.length < ((Expr.assign name v).print ++ rest).length := by
        simp only [Expr.print_assign, List.cons_append, List.length_cons, List.length_append]
        omega
      refine ⟨hlen, ?_⟩
      show assignment (level eof (m + 1)) ((Expr.var name).print ++ (mark .equal "=" ::
        (v.print ++ rest))) = _
      rw [assignment]
      simp only [disjunction_eq_tower, hT, ok_bind, mark_kind, if_true, level_expr, hV]
      rfl

/-- Everything the round trip of an argument list needs. -/
structure ArgsSpec (eof : Token) (args : List Expr) : Prop where
  head : args ≠ [] → Expr.ArgsWellFormed args →
    ∃ t ts, Expr.printArgs args = t :: ts ∧ t.kind.startsExpr = true
  readsFrom : args ≠ [] → ∀ m (done : Array Expr) paren rest, Expr.ArgsWellFormed args →
    Expr.argsDepth args ≤ m → paren.kind = .rightParen → done.size + args.length ≤ 255 →
    ReadsTail (argumentsFrom (level eof m) done (Expr.printArgs args ++ paren :: rest))
      (done.toList ++ args) (paren :: rest)

theorem ArgsSpec.nil : ArgsSpec eof [] :=
  ⟨fun h => absurd rfl h, fun h => absurd rfl h⟩

theorem ArgsSpec.cons {a : Expr} {more : List Expr} (ha : ExprSpec eof a)
    (hmore : ArgsSpec eof more) : ArgsSpec eof (a :: more) := by
  constructor
  · intro _ hwa
    obtain ⟨t, ts, hp, hs, -⟩ := ha.head hwa.1
    cases more with
    | nil => exact ⟨t, ts, hp, hs⟩
    | cons b rest =>
        exact ⟨t, ts ++ mark .comma "," :: Expr.printArgs (b :: rest),
          by rw [Expr.printArgs_cons_cons, hp, List.cons_append], hs⟩
  · intro _ m done paren rest hwa hd hparen hlen
    obtain ⟨hwa, hwr⟩ := hwa
    have hsize : ¬ 255 ≤ done.size := by simp only [List.length_cons] at hlen; omega
    -- each argument is read one nesting level deeper
    cases m with
    | zero => rw [Expr.argsDepth_cons] at hd; omega
    | succ m =>
        have hda : a.depth ≤ m := by rw [Expr.argsDepth_cons] at hd; omega
        cases more with
        | nil =>
            obtain ⟨h₁, hA⟩ :=
              ha.expr m (paren :: rest) hwa hda (endsExpr_cons rest (.inl hparen))
            refine ⟨by simp, ?_⟩
            rw [argumentsFrom, if_neg hsize]
            simp only [level_expr, Expr.printArgs_singleton, hA, ok_bind, hparen, reduceCtorEq,
              if_false,
              Array.toList_push]
            rfl
        | cons b more =>
            obtain ⟨h₁, hA⟩ := ha.expr m (mark .comma "," :: (Expr.printArgs (b :: more) ++
              paren :: rest)) hwa hda (endsExpr_cons _ (.inr (.inl rfl)))
            obtain ⟨h₂, hR⟩ := hmore.readsFrom (List.cons_ne_nil b more) (m + 1) (done.push a)
              paren rest hwr (by rw [Expr.argsDepth_cons] at hd; omega) hparen
              (by simp only [List.length_cons, Array.size_push] at hlen ⊢; omega)
            have hlist : Expr.printArgs (a :: b :: more) ++ paren :: rest =
                a.print ++ mark .comma "," :: (Expr.printArgs (b :: more) ++ paren :: rest) := by
              simp [Expr.printArgs_cons_cons]
            rw [hlist]
            refine ⟨by simp only [List.length_append, List.length_cons] at h₂ ⊢; omega, ?_⟩
            rw [argumentsFrom, if_neg hsize]
            simp only [level_expr, hA, ok_bind, mark_kind, if_true, hR, Array.toList_push,
              List.append_assoc, List.singleton_append]
            rfl

/-- The argument list of a call, read up to its closing parenthesis. -/
theorem ArgsSpec.reads {args : List Expr} (hargs : ArgsSpec eof args) (m : Nat)
    {paren : Token} (rest : List Token) (hwa : Expr.ArgsWellFormed args)
    (hd : Expr.argsDepth args ≤ m) (hparen : paren.kind = .rightParen)
    (hlen : args.length ≤ 255) :
    ReadsTail (arguments (level eof m) (Expr.printArgs args ++ paren :: rest)) args
      (paren :: rest) := by
  cases args with
  | nil =>
      refine ⟨Nat.le_refl _, ?_⟩
      show arguments (level eof m) (paren :: rest) = _
      rw [arguments, if_pos (by simp [nextIs, hparen])]
      rfl
  | cons a more =>
      obtain ⟨t, ts, hprint, hstart⟩ := hargs.head (List.cons_ne_nil a more) hwa
      have hnext : nextIs .rightParen (Expr.printArgs (a :: more) ++ paren :: rest) = false := by
        simp [hprint, nextIs, TokenKind.ne_rightParen_of_startsExpr hstart]
      obtain ⟨h, hF⟩ := hargs.readsFrom (List.cons_ne_nil a more) m #[] paren rest hwa hd hparen
        (by simpa using hlen)
      refine ⟨h, ?_⟩
      rw [arguments, hnext, if_neg Bool.false_ne_true, hF]
      rfl

theorem call_spec {callee : Expr} (paren : Token) {args : List Expr} (hc : ExprSpec eof callee)
    (hargs : ArgsSpec eof args) : ExprSpec eof (.call callee paren args) := by
  have hhead : StartsWell (.call callee paren args) := by
    intro hwf
    obtain ⟨h9, -, -, hwc, -⟩ := hwf
    obtain ⟨t, ts, hp, hs, hprim⟩ := hc.head hwc
    exact ⟨t, ts ++ mark .leftParen "(" :: Expr.printArgs args ++ [paren],
      by simp [Expr.print_call, hp], hs, fun _ => hprim h9⟩
  have hcalls : CallReads eof (.call callee paren args) := by
    intro m rest v r hwf hd hnext
    obtain ⟨h9, hparen, hlen, hwc, hwa⟩ := hwf
    have hdc : callee.depth ≤ m := by rw [Expr.depth_call] at hd; omega
    have hda : Expr.argsDepth args ≤ m := by rw [Expr.depth_call] at hd; omega
    have hlist : (Expr.call callee paren args).print ++ rest =
        callee.print ++ mark .leftParen "(" :: (Expr.printArgs args ++ paren :: rest) := by
      simp [Expr.print_call]
    rw [hlist]
    exact hc.calls h9 m _ v r hwc hdc (callsAfter_cons rfl
      (hargs.reads m rest hwa hda hparen hlen) hparen hnext)
  exact ExprSpec.of_level hhead (by show 1 ≤ 9; omega)
    (fun _ _ h => absurd h (by show ¬ _ = 9; omega))
    (fun _ => hcalls.tower_zero hhead (Nat.le_refl 9)) (fun _ => hcalls)

end Constructors

/-! ## Every expression -/

mutual

/-- Every expression is read back from its printed tokens, at every level that can read it. -/
theorem exprSpec (eof : Token) : (e : Expr) → ExprSpec eof e
  | .binary op l r => binary_spec op (exprSpec eof l) (exprSpec eof r)
  | .logical op l r => logical_spec op (exprSpec eof l) (exprSpec eof r)
  | .grouping x => grouping_spec (exprSpec eof x)
  | .unary op x => unary_spec op (exprSpec eof x)
  | .bool b => bool_spec b
  | .str s => str_spec s
  | .num s => num_spec s
  | .var name => var_spec name
  | .assign name v => assign_spec name (exprSpec eof v)
  | .call callee paren args => call_spec paren (exprSpec eof callee) (argsSpec eof args)
  | .input => input_spec

theorem argsSpec (eof : Token) : (args : List Expr) → ArgsSpec eof args
  | [] => ArgsSpec.nil
  | a :: more => ArgsSpec.cons (exprSpec eof a) (argsSpec eof more)

end

/-- A well-formed expression is read back by the expression parser with enough nesting levels
left, which stops right after it when what follows cannot continue an expression. -/
theorem assignment_print {e : Expr} (eof : Token) {m : Nat} {rest : List Token}
    (hwf : e.WellFormed) (hd : e.depth ≤ m) (hend : EndsExpr rest) :
    Reads (assignment (level eof m) (e.print ++ rest)) e rest :=
  (exprSpec eof e).expr m rest hwf hd hend

end ByteMachine.Source

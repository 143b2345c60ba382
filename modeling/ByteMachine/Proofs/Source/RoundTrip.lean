import ByteMachine.Proofs.Source.ExprRoundTrip

/-!
# Reading printed programs back

Statements are read by `statement` where only statements may stand, and by `declaration`
where `var` and `fun` may stand too; a block body and a program are read declaration after
declaration. Printing a well-formed program whose nesting stays within `maxDepth` and parsing
the tokens gives the program back (`parseTokens_printProgram`).

A statement is read whole and the reader stops right after it, with one exception: an `else`
after a statement that ends open would be read as part of it. The printer never puts one
there. The branch before an `else` never ends open (`Stmt.ElseWellFormed`), and a statement
in a block or a program is followed by another statement, a `}` or nothing.

## Main statements

* `stmtSpec`: every statement is read back where statements and where declarations stand.
* `parseTokens_printProgram`: every well-formed program is read back from its tokens.
-/

namespace ByteMachine.Source

/-! ## The first token of a statement -/

/-- The tokens after a statement cannot continue it: no `else`, which would join a statement
that ends open. -/
def NoElse : List Token → Prop
  | [] => True
  | t :: _ => t.kind ≠ .kwElse

/-- The kinds a printed statement can start with, declarations apart. -/
def TokenKind.startsStmt : TokenKind → Bool
  | .kwOut | .leftBrace | .kwIf | .kwWhile | .kwFor | .kwReturn => true
  | k => k.startsExpr

/-- The kinds a printed declaration can start with. -/
def TokenKind.startsDecl : TokenKind → Bool
  | .kwVar | .kwFun => true
  | k => k.startsStmt

theorem TokenKind.startsDecl_of_startsStmt {k : TokenKind} (h : k.startsStmt = true) :
    k.startsDecl = true := by
  revert h
  cases k <;> decide

theorem TokenKind.startsStmt_of_startsExpr {k : TokenKind} (h : k.startsExpr = true) :
    k.startsStmt = true := by
  revert h
  cases k <;> decide

/-- No declaration starts with a `}` or an `else`. -/
theorem TokenKind.startsDecl_ne {k : TokenKind} (h : k.startsDecl = true) :
    k ≠ .rightBrace ∧ k ≠ .kwElse := by
  revert h
  cases k <;> decide

/-- A statement that is no declaration starts with neither `var` nor `fun`. -/
theorem TokenKind.startsStmt_ne {k : TokenKind} (h : k.startsStmt = true) :
    k ≠ .kwVar ∧ k ≠ .kwFun := by
  revert h
  cases k <;> decide

/-- An expression starts with no `;`, `var` or statement keyword. -/
theorem TokenKind.startsExpr_ne {k : TokenKind} (h : k.startsExpr = true) :
    k ≠ .semicolon ∧ k ≠ .kwVar ∧ k ≠ .rightBrace := by
  revert h
  cases k <;> decide

/-- Whether a statement is a declaration, which stands only where declarations are read. -/
def Stmt.isDecl : Stmt → Bool
  | .varDecl .. | .funDecl .. => true
  | _ => false

theorem Stmt.isDecl_eq_false {s : Stmt} (hwf : s.WellFormed false) : s.isDecl = false := by
  cases s with
  | varDecl => exact absurd hwf.1 Bool.false_ne_true
  | funDecl => exact absurd hwf.1 Bool.false_ne_true
  | _ => rfl

/-- A statement that is no declaration is well-formed wherever it stands. -/
theorem Stmt.wellFormed_false {s : Stmt} (hwf : s.WellFormed true) (hs : s.isDecl = false) :
    s.WellFormed false := by
  cases s <;> first | exact hwf | cases hs

/-- Read where declarations are, a statement takes one nesting level more. -/
theorem Stmt.depth_true {s : Stmt} (hs : s.isDecl = false) : s.depth true = s.depth false + 1 := by
  cases s <;> first | rfl | cases hs

theorem Stmt.print_head_stmt {s : Stmt} (hwf : s.WellFormed false) :
    ∃ t ts, s.print = t :: ts ∧ t.kind.startsStmt = true := by
  cases s with
  | expr e =>
      obtain ⟨t, ts, hp, hs, -⟩ := (exprSpec default e).head hwf
      exact ⟨t, ts ++ [semi], by simp [Stmt.print_expr, hp], TokenKind.startsStmt_of_startsExpr hs⟩
  | returnStmt keyword value =>
      exact ⟨keyword, _, rfl, by rw [hwf.1]; rfl⟩
  | varDecl => exact absurd hwf.1 Bool.false_ne_true
  | funDecl => exact absurd hwf.1 Bool.false_ne_true
  | ifElse | whileLoop | forLoop | block | output => exact ⟨_, _, rfl, rfl⟩

theorem Stmt.print_head_decl {s : Stmt} (hwf : s.WellFormed true) :
    ∃ t ts, s.print = t :: ts ∧ t.kind.startsDecl = true := by
  cases hs : s.isDecl with
  | false =>
      obtain ⟨t, ts, hp, hst⟩ := Stmt.print_head_stmt (Stmt.wellFormed_false hwf hs)
      exact ⟨t, ts, hp, TokenKind.startsDecl_of_startsStmt hst⟩
  | true =>
      cases s <;> first | exact ⟨_, _, rfl, rfl⟩ | cases hs

/-- After the declarations of a block or a program comes no `else`. -/
theorem noElse_printAll {ds : List Stmt} {rest : List Token} (hwf : Stmt.AllWellFormed ds)
    (hrest : NoElse rest) : NoElse (Stmt.printAll ds ++ rest) := by
  cases ds with
  | nil => exact hrest
  | cons d ds =>
      obtain ⟨t, ts, hp, hst⟩ := Stmt.print_head_decl hwf.1
      simp only [Stmt.printAll_cons, hp, List.cons_append]
      exact (TokenKind.startsDecl_ne hst).2

/-! ## One step of a parser -/

theorem level_stmt (eof : Token) (m : Nat) : (level eof (m + 1)).stmt = statement (level eof m) :=
  rfl

theorem level_block (eof : Token) (m : Nat) :
    (level eof (m + 1)).block = blockBody (level eof m) #[] :=
  rfl

/-- A statement that starts like an expression is an expression statement. -/
theorem statement_of_startsExpr (inner : Level) {t : Token} (ts : List Token)
    (hts : ts.head? = some t) (h : t.kind.startsExpr = true) :
    statement inner ts = exprStatement inner ts := by
  cases ts with
  | nil => simp at hts
  | cons t' rest =>
      simp only [List.head?_cons, Option.some.injEq] at hts
      subst hts
      rw [statement]
      cases hk : t'.kind <;> first | (rw [hk] at h; exact absurd h (by decide)) | rfl

/-- A declaration that starts like a statement is read as one, one level deeper. -/
theorem declaration_of_startsStmt (inner : Level) {t : Token} (ts : List Token)
    (hts : ts.head? = some t) (h : t.kind.startsStmt = true) :
    declaration inner ts = inner.stmt ts := by
  cases ts with
  | nil => simp at hts
  | cons t' rest =>
      simp only [List.head?_cons, Option.some.injEq] at hts
      subst hts
      have hne := TokenKind.startsStmt_ne h
      rw [declaration, if_neg hne.2, if_neg hne.1]

theorem after?_absent {α : Type} (kind : TokenKind) (p : Parser α) {ts : List Token}
    (h : nextIs kind ts = false) : ReadsTail (after? kind p ts) none ts := by
  cases ts with
  | nil => exact ⟨_, by rw [after?]⟩
  | cons t rest => exact ⟨_, by rw [after?, if_neg (by simpa [nextIs] using h)]⟩

theorem after?_present {α : Type} {kind : TokenKind} {p : Parser α} {t : Token}
    {rest r : List Token} {v : α} (h : t.kind = kind) (hp : Reads (p rest) v r) :
    ReadsTail (after? kind p (t :: rest)) (some v) r := by
  obtain ⟨h₁, hP⟩ := hp
  refine ⟨by simp only [List.length_cons]; omega, ?_⟩
  rw [after?, if_pos h]
  simp only [hP, ok_bind]
  rfl

theorem unless?_absent {α : Type} {absent : List Token → Bool} (p : Parser α) {ts : List Token}
    (h : absent ts = true) : ReadsTail (unless? absent p ts) none ts :=
  ⟨_, by rw [unless?, if_pos h]⟩

theorem unless?_present {α : Type} {absent : List Token → Bool} {p : Parser α}
    {ts r : List Token} {v : α} (h : absent ts = false) (hp : Reads (p ts) v r) :
    ReadsTail (unless? absent p ts) (some v) r := by
  obtain ⟨h₁, hP⟩ := hp
  refine ⟨by omega, ?_⟩
  rw [unless?, if_neg (by simp [h])]
  simp only [hP, ok_bind]
  rfl

theorem blockBody_close (inner : Level) (done : Array Stmt) {brace : Token} (rest : List Token)
    (h : brace.kind = .rightBrace) :
    Reads (blockBody inner done (brace :: rest)) done.toList rest :=
  ⟨by simp, by rw [blockBody, if_pos h]⟩

/-- A block body goes on with a declaration when no `}` comes next. -/
theorem blockBody_cons {inner : Level} {done : Array Stmt} {t : Token} {ts r r' : List Token}
    {s : Stmt} {ss : List Stmt} (hts : ts.head? = some t) (ht : t.kind ≠ .rightBrace)
    (hD : Reads (declaration inner ts) s r) (hB : Reads (blockBody inner (done.push s) r) ss r') :
    Reads (blockBody inner done ts) ss r' := by
  cases ts with
  | nil => simp at hts
  | cons t' rest =>
      simp only [List.head?_cons, Option.some.injEq] at hts
      subst hts
      obtain ⟨h₁, hD⟩ := hD
      obtain ⟨h₂, hB⟩ := hB
      refine ⟨by omega, ?_⟩
      rw [blockBody, if_neg ht]
      simp only [hD, hB, ok_bind]
      rfl

/-! ## The parts of statements -/

section Parts

variable (eof : Token)

theorem exprStatement_print {e : Expr} (hwf : e.WellFormed) {m : Nat} (hd : e.depth + 1 ≤ m)
    (rest : List Token) :
    Reads (exprStatement (level eof m) (e.print ++ semi :: rest)) (.expr e) rest := by
  obtain ⟨m, rfl⟩ : ∃ m', m = m' + 1 := ⟨m - 1, by omega⟩
  obtain ⟨h₁, hE⟩ := assignment_print eof hwf (by omega : e.depth ≤ m)
    (endsExpr_cons rest (.inr (.inr semi_kind)))
  refine ⟨by simp only [List.length_cons] at h₁; omega, ?_⟩
  simp only [exprStatement, level_expr, hE, ok_bind, skipped, semi_kind, ↓reduceIte]
  rfl

/-- An optional expression before a closing token, read unless the tokens say it is absent. -/
theorem optExpr_print {absent : List Token → Bool} {value : Option Expr} {m : Nat} {close : Token}
    {rest : List Token} (habsent : absent (close :: rest) = true)
    (hpresent : ∀ t ts, t.kind.startsExpr = true → absent (t :: ts) = false)
    (hwf : ∀ e ∈ value, e.WellFormed) (hd : Expr.optDepth value ≤ m)
    (hend : EndsExpr (close :: rest)) :
    ReadsTail (unless? absent (level eof m).expr ((value.map Expr.print).getD [] ++ close :: rest))
      value (close :: rest) := by
  cases value with
  | none => exact unless?_absent _ habsent
  | some e =>
      have hwe := hwf e rfl
      obtain ⟨m, rfl⟩ : ∃ m', m = m' + 1 :=
        ⟨m - 1, by simp only [Expr.optDepth] at hd; omega⟩
      obtain ⟨t, ts, hp, hs, -⟩ := (exprSpec eof e).head hwe
      have hE := assignment_print eof hwe (m := m) (by simp only [Expr.optDepth] at hd; omega) hend
      have hnot : absent (((some e).map Expr.print).getD [] ++ close :: rest) = false := by
        simp only [Option.map_some, Option.getD_some, hp, List.cons_append]
        exact hpresent t _ hs
      rw [level_expr]
      exact unless?_present hnot hE

theorem varDeclaration_print {name : Token} (hname : name.kind = .identifier)
    {init : Option Expr} (hwf : ∀ e ∈ init, e.WellFormed) {m : Nat}
    (hd : Expr.optDepth init ≤ m)
    (rest : List Token) :
    Reads (varDeclaration (level eof m)
      (name :: ((init.map fun e => mark .equal "=" :: e.print).getD [] ++ semi :: rest)))
      (.varDecl name init) rest := by
  obtain ⟨h₁, hN⟩ := expect_reads eof .identifier "Expect variable name."
    ((init.map fun e => mark .equal "=" :: e.print).getD [] ++ semi :: rest) hname
  have hinit : ReadsTail (after? .equal (level eof m).expr
      ((init.map fun e => mark .equal "=" :: e.print).getD [] ++ semi :: rest)) init
      (semi :: rest) := by
    cases init with
    | none => exact after?_absent _ _ (by simp [nextIs])
    | some e =>
        obtain ⟨m, rfl⟩ : ∃ m', m = m' + 1 :=
          ⟨m - 1, by simp only [Expr.optDepth] at hd; omega⟩
        rw [level_expr]
        exact after?_present (mark_kind _ _) (assignment_print eof (hwf e rfl)
          (by simp only [Expr.optDepth] at hd; omega) (endsExpr_cons rest (.inr (.inr semi_kind))))
  obtain ⟨h₂, hI⟩ := hinit
  refine ⟨by simp only [List.length_cons] at h₂ ⊢; omega, ?_⟩
  simp only [varDeclaration, level_eof, hN, hI, ok_bind, skipped, semi_kind, ↓reduceIte]
  rfl

/-- The initializer of a loop with its `;`. -/
theorem forInit_print {init : Option Stmt} (hwf : Stmt.InitWellFormed init) {m : Nat}
    (hd : Stmt.initDepth init ≤ m) (rest : List Token) :
    ReadsTail (forInit (level eof m) (Stmt.printInit init ++ rest)) init rest := by
  match init, hwf with
  | none, _ => exact ⟨by simp, by simp [Stmt.printInit, forInit]⟩
  | some (.varDecl name ie), ⟨hname, hie⟩ =>
      have hd' : Expr.optDepth ie ≤ m := by
        cases ie <;> simp only [Stmt.initDepth, Expr.optDepth] at hd ⊢ <;> omega
      obtain ⟨h₁, hV⟩ := varDeclaration_print eof hname hie hd' rest
      have hlist : Stmt.printInit (some (.varDecl name ie)) ++ rest = mark .kwVar "var" ::
          (name :: ((ie.map fun e => mark .equal "=" :: e.print).getD [] ++ semi :: rest)) := by
        simp [Stmt.printInit, Stmt.print_varDecl]
      rw [hlist]
      refine ⟨by simp only [List.length_cons] at h₁ ⊢; omega, ?_⟩
      simp only [forInit, mark_kind, reduceCtorEq, ↓reduceIte, hV, ok_bind]
      rfl
  | some (.expr e), hwe =>
      obtain ⟨t, ts, hp, hs, -⟩ := (exprSpec eof e).head hwe
      have hR := exprStatement_print eof hwe (by simpa [Stmt.initDepth] using hd) rest
      rw [hp, List.cons_append] at hR
      obtain ⟨h₁, hE⟩ := hR
      have hlist : Stmt.printInit (some (.expr e)) ++ rest = t :: (ts ++ semi :: rest) := by
        simp [Stmt.printInit, Stmt.print_expr, hp]
      rw [hlist]
      have hne := TokenKind.startsExpr_ne hs
      refine ⟨by simp only [List.length_cons] at h₁ ⊢; omega, ?_⟩
      simp only [forInit, if_neg hne.1, if_neg hne.2.1, hE, ok_bind]
      rfl

/-- The parameters of a function after those in `done`, up to the closing parenthesis. -/
theorem paramsFrom_print {params : List Token} (hp : ∀ p ∈ params, p.kind = .identifier)
    (hne : params ≠ []) (done : Array Token) (hlen : done.size + params.length ≤ 255)
    {close : Token} (rest : List Token) (hclose : close.kind = .rightParen) :
    ReadsTail (paramsFrom eof done (printParams params ++ close :: rest)) (done.toList ++ params)
      (close :: rest) := by
  induction params generalizing done with
  | nil => exact absurd rfl hne
  | cons p more ih =>
      have hsize : ¬ 255 ≤ done.size := by simp only [List.length_cons] at hlen; omega
      have hP := hp p List.mem_cons_self
      cases more with
      | nil =>
          show ReadsTail (paramsFrom eof done (p :: close :: rest)) _ _
          obtain ⟨h₁, hN⟩ :=
            expect_reads eof .identifier "Expect parameter name." (close :: rest) hP
          refine ⟨by simp, ?_⟩
          rw [paramsFrom, if_neg hsize]
          simp only [hN, ok_bind, hclose, reduceCtorEq, ↓reduceIte, Array.toList_push]
          rfl
      | cons q more =>
          show ReadsTail (paramsFrom eof done
            (p :: mark .comma "," :: (printParams (q :: more) ++ close :: rest))) _ _
          obtain ⟨h₁, hN⟩ := expect_reads eof .identifier "Expect parameter name."
            (mark .comma "," :: (printParams (q :: more) ++ close :: rest)) hP
          obtain ⟨h₂, hR⟩ := ih (fun x hx => hp x (List.mem_cons_of_mem p hx))
            (List.cons_ne_nil q more) (done.push p)
            (by simp only [List.length_cons, Array.size_push] at hlen ⊢; omega)
          refine ⟨by simp only [List.length_cons] at h₂ ⊢; omega, ?_⟩
          rw [paramsFrom, if_neg hsize]
          simp only [hN, ok_bind, mark_kind, ↓reduceIte, hR, Array.toList_push, List.append_assoc,
            List.singleton_append]
          rfl

/-- The parameter list of a function, empty or not, up to the closing parenthesis. -/
theorem paramList_print {params : List Token} (hp : ∀ p ∈ params, p.kind = .identifier)
    (hlen : params.length ≤ 255) {close : Token} (rest : List Token)
    (hclose : close.kind = .rightParen) :
    ReadsTail (if nextIs .rightParen (printParams params ++ close :: rest)
      then .ok ⟨[], printParams params ++ close :: rest, Nat.le_refl _⟩
      else paramsFrom eof #[] (printParams params ++ close :: rest) :
        Except SyntaxError (Tail (printParams params ++ close :: rest) (List Token)))
      params (close :: rest) := by
  cases params with
  | nil =>
      rw [if_pos (by simp [printParams, nextIs, hclose])]
      exact ⟨_, rfl⟩
  | cons p more =>
      have hfirst : nextIs .rightParen (printParams (p :: more) ++ close :: rest) = false := by
        cases more <;> simp [printParams, nextIs, hp p List.mem_cons_self]
      rw [if_neg (by simp [hfirst])]
      exact paramsFrom_print eof hp (List.cons_ne_nil p more) #[] (by simpa using hlen) rest hclose

end Parts

/-! ## What reading a statement back means -/

section Properties

variable (eof : Token) (s : Stmt)

/-- The statement parser reads the printed statement and stops right after it. -/
def StmtReads : Prop :=
  ∀ m rest, s.WellFormed false → s.depth false ≤ m → (s.Open → NoElse rest) →
    Reads (statement (level eof m) (s.print ++ rest)) s rest

/-- The declaration parser reads the printed statement and stops right after it. -/
def DeclReads : Prop :=
  ∀ m rest, s.WellFormed true → s.depth true ≤ m → (s.Open → NoElse rest) →
    Reads (declaration (level eof m) (s.print ++ rest)) s rest

/-- A statement is read back where statements and where declarations stand. -/
structure StmtSpec : Prop where
  stmt : StmtReads eof s
  decl : DeclReads eof s

/-- A block body reads the printed declarations and the closing brace after them. -/
def BlockReads (ds : List Stmt) : Prop :=
  ∀ m (done : Array Stmt) (brace : Token) rest, Stmt.AllWellFormed ds →
    Stmt.allDepth ds ≤ m → brace.kind = .rightBrace →
    Reads (blockBody (level eof m) done (Stmt.printAll ds ++ brace :: rest))
      (done.toList ++ ds) rest

end Properties

/-! ## Each kind of statement -/

section Statements

variable {eof : Token}

theorem NoElse.nextIs_eq_false {rest : List Token} (h : NoElse rest) :
    nextIs .kwElse rest = false := by
  cases rest with
  | nil => rfl
  | cons t r =>
      have h' : t.kind ≠ .kwElse := h
      simpa [nextIs] using h'

/-- A statement that is no declaration is read where declarations stand as where statements
do, one level deeper. -/
theorem StmtSpec.of_stmt {s : Stmt} (hs : StmtReads eof s) (hnd : s.isDecl = false) :
    StmtSpec eof s := by
  refine ⟨hs, ?_⟩
  intro m rest hwf hd hopen
  have hwf' := Stmt.wellFormed_false hwf hnd
  obtain ⟨t, ts, hp, hst⟩ := Stmt.print_head_stmt hwf'
  rw [Stmt.depth_true hnd] at hd
  obtain ⟨m, rfl⟩ : ∃ m', m = m' + 1 := ⟨m - 1, by omega⟩
  rw [declaration_of_startsStmt _ (s.print ++ rest) (by simp [hp]) hst, level_stmt]
  exact hs m rest hwf' (by omega) hopen

theorem exprStmt_spec (e : Expr) : StmtSpec eof (.expr e) := by
  refine StmtSpec.of_stmt (fun m rest hwf hd _ => ?_) rfl
  obtain ⟨t, ts, hp, hs, -⟩ := (exprSpec eof e).head hwf
  have hlist : (Stmt.expr e).print ++ rest = e.print ++ semi :: rest := by simp [Stmt.print_expr]
  rw [hlist, statement_of_startsExpr _ (e.print ++ semi :: rest) (by simp [hp]) hs]
  exact exprStatement_print eof hwf (by simpa [Stmt.depth] using hd) rest

theorem output_spec (e : Expr) : StmtSpec eof (.output e) := by
  refine StmtSpec.of_stmt (fun m rest hwf hd _ => ?_) rfl
  obtain ⟨m, rfl⟩ : ∃ m', m = m' + 1 := ⟨m - 1, by simp only [Stmt.depth] at hd; omega⟩
  obtain ⟨h₁, hE⟩ := assignment_print eof hwf (m := m)
    (by simp only [Stmt.depth] at hd; omega) (endsExpr_cons rest (.inr (.inr semi_kind)))
  have hlist : (Stmt.output e).print ++ rest = mark .kwOut "out" :: (e.print ++ semi :: rest) := by
    simp [Stmt.print_output]
  rw [hlist]
  refine ⟨by simp only [List.length_cons, List.length_append] at h₁ ⊢; omega, ?_⟩
  simp only [statement, mark_kind, level_expr, hE, ok_bind, skipped, semi_kind, ↓reduceIte]
  rfl

theorem return_spec (keyword : Token) (value : Option Expr) :
    StmtSpec eof (.returnStmt keyword value) := by
  refine StmtSpec.of_stmt (fun m rest hwf hd _ => ?_) rfl
  obtain ⟨hkw, hv⟩ := hwf
  have hV : ReadsTail (unless? returnValueAbsent (level eof m).expr
      ((value.map Expr.print).getD [] ++ semi :: rest)) value (semi :: rest) :=
    optExpr_print eof (by simp [returnValueAbsent, nextIs])
      (fun t ts h => by
        have hne := TokenKind.startsExpr_ne h
        simp [returnValueAbsent, nextIs, hne.1, hne.2.2])
      hv (by simpa [Stmt.depth] using hd) (endsExpr_cons rest (.inr (.inr semi_kind)))
  obtain ⟨h₁, hV⟩ := hV
  have hlist : (Stmt.returnStmt keyword value).print ++ rest =
      keyword :: ((value.map Expr.print).getD [] ++ semi :: rest) := by
    simp [Stmt.print_returnStmt]
  rw [hlist]
  refine ⟨by simp only [List.length_cons] at h₁ ⊢; omega, ?_⟩
  simp only [statement, hkw, hV, ok_bind, skipped, semi_kind, ↓reduceIte]
  rfl

theorem block_spec {body : List Stmt} (hb : BlockReads eof body) : StmtSpec eof (.block body) := by
  refine StmtSpec.of_stmt (fun m rest hwf hd _ => ?_) rfl
  -- the declarations of the block are read one nesting level deeper
  obtain ⟨m, rfl⟩ : ∃ m', m = m' + 1 := ⟨m - 1, by simp only [Stmt.depth] at hd; omega⟩
  obtain ⟨h₁, hB⟩ := hb m #[] (mark .rightBrace "\x7d") rest hwf
    (by simp only [Stmt.depth] at hd; omega) rfl
  have hlist : (Stmt.block body).print ++ rest =
      mark .leftBrace "\x7b" :: (Stmt.printAll body ++ mark .rightBrace "\x7d" :: rest) := by
    simp [Stmt.print_block]
  rw [hlist]
  refine ⟨by simp only [List.length_cons] at h₁ ⊢; omega, ?_⟩
  simp only [statement, mark_kind, level_block, hB, ok_bind]
  rfl

/-- The else branch of a conditional, or nothing before tokens that are no `else`. -/
theorem elseBranch_print {el : Option Stmt} (hel : ∀ s ∈ el, StmtSpec eof s) {m : Nat}
    {rest : List Token} (hwf : ∀ s ∈ el, s.WellFormed false) (hd : Stmt.elseDepth el ≤ m + 1)
    (hopen : Stmt.ElseOpen el → NoElse rest) :
    ReadsTail (after? .kwElse (statement (level eof m)) (Stmt.printElse el ++ rest)) el rest := by
  cases el with
  | none => exact after?_absent _ _ (hopen trivial).nextIs_eq_false
  | some s =>
      show ReadsTail (after? .kwElse _ (mark .kwElse "else" :: (s.print ++ rest))) _ _
      exact after?_present (mark_kind _ _) ((hel s rfl).stmt m rest (hwf s rfl)
        (by simpa [Stmt.elseDepth] using hd) hopen)

theorem ifElse_spec (c : Expr) {th : Stmt} {el : Option Stmt} (hth : StmtSpec eof th)
    (hel : ∀ s ∈ el, StmtSpec eof s) : StmtSpec eof (.ifElse c th el) := by
  refine StmtSpec.of_stmt (fun m rest hwf hd hopen => ?_) rfl
  obtain ⟨hc, hwth, hwel⟩ := hwf
  simp only [Stmt.depth, Bool.toNat_false, Nat.add_zero] at hd
  -- the condition and both branches are read one nesting level deeper
  obtain ⟨m, rfl⟩ : ∃ m', m = m' + 1 := ⟨m - 1, by omega⟩
  have hthen : th.Open → NoElse (Stmt.printElse el ++ rest) := by
    intro hop
    cases el with
    | none => exact hopen trivial
    | some s => exact absurd hop hwel.1
  have hwel' : ∀ s ∈ el, s.WellFormed false := by
    intro s hs
    cases hs
    exact hwel.2
  obtain ⟨h₁, hP₁⟩ := expect_reads eof .leftParen "Expect '(' after 'if'."
    (c.print ++ mark .rightParen ")" :: (th.print ++ (Stmt.printElse el ++ rest)))
    (mark_kind .leftParen "(")
  obtain ⟨h₂, hC⟩ := assignment_print eof hc (m := m) (by omega)
    (endsExpr_cons (th.print ++ (Stmt.printElse el ++ rest)) (.inl (mark_kind .rightParen ")")))
  obtain ⟨h₃, hP₂⟩ := expect_reads eof .rightParen "Expect ')' after if condition."
    (th.print ++ (Stmt.printElse el ++ rest)) (mark_kind .rightParen ")")
  obtain ⟨h₄, hT⟩ := hth.stmt m (Stmt.printElse el ++ rest) hwth (by omega) hthen
  obtain ⟨h₅, hE⟩ := elseBranch_print hel hwel' (m := m) (by omega) hopen
  have hlist : (Stmt.ifElse c th el).print ++ rest = mark .kwIf "if" :: mark .leftParen "(" ::
      (c.print ++ mark .rightParen ")" :: (th.print ++ (Stmt.printElse el ++ rest))) := by
    simp [Stmt.print_ifElse]
  rw [hlist]
  refine ⟨by simp only [List.length_cons, List.length_append] at h₂ h₄ ⊢; omega, ?_⟩
  rw [statement]
  simp only [mark_kind, ifStatement, level_eof, hP₁, ok_bind, level_expr, hC, hP₂,
    level_stmt, hT, hE]
  rfl

theorem while_spec (c : Expr) {body : Stmt} (hb : StmtSpec eof body) :
    StmtSpec eof (.whileLoop c body) := by
  refine StmtSpec.of_stmt (fun m rest hwf hd hopen => ?_) rfl
  obtain ⟨hc, hwb⟩ := hwf
  simp only [Stmt.depth, Bool.toNat_false, Nat.add_zero] at hd
  -- the condition and the body are read one nesting level deeper
  obtain ⟨m, rfl⟩ : ∃ m', m = m' + 1 := ⟨m - 1, by omega⟩
  obtain ⟨h₁, hP₁⟩ := expect_reads eof .leftParen "Expect '(' after 'while'."
    (c.print ++ mark .rightParen ")" :: (body.print ++ rest)) (mark_kind .leftParen "(")
  obtain ⟨h₂, hC⟩ := assignment_print eof hc (m := m) (by omega)
    (endsExpr_cons (body.print ++ rest) (.inl (mark_kind .rightParen ")")))
  obtain ⟨h₃, hP₂⟩ := expect_reads eof .rightParen "Expect ')' after condition."
    (body.print ++ rest) (mark_kind .rightParen ")")
  obtain ⟨h₄, hB⟩ := hb.stmt m rest hwb (by omega) hopen
  have hlist : (Stmt.whileLoop c body).print ++ rest = mark .kwWhile "while" ::
      mark .leftParen "(" :: (c.print ++ mark .rightParen ")" :: (body.print ++ rest)) := by
    simp [Stmt.print_whileLoop]
  rw [hlist]
  refine ⟨by simp only [List.length_cons, List.length_append] at h₂ h₄ ⊢; omega, ?_⟩
  rw [statement]
  simp only [mark_kind, whileStatement, level_eof, hP₁, ok_bind, level_expr, hC, hP₂,
    level_stmt, hB]
  rfl

theorem for_spec (init : Option Stmt) (c step : Option Expr) {body : Stmt}
    (hb : StmtSpec eof body) : StmtSpec eof (.forLoop init c step body) := by
  refine StmtSpec.of_stmt (fun m rest hwf hd hopen => ?_) rfl
  obtain ⟨hinit, hc, hstep, hwb⟩ := hwf
  simp only [Stmt.depth, Bool.toNat_false, Nat.add_zero] at hd
  -- the clauses and the body are read one nesting level deeper
  obtain ⟨m, rfl⟩ : ∃ m', m = m' + 1 := ⟨m - 1, by omega⟩
  -- the tokens after each clause
  let tail₃ := mark .rightParen ")" :: (body.print ++ rest)
  let tail₂ := semi :: ((step.map Expr.print).getD [] ++ tail₃)
  let tail₁ := (c.map Expr.print).getD [] ++ tail₂
  obtain ⟨h₁, hP₁⟩ := expect_reads eof .leftParen "Expect '(' after 'for'."
    (Stmt.printInit init ++ tail₁) (mark_kind .leftParen "(")
  obtain ⟨h₂, hI⟩ := forInit_print eof hinit (m := m + 1) (by omega) tail₁
  have hC : ReadsTail (unless? (nextIs .semicolon) (level eof (m + 1)).expr tail₁) c tail₂ :=
    optExpr_print eof (by simp [nextIs])
      (fun t ts h => by simp [nextIs, (TokenKind.startsExpr_ne h).1])
      hc (by omega) (endsExpr_cons _ (.inr (.inr semi_kind)))
  obtain ⟨h₃, hC⟩ := hC
  have hS : Reads (expect eof .semicolon "Expect ';' after loop condition." tail₂) semi
      ((step.map Expr.print).getD [] ++ tail₃) :=
    expect_reads eof .semicolon _ _ semi_kind
  obtain ⟨h₄, hS⟩ := hS
  have hSt : ReadsTail (unless? (nextIs .rightParen) (level eof (m + 1)).expr
      ((step.map Expr.print).getD [] ++ tail₃)) step tail₃ :=
    optExpr_print eof (by simp [nextIs])
      (fun t ts h => by simp [nextIs, TokenKind.ne_rightParen_of_startsExpr h])
      hstep (by omega) (endsExpr_cons _ (.inl rfl))
  obtain ⟨h₅, hSt⟩ := hSt
  have hP₂ : Reads (expect eof .rightParen "Expect ')' after for clauses." tail₃)
      (mark .rightParen ")") (body.print ++ rest) :=
    expect_reads eof .rightParen _ _ (mark_kind .rightParen ")")
  obtain ⟨h₆, hP₂⟩ := hP₂
  obtain ⟨h₇, hB⟩ := hb.stmt m rest hwb (by omega) hopen
  have hlist : (Stmt.forLoop init c step body).print ++ rest =
      mark .kwFor "for" :: mark .leftParen "(" :: (Stmt.printInit init ++ tail₁) := by
    simp [Stmt.print_forLoop, tail₁, tail₂, tail₃]
  rw [hlist]
  have hlen : rest.length < (mark .kwFor "for" :: mark .leftParen "(" ::
      (Stmt.printInit init ++ tail₁)).length := by
    simp only [tail₁, tail₂, tail₃, List.length_cons, List.length_append]
      at h₂ h₃ h₅ h₇ ⊢
    omega
  refine ⟨hlen, ?_⟩
  rw [statement]
  simp only [mark_kind, forStatement, level_eof, hP₁, ok_bind, hI, hC, hS, hSt, hP₂,
    level_stmt, hB]
  rfl

theorem varDecl_spec (name : Token) (init : Option Expr) : StmtSpec eof (.varDecl name init) := by
  refine ⟨fun _ _ hwf => absurd hwf.1 Bool.false_ne_true, ?_⟩
  intro m rest hwf hd _
  obtain ⟨-, hname, hinit⟩ := hwf
  obtain ⟨h₁, hV⟩ :=
    varDeclaration_print eof hname hinit (by simpa [Stmt.depth] using hd) rest
  have hlist : (Stmt.varDecl name init).print ++ rest = mark .kwVar "var" ::
      (name :: ((init.map fun e => mark .equal "=" :: e.print).getD [] ++ semi :: rest)) := by
    simp [Stmt.print_varDecl]
  rw [hlist]
  refine ⟨by simp only [List.length_cons] at h₁ ⊢; omega, ?_⟩
  rw [declaration]
  simp only [mark_kind, reduceCtorEq, ↓reduceIte, hV, map_ok]
  rfl

theorem funDecl_spec (name : Token) (params : List Token) {body : List Stmt}
    (hb : BlockReads eof body) : StmtSpec eof (.funDecl name params body) := by
  refine ⟨fun _ _ hwf => absurd hwf.1 Bool.false_ne_true, ?_⟩
  intro m rest hwf hd _
  obtain ⟨-, hname, hps, hlen, hwb⟩ := hwf
  -- the body is read one nesting level deeper
  obtain ⟨m, rfl⟩ : ∃ m', m = m' + 1 := ⟨m - 1, by simp only [Stmt.depth] at hd; omega⟩
  -- the tokens after the parameters' opening and closing parentheses
  let tail₂ := mark .leftBrace "\x7b" :: (Stmt.printAll body ++ mark .rightBrace "\x7d" :: rest)
  let tail₁ := printParams params ++ mark .rightParen ")" :: tail₂
  have hN : Reads (expect eof .identifier "Expect function name." (name :: mark .leftParen "(" ::
      tail₁)) name (mark .leftParen "(" :: tail₁) := expect_reads eof .identifier _ _ hname
  have hLP : Reads (expect eof .leftParen "Expect '(' after function name."
      (mark .leftParen "(" :: tail₁)) (mark .leftParen "(") tail₁ :=
    expect_reads eof .leftParen _ _ (mark_kind _ _)
  have hPs : ReadsTail (if nextIs .rightParen tail₁ then .ok ⟨[], tail₁, Nat.le_refl _⟩
      else paramsFrom eof #[] tail₁ : Except SyntaxError (Tail tail₁ (List Token))) params
      (mark .rightParen ")" :: tail₂) :=
    paramList_print eof hps hlen tail₂ (mark_kind .rightParen ")")
  have hRP : Reads (expect eof .rightParen "Expect ')' after parameters."
      (mark .rightParen ")" :: tail₂)) (mark .rightParen ")") tail₂ :=
    expect_reads eof .rightParen _ _ (mark_kind _ _)
  have hLB : Reads (expect eof .leftBrace "Expect '\x7b' before function body." tail₂)
      (mark .leftBrace "\x7b") (Stmt.printAll body ++ mark .rightBrace "\x7d" :: rest) :=
    expect_reads eof .leftBrace _ _ (mark_kind _ _)
  obtain ⟨h₁, hN⟩ := hN
  obtain ⟨h₂, hLP⟩ := hLP
  obtain ⟨h₃, hPs⟩ := hPs
  obtain ⟨h₄, hRP⟩ := hRP
  obtain ⟨h₅, hLB⟩ := hLB
  obtain ⟨h₆, hB⟩ := hb m #[] (mark .rightBrace "\x7d") rest hwb
    (by simp only [Stmt.depth] at hd; omega) rfl
  have hlist : (Stmt.funDecl name params body).print ++ rest =
      mark .kwFun "fun" :: name :: mark .leftParen "(" :: tail₁ := by
    simp [Stmt.print_funDecl, tail₁, tail₂]
  rw [hlist]
  have hlen' :
      rest.length < (mark .kwFun "fun" :: name :: mark .leftParen "(" :: tail₁).length := by
    simp only [tail₁, tail₂, List.length_cons, List.length_append] at h₃ h₆ ⊢
    omega
  refine ⟨hlen', ?_⟩
  rw [declaration]
  simp only [mark_kind, ↓reduceIte, function, level_eof, hN, ok_bind, hLP, hPs, hRP, hLB,
    level_block, hB]
  rfl

theorem BlockReads.nil : BlockReads eof [] := by
  intro m done brace rest _ _ hbrace
  rw [List.append_nil]
  exact blockBody_close _ done rest hbrace

theorem BlockReads.cons {d : Stmt} {ds : List Stmt} (hd : StmtSpec eof d)
    (hds : BlockReads eof ds) : BlockReads eof (d :: ds) := by
  intro m done brace rest hwf hdep hbrace
  obtain ⟨hwd, hwds⟩ := hwf
  obtain ⟨t, ts, hp, hst⟩ := Stmt.print_head_decl hwd
  simp only [Stmt.allDepth, Nat.max_le] at hdep
  have hnext : NoElse (Stmt.printAll ds ++ brace :: rest) :=
    noElse_printAll hwds (show brace.kind ≠ .kwElse by rw [hbrace]; decide)
  have hD := hd.decl m (Stmt.printAll ds ++ brace :: rest) hwd hdep.1 (fun _ => hnext)
  have hB := hds m (done.push d) brace rest hwds hdep.2 hbrace
  have hlist : Stmt.printAll (d :: ds) ++ brace :: rest =
      d.print ++ (Stmt.printAll ds ++ brace :: rest) := by
    simp [Stmt.printAll_cons]
  rw [hlist, show done.toList ++ d :: ds = (done.push d).toList ++ ds by simp]
  exact blockBody_cons (by simp [hp]) (TokenKind.startsDecl_ne hst).1 hD hB

end Statements

/-! ## Every statement -/

mutual

/-- Every statement is read back from its printed tokens where statements and where
declarations stand. -/
theorem stmtSpec (eof : Token) : (s : Stmt) → StmtSpec eof s
  | .expr e => exprStmt_spec e
  | .output e => output_spec e
  | .varDecl name init => varDecl_spec name init
  | .funDecl name params body => funDecl_spec name params (blockSpec eof body)
  | .block body => block_spec (blockSpec eof body)
  | .ifElse c th el => ifElse_spec c (stmtSpec eof th) (elseSpec eof el)
  | .whileLoop c body => while_spec c (stmtSpec eof body)
  | .forLoop init c step body => for_spec init c step (stmtSpec eof body)
  | .returnStmt keyword value => return_spec keyword value

theorem elseSpec (eof : Token) : (el : Option Stmt) → ∀ s ∈ el, StmtSpec eof s
  | none => fun _ h => nomatch h
  | some s => fun _ h => Option.some.inj h ▸ stmtSpec eof s

theorem blockSpec (eof : Token) : (ds : List Stmt) → BlockReads eof ds
  | [] => BlockReads.nil
  | d :: ds => BlockReads.cons (stmtSpec eof d) (blockSpec eof ds)

end

/-! ## No printed token ends the input -/

/-- No token of the list ends the input. -/
def EndFree (ts : List Token) : Prop := ∀ t ∈ ts, t.kind ≠ .eof

@[simp] theorem endFree_nil : EndFree [] := nofun

@[simp] theorem endFree_cons {t : Token} {ts : List Token} :
    EndFree (t :: ts) ↔ t.kind ≠ .eof ∧ EndFree ts :=
  List.forall_mem_cons

@[simp] theorem endFree_append {ts us : List Token} :
    EndFree (ts ++ us) ↔ EndFree ts ∧ EndFree us :=
  List.forall_mem_append

@[simp] theorem BinOp.token_kind_ne_eof (op : BinOp) : op.token.kind ≠ .eof := by
  cases op <;> simp [BinOp.token]

@[simp] theorem LogicOp.token_kind_ne_eof (op : LogicOp) : op.token.kind ≠ .eof := by
  cases op <;> simp [LogicOp.token]

@[simp] theorem UnaryOp.token_kind_ne_eof (op : UnaryOp) : op.token.kind ≠ .eof := by
  cases op <;> simp [UnaryOp.token]

mutual

/-- A well-formed expression prints no end-of-input token: the tokens it keeps are names and
closing parentheses. -/
theorem Expr.print_endFree : (e : Expr) → e.WellFormed → EndFree e.print
  | .binary op l r, ⟨_, _, hl, hr⟩ => by
      simp only [Expr.print, endFree_append, endFree_cons, op.token_kind_ne_eof, ne_eq,
        not_false_eq_true, true_and]
      exact ⟨Expr.print_endFree l hl, Expr.print_endFree r hr⟩
  | .logical op l r, ⟨_, _, hl, hr⟩ => by
      simp only [Expr.print, endFree_append, endFree_cons, op.token_kind_ne_eof, ne_eq,
        not_false_eq_true, true_and]
      exact ⟨Expr.print_endFree l hl, Expr.print_endFree r hr⟩
  | .grouping x, hx => by
      simp only [Expr.print, endFree_append, endFree_cons, endFree_nil, mark_kind, ne_eq,
        reduceCtorEq, not_false_eq_true, true_and, and_true]
      exact Expr.print_endFree x hx
  | .unary op x, ⟨_, hx⟩ => by
      simp only [Expr.print, endFree_cons, op.token_kind_ne_eof, ne_eq, not_false_eq_true, true_and]
      exact Expr.print_endFree x hx
  | .bool true, _ => by simp [Expr.print]
  | .bool false, _ => by simp [Expr.print]
  | .str _, _ => by simp [Expr.print]
  | .num _, _ => by simp [Expr.print]
  | .input, _ => by simp [Expr.print]
  | .var name, hname => by simp [Expr.print, show name.kind = .identifier from hname]
  | .assign name v, ⟨hname, hv⟩ => by
      simp only [Expr.print, endFree_cons, hname, mark_kind, ne_eq, reduceCtorEq,
        not_false_eq_true, true_and]
      exact Expr.print_endFree v hv
  | .call callee paren args, ⟨_, hparen, _, hc, hargs⟩ => by
      simp only [Expr.print, endFree_append, endFree_cons, endFree_nil, hparen, mark_kind, ne_eq,
        reduceCtorEq, not_false_eq_true, true_and, and_true]
      exact ⟨Expr.print_endFree callee hc, Expr.printArgs_endFree args hargs⟩

theorem Expr.printArgs_endFree : (args : List Expr) → Expr.ArgsWellFormed args →
    EndFree (Expr.printArgs args)
  | [], _ => endFree_nil
  | [a], ⟨ha, _⟩ => Expr.print_endFree a ha
  | a :: b :: rest, ⟨ha, hrest⟩ => by
      simp only [Expr.printArgs, endFree_append, endFree_cons, mark_kind, ne_eq, reduceCtorEq,
        not_false_eq_true, true_and]
      exact ⟨Expr.print_endFree a ha, Expr.printArgs_endFree (b :: rest) hrest⟩

end

theorem printParams_endFree : (params : List Token) → (∀ p ∈ params, p.kind = .identifier) →
    EndFree (printParams params)
  | [], _ => endFree_nil
  | [p], hp => by simp [printParams, hp p List.mem_cons_self]
  | p :: q :: rest, hp => by
      simp only [printParams, endFree_cons, hp p List.mem_cons_self, mark_kind, ne_eq,
        reduceCtorEq, not_false_eq_true, true_and]
      exact printParams_endFree (q :: rest) fun x hx => hp x (List.mem_cons_of_mem p hx)

theorem Expr.optPrint_endFree {value : Option Expr} (hwf : ∀ e ∈ value, e.WellFormed) :
    EndFree ((value.map Expr.print).getD []) := by
  cases value with
  | none => exact endFree_nil
  | some e => exact Expr.print_endFree e (hwf e rfl)

/-- The initializer of a loop is a declaration or a statement. -/
theorem Stmt.InitWellFormed.wellFormed {s : Stmt} (h : Stmt.InitWellFormed (some s)) :
    s.WellFormed true := by
  match s, h with
  | .varDecl _ _, ⟨hname, hinit⟩ => exact ⟨rfl, hname, hinit⟩
  | .expr _, he => exact he

mutual

/-- A well-formed statement prints no end-of-input token. -/
theorem Stmt.print_endFree (asDecl : Bool) : (s : Stmt) → s.WellFormed asDecl → EndFree s.print
  | .expr e, he => by
      simp only [Stmt.print, endFree_append, endFree_cons, endFree_nil, semi_kind, ne_eq,
        reduceCtorEq, not_false_eq_true, and_true]
      exact Expr.print_endFree e he
  | .output e, he => by
      simp only [Stmt.print, endFree_append, endFree_cons, endFree_nil, semi_kind, mark_kind,
        ne_eq, reduceCtorEq, not_false_eq_true, true_and, and_true]
      exact Expr.print_endFree e he
  | .varDecl name init, ⟨_, hname, hinit⟩ => by
      simp only [Stmt.print, endFree_append, endFree_cons, endFree_nil, semi_kind, mark_kind,
        hname, ne_eq, reduceCtorEq, not_false_eq_true, true_and, and_true]
      cases init with
      | none => exact endFree_nil
      | some e =>
          simp only [Option.map_some, Option.getD_some, endFree_cons, mark_kind, ne_eq,
            reduceCtorEq, not_false_eq_true, true_and]
          exact Expr.print_endFree e (hinit e rfl)
  | .funDecl name params body, ⟨_, hname, hps, _, hbody⟩ => by
      simp only [Stmt.print, endFree_append, endFree_cons, endFree_nil, mark_kind, hname, ne_eq,
        reduceCtorEq, not_false_eq_true, true_and, and_true]
      exact ⟨printParams_endFree params hps, Stmt.printAll_endFree body hbody⟩
  | .block body, hbody => by
      simp only [Stmt.print, endFree_append, endFree_cons, endFree_nil, mark_kind, ne_eq,
        reduceCtorEq, not_false_eq_true, true_and, and_true]
      exact Stmt.printAll_endFree body hbody
  | .ifElse c th el, ⟨hc, hth, hel⟩ => by
      simp only [Stmt.print, endFree_append, endFree_cons, mark_kind, ne_eq, reduceCtorEq,
        not_false_eq_true, true_and]
      exact ⟨⟨Expr.print_endFree c hc, Stmt.print_endFree false th hth⟩,
        Stmt.printElse_endFree th el hel⟩
  | .whileLoop c body, ⟨hc, hbody⟩ => by
      simp only [Stmt.print, endFree_append, endFree_cons, mark_kind, ne_eq, reduceCtorEq,
        not_false_eq_true, true_and]
      exact ⟨Expr.print_endFree c hc, Stmt.print_endFree false body hbody⟩
  | .forLoop init c step body, ⟨hinit, hc, hstep, hbody⟩ => by
      simp only [Stmt.print, endFree_append, endFree_cons, mark_kind, semi_kind, ne_eq,
        reduceCtorEq, not_false_eq_true, true_and]
      exact ⟨⟨⟨Stmt.printInit_endFree init hinit, Expr.optPrint_endFree hc⟩,
        Expr.optPrint_endFree hstep⟩, Stmt.print_endFree false body hbody⟩
  | .returnStmt keyword value, ⟨hkw, hvalue⟩ => by
      simp only [Stmt.print, endFree_append, endFree_cons, endFree_nil, semi_kind, hkw, ne_eq,
        reduceCtorEq, not_false_eq_true, true_and, and_true]
      exact Expr.optPrint_endFree hvalue

theorem Stmt.printElse_endFree (th : Stmt) : (el : Option Stmt) → Stmt.ElseWellFormed th el →
    EndFree (Stmt.printElse el)
  | none, _ => endFree_nil
  | some s, ⟨_, hs⟩ => by
      simp only [Stmt.printElse, endFree_cons, mark_kind, ne_eq, reduceCtorEq, not_false_eq_true,
        true_and]
      exact Stmt.print_endFree false s hs

theorem Stmt.printInit_endFree : (init : Option Stmt) → Stmt.InitWellFormed init →
    EndFree (Stmt.printInit init)
  | none, _ => by simp [Stmt.printInit]
  | some s, hs => Stmt.print_endFree true s hs.wellFormed

theorem Stmt.printAll_endFree : (ds : List Stmt) → Stmt.AllWellFormed ds →
    EndFree (Stmt.printAll ds)
  | [], _ => endFree_nil
  | d :: ds, ⟨hd, hds⟩ => by
      simp only [Stmt.printAll_cons, endFree_append]
      exact ⟨Stmt.print_endFree true d hd, Stmt.printAll_endFree ds hds⟩

end

/-! ## Programs -/

/-- The declarations of a program are read back one after another to the end of the tokens. -/
theorem declarations_print {eof : Token} {m : Nat} (ds : List Stmt) (hwf : Stmt.AllWellFormed ds)
    (hd : Stmt.allDepth ds ≤ m) (done : Array Stmt) :
    declarations (level eof m) done (Stmt.printAll ds) = .ok (done.toList ++ ds) := by
  induction ds generalizing done with
  | nil =>
      rw [Stmt.printAll_nil, declarations, List.append_nil]
  | cons d ds ih =>
      obtain ⟨hwd, hwds⟩ := hwf
      simp only [Stmt.allDepth, Nat.max_le] at hd
      obtain ⟨t, ts, hp, -⟩ := Stmt.print_head_decl hwd
      have hnext : NoElse (Stmt.printAll ds) := by
        have h := noElse_printAll hwds (show NoElse [] from trivial)
        rwa [List.append_nil] at h
      have hD := (stmtSpec eof d).decl m (Stmt.printAll ds) hwd hd.1 (fun _ => hnext)
      rw [hp, List.cons_append] at hD
      obtain ⟨h₁, hD⟩ := hD
      rw [Stmt.printAll_cons, hp, List.cons_append, declarations]
      simp only [hD, ok_bind]
      rw [ih hwds hd.2 (done.push d)]
      simp

/-- Printing a well-formed program whose nesting stays within `maxDepth` and parsing the tokens
gives the program back. -/
theorem parseTokens_printProgram (program : List Stmt) (hwf : Stmt.AllWellFormed program)
    (hd : Stmt.allDepth program ≤ maxDepth) :
    parseTokens (printProgram program) = .ok program := by
  have hfree := Stmt.printAll_endFree program hwf
  have htake : (printProgram program).takeWhile (fun t => decide (t.kind ≠ .eof)) =
      Stmt.printAll program := by
    rw [printProgram, List.takeWhile_append_of_pos (fun t ht => by simpa using hfree t ht)]
    simp
  simp only [parseTokens, htake, declarations_print program hwf hd #[]]
  simp

/-- A declaration, a conditional with an else branch, an assignment and a call are read back. -/
theorem printed_program_reads_back :
    let x := mark .identifier "x"
    let program := [Stmt.varDecl x (some .input),
      .ifElse (.binary .lt (.var x) (.num "9")) (.output (.var x))
        (some (.expr (.assign x (.call (.var (mark .identifier "f")) (mark .rightParen ")")
          [.var x, .num "1"]))))]
    Stmt.AllWellFormed program ∧ Stmt.allDepth program ≤ maxDepth ∧
      parseTokens (printProgram program) = .ok program := by
  intro x program
  have hwf : Stmt.AllWellFormed program := by
    simp [program, x, Stmt.AllWellFormed, Stmt.WellFormed, Stmt.ElseWellFormed, Stmt.Open,
      Expr.WellFormed, Expr.ArgsWellFormed, Expr.prec, BinOp.prec]
  have hd : Stmt.allDepth program ≤ maxDepth := by decide
  exact ⟨hwf, hd, parseTokens_printProgram program hwf hd⟩

end ByteMachine.Source

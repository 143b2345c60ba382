import ByteMachine.Source.Syntax
/-!
# The parser

A recursive-descent parser from tokens to statements. Semicolons after statements are optional,
calls and functions take at most 255 arguments or parameters, and nesting is capped: statements,
blocks, expressions and the operands of prefix operators each take one level, and a parse that
would go deeper than 100 levels fails with "Nesting too deep.".

Every parser that succeeds returns the tokens after what it read, strictly fewer than it was
given; so each loop over operators, arguments or statements consumes a token per round. The
parsers one level deeper are passed in as a `Level`, and `level` builds them from the nesting
budget, so the mutual recursion runs down the budget.
-/

namespace ByteMachine.Source

/-- A syntax error: the token where parsing stopped and why. -/
structure SyntaxError where
  token : Token
  reason : String
  deriving Repr

/-- The text of a syntax error: the token's position, the reason and the token. -/
def SyntaxError.message (e : SyntaxError) : String :=
  e.token.pos.text ++ ": " ++ e.reason ++
    if e.token.kind = .eof then " (at end of input)" else " (got '" ++ e.token.lexeme ++ "')"

/-- A result with the tokens after it, strictly fewer than the parser was given. -/
structure Step (ts : List Token) (α : Type) where
  value : α
  rest : List Token
  shorter : rest.length < ts.length

/-- A result with the tokens after it, no more than the parser was given. -/
structure Tail (ts : List Token) (α : Type) where
  value : α
  rest : List Token
  noLonger : rest.length ≤ ts.length

/-- A result read after a token is a result read from the token on. -/
def Step.cons {α : Type} {t : Token} {ts : List Token} (s : Step ts α) : Step (t :: ts) α :=
  ⟨s.value, s.rest, by have := s.shorter; simp only [List.length_cons]; omega⟩

/-- A parser that consumes at least one token when it succeeds. -/
abbrev Parser (α : Type) := (ts : List Token) → Except SyntaxError (Step ts α)

/-- The parsers one nesting level deeper, and the end-of-input token. -/
structure Level where
  eof : Token
  expr : Parser Expr
  stmt : Parser Stmt
  block : Parser (List Stmt)
  operand : Parser Expr

/-- The next token; the end-of-input token when none is left. -/
def peek (eof : Token) : List Token → Token
  | [] => eof
  | t :: _ => t

/-- Whether the next token has a kind. -/
def nextIs (kind : TokenKind) : List Token → Bool
  | [] => false
  | t :: _ => t.kind == kind

/-- The tokens after one token of a kind, if it comes next. -/
def skipped (kind : TokenKind) : List Token → List Token
  | [] => []
  | t :: rest => if t.kind = kind then rest else t :: rest

theorem skipped_length_le (kind : TokenKind) (ts : List Token) :
    (skipped kind ts).length ≤ ts.length := by
  cases ts with
  | nil => simp [skipped]
  | cons t rest => by_cases h : t.kind = kind <;> simp [skipped, h]

/-- Reads a token of a kind, or fails with the reason at the next token. -/
def expect (eof : Token) (kind : TokenKind) (reason : String) : Parser Token
  | [] => .error ⟨eof, reason⟩
  | t :: rest => if t.kind = kind then .ok ⟨t, rest, by simp⟩ else .error ⟨t, reason⟩

/-- Runs a parser after a token of a kind, when that token comes next. -/
def after? {α : Type} (kind : TokenKind) (p : Parser α) :
    (ts : List Token) → Except SyntaxError (Tail ts (Option α))
  | [] => .ok ⟨none, [], Nat.le_refl _⟩
  | t :: rest =>
    if t.kind = kind then do
      let ⟨v, r, h⟩ ← p rest
      pure ⟨some v, r, by simp only [List.length_cons]; omega⟩
    else .ok ⟨none, t :: rest, Nat.le_refl _⟩

/-- Runs a parser unless the tokens say that the optional part is absent. -/
def unless? {α : Type} (absent : List Token → Bool) (p : Parser α) (ts : List Token) :
    Except SyntaxError (Tail ts (Option α)) :=
  if absent ts then .ok ⟨none, ts, Nat.le_refl _⟩
  else do
    let ⟨v, r, h⟩ ← p ts
    pure ⟨some v, r, by omega⟩

/-- A parser that fails because nesting would go too deep. -/
def tooDeep {α : Type} (eof : Token) : Parser α := fun ts => .error ⟨peek eof ts, "Nesting too deep."⟩

/-! ## Expressions -/

/-- Continues a left-associative chain from `lhs`: while the next token is an operator of the
level, reads another operand and combines the two. -/
def chain (operand : Parser Expr) (combine : TokenKind → Option (Expr → Expr → Expr)) (lhs : Expr) :
    (ts : List Token) → Except SyntaxError (Tail ts Expr)
  | [] => .ok ⟨lhs, [], Nat.le_refl _⟩
  | t :: rest =>
    match combine t.kind with
    | none => .ok ⟨lhs, t :: rest, Nat.le_refl _⟩
    | some f => do
      let ⟨rhs, r, h⟩ ← operand rest
      let ⟨e, r', h'⟩ ← chain operand combine (f lhs rhs) r
      pure ⟨e, r', by simp only [List.length_cons]; omega⟩
termination_by ts => ts.length
decreasing_by simp only [List.length_cons]; omega

/-- A level of left-associative binary operators over operands of the next level. -/
def leftAssoc (operand : Parser Expr) (combine : TokenKind → Option (Expr → Expr → Expr)) :
    Parser Expr := fun ts => do
  let ⟨lhs, r, h⟩ ← operand ts
  let ⟨e, r', h'⟩ ← chain operand combine lhs r
  pure ⟨e, r', by omega⟩

/-- The operators of multiplication and division. -/
def factorOp : TokenKind → Option (Expr → Expr → Expr)
  | .star => some (.binary .mul)
  | .slash => some (.binary .div)
  | _ => none

/-- The operators of addition and subtraction. -/
def termOp : TokenKind → Option (Expr → Expr → Expr)
  | .plus => some (.binary .add)
  | .minus => some (.binary .sub)
  | _ => none

/-- The bitwise operators. -/
def bitwiseOp : TokenKind → Option (Expr → Expr → Expr)
  | .amp => some (.binary .bitAnd)
  | .pipe => some (.binary .bitOr)
  | _ => none

/-- The order comparisons. -/
def comparisonOp : TokenKind → Option (Expr → Expr → Expr)
  | .greater => some (.binary .gt)
  | .greaterEqual => some (.binary .ge)
  | .less => some (.binary .lt)
  | .lessEqual => some (.binary .le)
  | _ => none

/-- The equality comparisons. -/
def equalityOp : TokenKind → Option (Expr → Expr → Expr)
  | .equalEqual => some (.binary .eq)
  | .bangEqual => some (.binary .ne)
  | _ => none

/-- The short-circuit conjunction. -/
def andOp : TokenKind → Option (Expr → Expr → Expr)
  | .ampAmp => some (.logical .and)
  | _ => none

/-- The short-circuit disjunction. -/
def orOp : TokenKind → Option (Expr → Expr → Expr)
  | .pipePipe => some (.logical .or)
  | _ => none

/-- The prefix operator a token stands for. -/
def unaryOp? : TokenKind → Option UnaryOp
  | .bang => some .not
  | .minus => some .neg
  | .tilde => some .bitNot
  | _ => none

/-- Literals, names, `in`, and an expression in parentheses. -/
def primary (inner : Level) : Parser Expr
  | [] => .error ⟨inner.eof, "Expect expression."⟩
  | t :: rest =>
    match t.kind with
    | .kwFalse => .ok ⟨.bool false, rest, by simp⟩
    | .kwTrue => .ok ⟨.bool true, rest, by simp⟩
    | .kwIn => .ok ⟨.input, rest, by simp⟩
    | .number => .ok ⟨.num t.lexeme, rest, by simp⟩
    | .string => .ok ⟨.str t.lexeme, rest, by simp⟩
    | .identifier => .ok ⟨.var t, rest, by simp⟩
    | .leftParen => do
      let ⟨e, r, h⟩ ← inner.expr rest
      let ⟨_, r', h'⟩ ← expect inner.eof .rightParen "Expect ')' after expression." r
      pure ⟨.grouping e, r', by simp only [List.length_cons]; omega⟩
    | _ => .error ⟨t, "Expect expression."⟩

/-- Call arguments after those in `done`, separated by commas. -/
def argumentsFrom (inner : Level) (done : Array Expr) (ts : List Token) :
    Except SyntaxError (Tail ts (List Expr)) :=
  if 255 ≤ done.size then .error ⟨peek inner.eof ts, "Can't have more than 255 arguments."⟩
  else do
    let ⟨a, r, h⟩ ← inner.expr ts
    match r, h with
    | t :: rest, h =>
      if t.kind = .comma then do
        let ⟨args, r', h'⟩ ← argumentsFrom inner (done.push a) rest
        pure ⟨args, r', by simp only [List.length_cons] at h; omega⟩
      else pure ⟨(done.push a).toList, t :: rest, by omega⟩
    | [], _ => pure ⟨(done.push a).toList, [], by simp⟩
termination_by ts.length
decreasing_by simp only [List.length_cons] at h; omega

/-- The argument list of a call after its opening parenthesis, up to the closing one. -/
def arguments (inner : Level) (ts : List Token) : Except SyntaxError (Tail ts (List Expr)) :=
  if nextIs .rightParen ts then .ok ⟨[], ts, Nat.le_refl _⟩ else argumentsFrom inner #[] ts

/-- Applies `callee` to each argument list that follows. -/
def callsAfter (inner : Level) (callee : Expr) :
    (ts : List Token) → Except SyntaxError (Tail ts Expr)
  | [] => .ok ⟨callee, [], Nat.le_refl _⟩
  | t :: rest =>
    if t.kind = .leftParen then do
      let ⟨args, r, h⟩ ← arguments inner rest
      let ⟨paren, r2, h2⟩ ← expect inner.eof .rightParen "Expect ')' after arguments." r
      let ⟨e, r3, h3⟩ ← callsAfter inner (.call callee paren args) r2
      pure ⟨e, r3, by simp only [List.length_cons]; omega⟩
    else .ok ⟨callee, t :: rest, Nat.le_refl _⟩
termination_by ts => ts.length
decreasing_by simp only [List.length_cons]; omega

/-- A primary expression and the calls applied to it. -/
def call (inner : Level) : Parser Expr := fun ts => do
  let ⟨e, r, h⟩ ← primary inner ts
  let ⟨e', r', h'⟩ ← callsAfter inner e r
  pure ⟨e', r', by omega⟩

/-- A prefix operator and its operand, one level deeper, or a call. -/
def unary (inner : Level) : Parser Expr
  | [] => call inner []
  | t :: rest =>
    match unaryOp? t.kind with
    | some op => do
      let ⟨e, r, h⟩ ← inner.operand rest
      pure ⟨.unary op e, r, by simp only [List.length_cons]; omega⟩
    | none => call inner (t :: rest)

/-- Operators from the tightest, multiplication, to the loosest, disjunction. -/
def disjunction (inner : Level) : Parser Expr :=
  leftAssoc (leftAssoc (leftAssoc (leftAssoc (leftAssoc (leftAssoc (leftAssoc (unary inner)
    factorOp) termOp) bitwiseOp) comparisonOp) equalityOp) andOp) orOp

/-- A disjunction, or an assignment to a variable whose value is read one level deeper. The
target is checked after the value has been read. -/
def assignment (inner : Level) : Parser Expr := fun ts => do
  let ⟨node, r, h⟩ ← disjunction inner ts
  match r, h with
  | t :: rest, h =>
    if t.kind = .equal then do
      let ⟨value, r', h'⟩ ← inner.expr rest
      match node with
      | .var name => pure ⟨.assign name value, r', by simp only [List.length_cons] at h; omega⟩
      | _ => .error ⟨t, "Invalid assignment target."⟩
    else pure ⟨node, t :: rest, h⟩
  | [], h => pure ⟨node, [], h⟩

/-! ## Statements -/

/-- An expression statement. -/
def exprStatement (inner : Level) : Parser Stmt := fun ts => do
  let ⟨e, r, h⟩ ← inner.expr ts
  pure ⟨.expr e, skipped .semicolon r, by have := skipped_length_le .semicolon r; omega⟩

/-- A variable declaration after `var`, with an optional initial value. -/
def varDeclaration (inner : Level) : Parser Stmt := fun ts => do
  let ⟨name, r, h⟩ ← expect inner.eof .identifier "Expect variable name." ts
  let ⟨init, r2, h2⟩ ← after? .equal inner.expr r
  pure ⟨.varDecl name init, skipped .semicolon r2,
    by have := skipped_length_le .semicolon r2; omega⟩

/-- Parameter names after those in `done`, separated by commas. -/
def paramsFrom (eof : Token) (done : Array Token) (ts : List Token) :
    Except SyntaxError (Tail ts (List Token)) :=
  if 255 ≤ done.size then .error ⟨peek eof ts, "Can't have more than 255 parameters."⟩
  else do
    let ⟨p, r, h⟩ ← expect eof .identifier "Expect parameter name." ts
    match r, h with
    | t :: rest, h =>
      if t.kind = .comma then do
        let ⟨ps, r', h'⟩ ← paramsFrom eof (done.push p) rest
        pure ⟨ps, r', by simp only [List.length_cons] at h; omega⟩
      else pure ⟨(done.push p).toList, t :: rest, by omega⟩
    | [], _ => pure ⟨(done.push p).toList, [], by simp⟩
termination_by ts.length
decreasing_by simp only [List.length_cons] at h; omega

/-- A function declaration after `fun`. -/
def function (inner : Level) : Parser Stmt := fun ts => do
  let ⟨name, r1, h1⟩ ← expect inner.eof .identifier "Expect function name." ts
  let ⟨_, r2, h2⟩ ← expect inner.eof .leftParen "Expect '(' after function name." r1
  let ⟨params, r3, h3⟩ ← (if nextIs .rightParen r2 then .ok ⟨[], r2, Nat.le_refl _⟩
    else paramsFrom inner.eof #[] r2 : Except SyntaxError (Tail r2 (List Token)))
  let ⟨_, r4, h4⟩ ← expect inner.eof .rightParen "Expect ')' after parameters." r3
  let ⟨_, r5, h5⟩ ← expect inner.eof .leftBrace "Expect '\x7b' before function body." r4
  let ⟨body, r6, h6⟩ ← inner.block r5
  pure ⟨.funDecl name params body, r6, by omega⟩

/-- An `if` statement after the keyword; an `else` binds to the nearest `if`. -/
def ifStatement (inner : Level) : Parser Stmt := fun ts => do
  let ⟨_, r1, h1⟩ ← expect inner.eof .leftParen "Expect '(' after 'if'." ts
  let ⟨c, r2, h2⟩ ← inner.expr r1
  let ⟨_, r3, h3⟩ ← expect inner.eof .rightParen "Expect ')' after if condition." r2
  let ⟨th, r4, h4⟩ ← inner.stmt r3
  let ⟨el, r5, h5⟩ ← after? .kwElse inner.stmt r4
  pure ⟨.ifElse c th el, r5, by omega⟩

/-- A `while` statement after the keyword. -/
def whileStatement (inner : Level) : Parser Stmt := fun ts => do
  let ⟨_, r1, h1⟩ ← expect inner.eof .leftParen "Expect '(' after 'while'." ts
  let ⟨c, r2, h2⟩ ← inner.expr r1
  let ⟨_, r3, h3⟩ ← expect inner.eof .rightParen "Expect ')' after condition." r2
  let ⟨body, r4, h4⟩ ← inner.stmt r3
  pure ⟨.whileLoop c body, r4, by omega⟩

/-- The initializer of a `for` loop: nothing before `;`, a declaration, or an expression
statement; each reads its own `;`. -/
def forInit (inner : Level) : (ts : List Token) → Except SyntaxError (Tail ts (Option Stmt))
  | [] => do
    let ⟨s, r, h⟩ ← exprStatement inner []
    pure ⟨some s, r, by omega⟩
  | t :: rest =>
    if t.kind = .semicolon then .ok ⟨none, rest, by simp⟩
    else if t.kind = .kwVar then do
      let ⟨s, r, h⟩ ← varDeclaration inner rest
      pure ⟨some s, r, by simp only [List.length_cons]; omega⟩
    else do
      let ⟨s, r, h⟩ ← exprStatement inner (t :: rest)
      pure ⟨some s, r, by omega⟩

/-- A `for` statement after the keyword. -/
def forStatement (inner : Level) : Parser Stmt := fun ts => do
  let ⟨_, r1, h1⟩ ← expect inner.eof .leftParen "Expect '(' after 'for'." ts
  let ⟨init, r2, h2⟩ ← forInit inner r1
  let ⟨c, r3, h3⟩ ← unless? (nextIs .semicolon) inner.expr r2
  let ⟨_, r4, h4⟩ ← expect inner.eof .semicolon "Expect ';' after loop condition." r3
  let ⟨incr, r5, h5⟩ ← unless? (nextIs .rightParen) inner.expr r4
  let ⟨_, r6, h6⟩ ← expect inner.eof .rightParen "Expect ')' after for clauses." r5
  let ⟨body, r7, h7⟩ ← inner.stmt r6
  pure ⟨.forLoop init c incr body, r7, by omega⟩

/-- A `return` statement's value is absent before `;`, before a closing brace and at the end. -/
def returnValueAbsent (ts : List Token) : Bool :=
  nextIs .semicolon ts || nextIs .rightBrace ts || ts.isEmpty

/-- A statement whose nested parts are read one level deeper. -/
def statement (inner : Level) : Parser Stmt
  | [] => exprStatement inner []
  | t :: rest =>
    match t.kind with
    | .kwIf => Step.cons <$> ifStatement inner rest
    | .kwWhile => Step.cons <$> whileStatement inner rest
    | .kwFor => Step.cons <$> forStatement inner rest
    | .kwReturn => do
      let ⟨v, r, h⟩ ← unless? returnValueAbsent inner.expr rest
      pure ⟨.returnStmt t v, skipped .semicolon r,
        by have := skipped_length_le .semicolon r; simp only [List.length_cons]; omega⟩
    | .kwOut => do
      let ⟨e, r, h⟩ ← inner.expr rest
      pure ⟨.output e, skipped .semicolon r,
        by have := skipped_length_le .semicolon r; simp only [List.length_cons]; omega⟩
    | .leftBrace => do
      let ⟨b, r, h⟩ ← inner.block rest
      pure ⟨.block b, r, by simp only [List.length_cons]; omega⟩
    | _ => exprStatement inner (t :: rest)

/-- A declaration: a function, a variable, or a statement one level deeper. -/
def declaration (inner : Level) : Parser Stmt
  | [] => inner.stmt []
  | t :: rest =>
    if t.kind = .kwFun then Step.cons <$> function inner rest
    else if t.kind = .kwVar then Step.cons <$> varDeclaration inner rest
    else inner.stmt (t :: rest)

/-- The declarations of a block after those in `done`, up to and including its closing brace. -/
def blockBody (inner : Level) (done : Array Stmt) : Parser (List Stmt)
  | [] => .error ⟨inner.eof, "Expect '\x7d' after block."⟩
  | t :: rest =>
    if t.kind = .rightBrace then .ok ⟨done.toList, rest, by simp⟩
    else do
      let ⟨s, r, h⟩ ← declaration inner (t :: rest)
      let ⟨ss, r', h'⟩ ← blockBody inner (done.push s) r
      pure ⟨ss, r', by omega⟩
termination_by ts => ts.length
decreasing_by exact h

/-! ## Programs -/

/-- The parsers whose nesting checks have `budget` levels left; with none left they fail. -/
def level (eof : Token) : (budget : Nat) → Level
  | 0 => ⟨eof, tooDeep eof, tooDeep eof, tooDeep eof, tooDeep eof⟩
  | n + 1 =>
    let inner := level eof n
    ⟨eof, assignment inner, statement inner, blockBody inner #[], unary inner⟩

/-- The deepest nesting a program may have. -/
def maxDepth : Nat := 100

/-- The declarations of a program after those in `done`. -/
def declarations (top : Level) (done : Array Stmt) : (ts : List Token) → Except SyntaxError (List Stmt)
  | [] => .ok done.toList
  | t :: rest => do
    let s ← declaration top (t :: rest)
    declarations top (done.push s.value) s.rest
termination_by ts => ts.length
decreasing_by exact s.shorter

/-- The token that ends a token list: its first end-of-input token, or one placed at the last
token (at 1:1 for no tokens) when it has none. -/
def endToken (tokens : List Token) : Token :=
  match tokens.find? (·.kind = .eof) with
  | some t => t
  | none => ⟨.eof, "", ((tokens.getLast?.map (·.pos)).getD {})⟩

/-- Parses a token list; the tokens after its first end-of-input token are never read. -/
def parseTokens (tokens : List Token) : Except SyntaxError (List Stmt) :=
  let eof := endToken tokens
  declarations (level eof maxDepth) #[] (tokens.takeWhile (·.kind ≠ .eof))

end ByteMachine.Source

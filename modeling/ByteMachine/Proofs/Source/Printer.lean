import ByteMachine.Source.Parser

/-!
# Printing syntax trees as tokens

The printer renders a program as the tokens a programmer would write for it. Every expression,
`var`, `return` and `out` statement ends with `;`; a grouping is `( e )`, binary and logical
operators stand between their operands, a prefix operator before its operand, an assignment is
`name = value` and a call `callee ( a , … )`. A conditional is `if ( c ) s` with `else s` when it
has an else branch, a loop `for ( init cond ; step ) body` whose initializer is printed as its
own statement or as a lone `;`, a block `{ … }` and a function `fun name ( params ) { body }`.
The tokens that a tree keeps (names, the `return` keyword, the closing parenthesis of a call) are
printed as they are.

Printing and reading agree on trees that are well-formed: an operand binds at least as tightly as
the operator that holds it, strictly so on the right of a left-associative level; a prefix
operand is a prefix, call or primary expression and a callee a call or primary one; names are
identifiers; calls and functions stay within 255 arguments and parameters; a declaration stands
only where the parser reads declarations; and the branch before an `else` never ends in an `if`
without one. `Expr.depth` and `Stmt.depth` count the nesting levels the parser spends on a tree.
-/

namespace ByteMachine.Source

/-- A token the printer writes; the parser never reads its position. -/
def mark (kind : TokenKind) (lexeme : String) : Token := ⟨kind, lexeme, {}⟩

@[simp] theorem mark_kind (kind : TokenKind) (lexeme : String) : (mark kind lexeme).kind = kind :=
  rfl

/-! ## Operators -/

def BinOp.token : BinOp → Token
  | .add => mark .plus "+"
  | .sub => mark .minus "-"
  | .mul => mark .star "*"
  | .div => mark .slash "/"
  | .bitAnd => mark .amp "&"
  | .bitOr => mark .pipe "|"
  | .eq => mark .equalEqual "=="
  | .ne => mark .bangEqual "!="
  | .lt => mark .less "<"
  | .le => mark .lessEqual "<="
  | .gt => mark .greater ">"
  | .ge => mark .greaterEqual ">="

def LogicOp.token : LogicOp → Token
  | .and => mark .ampAmp "&&"
  | .or => mark .pipePipe "||"

def UnaryOp.token : UnaryOp → Token
  | .not => mark .bang "!"
  | .neg => mark .minus "-"
  | .bitNot => mark .tilde "~"

/-- How tightly a binary operator binds: factors 7, terms 6, bitwise operators 5, order
comparisons 4 and equalities 3. -/
def BinOp.prec : BinOp → Nat
  | .mul | .div => 7
  | .add | .sub => 6
  | .bitAnd | .bitOr => 5
  | .gt | .ge | .lt | .le => 4
  | .eq | .ne => 3

/-- Conjunction binds at 2, disjunction at 1. -/
def LogicOp.prec : LogicOp → Nat
  | .and => 2
  | .or => 1

/-- How tightly an expression binds: an assignment loosest at 0, an operator at its level,
a prefix operator at 8, and calls and primary expressions at 9. -/
def Expr.prec : Expr → Nat
  | .binary op _ _ => op.prec
  | .logical op _ _ => op.prec
  | .unary _ _ => 8
  | .assign _ _ => 0
  | _ => 9

/-- The level of the binary operator a token kind spells, or 0 for any other token. -/
def TokenKind.binaryLevel : TokenKind → Nat
  | .star | .slash => 7
  | .plus | .minus => 6
  | .amp | .pipe => 5
  | .greater | .greaterEqual | .less | .lessEqual => 4
  | .equalEqual | .bangEqual => 3
  | .ampAmp => 2
  | .pipePipe => 1
  | _ => 0

/-- The kinds a printed expression can start with. -/
def TokenKind.startsExpr : TokenKind → Bool
  | .identifier | .number | .string | .kwTrue | .kwFalse | .kwIn | .leftParen => true
  | .bang | .minus | .tilde => true
  | _ => false

/-- The kinds a printed call or primary expression can start with. -/
def TokenKind.startsPrimary : TokenKind → Bool
  | .identifier | .number | .string | .kwTrue | .kwFalse | .kwIn | .leftParen => true
  | _ => false

/-! ## Expressions -/

mutual

def Expr.print : Expr → List Token
  | .binary op l r => l.print ++ op.token :: r.print
  | .logical op l r => l.print ++ op.token :: r.print
  | .grouping e => mark .leftParen "(" :: e.print ++ [mark .rightParen ")"]
  | .unary op e => op.token :: e.print
  | .bool true => [mark .kwTrue "true"]
  | .bool false => [mark .kwFalse "false"]
  | .str s => [mark .string s]
  | .num t => [mark .number t]
  | .var name => [name]
  | .assign name v => name :: mark .equal "=" :: v.print
  | .call callee paren args => callee.print ++ mark .leftParen "(" :: Expr.printArgs args ++ [paren]
  | .input => [mark .kwIn "in"]

/-- Arguments separated by commas. -/
def Expr.printArgs : List Expr → List Token
  | [] => []
  | [a] => a.print
  | a :: b :: rest => a.print ++ mark .comma "," :: Expr.printArgs (b :: rest)

end

section PrintEquations

/-! One equation for each compound expression form, so that the round-trip lemmas read an
expression's tokens without unfolding the printer. -/

variable (e a b : Expr) (rest : List Expr)

theorem Expr.print_grouping :
    (Expr.grouping e).print = mark .leftParen "(" :: e.print ++ [mark .rightParen ")"] := rfl

theorem Expr.print_unary (op : UnaryOp) : (Expr.unary op e).print = op.token :: e.print := rfl

theorem Expr.print_assign (name : Token) :
    (Expr.assign name e).print = name :: mark .equal "=" :: e.print := rfl

theorem Expr.print_call (paren : Token) (args : List Expr) :
    (Expr.call e paren args).print =
      e.print ++ mark .leftParen "(" :: Expr.printArgs args ++ [paren] := rfl

theorem Expr.printArgs_singleton : Expr.printArgs [a] = a.print := rfl

theorem Expr.printArgs_cons_cons :
    Expr.printArgs (a :: b :: rest) = a.print ++ mark .comma "," :: Expr.printArgs (b :: rest) :=
  rfl

end PrintEquations

mutual

/-- The nesting levels the parser spends on an expression: one for each grouping, prefix
operand, assigned value and call argument around it. -/
def Expr.depth : Expr → Nat
  | .binary _ l r => max l.depth r.depth
  | .logical _ l r => max l.depth r.depth
  | .grouping e => e.depth + 1
  | .unary _ e => e.depth + 1
  | .assign _ v => v.depth + 1
  | .call callee _ args => max callee.depth (Expr.argsDepth args)
  | _ => 0

def Expr.argsDepth : List Expr → Nat
  | [] => 0
  | a :: rest => max (a.depth + 1) (Expr.argsDepth rest)

end

section DepthEquations

variable (e : Expr)

theorem Expr.depth_grouping : (Expr.grouping e).depth = e.depth + 1 := rfl

theorem Expr.depth_unary (op : UnaryOp) : (Expr.unary op e).depth = e.depth + 1 := rfl

theorem Expr.depth_assign (name : Token) : (Expr.assign name e).depth = e.depth + 1 := rfl

theorem Expr.depth_call (paren : Token) (args : List Expr) :
    (Expr.call e paren args).depth = max e.depth (Expr.argsDepth args) := rfl

theorem Expr.argsDepth_cons (rest : List Expr) :
    Expr.argsDepth (e :: rest) = max (e.depth + 1) (Expr.argsDepth rest) := rfl

end DepthEquations

mutual

/-- An expression the parser reads back: operands bind tightly enough for their place, names
are identifiers, a call keeps its closing parenthesis and has at most 255 arguments. A grouping
binds as a primary expression, so it may stand anywhere. -/
def Expr.WellFormed : Expr → Prop
  | .binary op l r => op.prec ≤ l.prec ∧ op.prec < r.prec ∧ l.WellFormed ∧ r.WellFormed
  | .logical op l r => op.prec ≤ l.prec ∧ op.prec < r.prec ∧ l.WellFormed ∧ r.WellFormed
  | .grouping e => e.WellFormed
  | .unary _ e => 8 ≤ e.prec ∧ e.WellFormed
  | .var name => name.kind = .identifier
  | .assign name v => name.kind = .identifier ∧ v.WellFormed
  | .call callee paren args => 9 ≤ callee.prec ∧ paren.kind = .rightParen ∧
      args.length ≤ 255 ∧ callee.WellFormed ∧ Expr.ArgsWellFormed args
  | _ => True

def Expr.ArgsWellFormed : List Expr → Prop
  | [] => True
  | a :: rest => a.WellFormed ∧ Expr.ArgsWellFormed rest

end

/-! ## Statements -/

/-- `;`, which ends expression, `var`, `return` and `out` statements. -/
def semi : Token := mark .semicolon ";"

@[simp] theorem semi_kind : semi.kind = .semicolon := rfl

/-- Parameter names separated by commas. -/
def printParams : List Token → List Token
  | [] => []
  | [p] => [p]
  | p :: q :: rest => p :: mark .comma "," :: printParams (q :: rest)

mutual

def Stmt.print : Stmt → List Token
  | .expr e => e.print ++ [semi]
  | .output e => mark .kwOut "out" :: e.print ++ [semi]
  | .varDecl name init =>
      mark .kwVar "var" :: name :: ((init.map fun e => mark .equal "=" :: e.print).getD []) ++
        [semi]
  | .funDecl name params body =>
      mark .kwFun "fun" :: name :: mark .leftParen "(" :: printParams params ++
        mark .rightParen ")" :: mark .leftBrace "\x7b" :: Stmt.printAll body ++
        [mark .rightBrace "\x7d"]
  | .block body => mark .leftBrace "\x7b" :: Stmt.printAll body ++ [mark .rightBrace "\x7d"]
  | .ifElse c th el =>
      mark .kwIf "if" :: mark .leftParen "(" :: c.print ++ mark .rightParen ")" :: th.print ++
        Stmt.printElse el
  | .whileLoop c body =>
      mark .kwWhile "while" :: mark .leftParen "(" :: c.print ++ mark .rightParen ")" :: body.print
  | .forLoop init c step body =>
      mark .kwFor "for" :: mark .leftParen "(" :: Stmt.printInit init ++
        (c.map Expr.print).getD [] ++ semi :: (step.map Expr.print).getD [] ++
        mark .rightParen ")" :: body.print
  | .returnStmt keyword value => keyword :: (value.map Expr.print).getD [] ++ [semi]

/-- The else branch, when there is one. -/
def Stmt.printElse : Option Stmt → List Token
  | none => []
  | some s => mark .kwElse "else" :: s.print

/-- The initializer of a loop, or a lone `;`. -/
def Stmt.printInit : Option Stmt → List Token
  | none => [semi]
  | some s => s.print

/-- Statements one after another. -/
def Stmt.printAll : List Stmt → List Token
  | [] => []
  | s :: rest => s.print ++ Stmt.printAll rest

end

section PrintEquations

/-! One equation for each statement form, so that the round-trip lemmas read a statement's
tokens without unfolding the printer. -/

variable (e c : Expr) (name keyword : Token) (params : List Token) (body : List Stmt)

theorem Stmt.print_expr : (Stmt.expr e).print = e.print ++ [semi] := rfl

theorem Stmt.print_output : (Stmt.output e).print = mark .kwOut "out" :: e.print ++ [semi] := rfl

theorem Stmt.print_varDecl (init : Option Expr) :
    (Stmt.varDecl name init).print = mark .kwVar "var" :: name ::
      ((init.map fun e => mark .equal "=" :: e.print).getD []) ++ [semi] := rfl

theorem Stmt.print_funDecl : (Stmt.funDecl name params body).print =
    mark .kwFun "fun" :: name :: mark .leftParen "(" :: printParams params ++
      mark .rightParen ")" :: mark .leftBrace "\x7b" :: Stmt.printAll body ++
      [mark .rightBrace "\x7d"] := rfl

theorem Stmt.print_block :
    (Stmt.block body).print = mark .leftBrace "\x7b" :: Stmt.printAll body ++
      [mark .rightBrace "\x7d"] := rfl

theorem Stmt.print_ifElse (th : Stmt) (el : Option Stmt) :
    (Stmt.ifElse c th el).print = mark .kwIf "if" :: mark .leftParen "(" :: c.print ++
      mark .rightParen ")" :: th.print ++ Stmt.printElse el := rfl

theorem Stmt.print_whileLoop (s : Stmt) :
    (Stmt.whileLoop c s).print = mark .kwWhile "while" :: mark .leftParen "(" :: c.print ++
      mark .rightParen ")" :: s.print := rfl

theorem Stmt.print_forLoop (init : Option Stmt) (cond step : Option Expr) (s : Stmt) :
    (Stmt.forLoop init cond step s).print = mark .kwFor "for" :: mark .leftParen "(" ::
      Stmt.printInit init ++ (cond.map Expr.print).getD [] ++ semi ::
      (step.map Expr.print).getD [] ++ mark .rightParen ")" :: s.print := rfl

theorem Stmt.print_returnStmt (value : Option Expr) :
    (Stmt.returnStmt keyword value).print =
      keyword :: (value.map Expr.print).getD [] ++ [semi] := rfl

theorem Stmt.printAll_nil : Stmt.printAll [] = [] := rfl

theorem Stmt.printAll_cons (s : Stmt) : Stmt.printAll (s :: body) = s.print ++ Stmt.printAll body :=
  rfl

end PrintEquations

/-- The initializer of a loop is well-formed: none, a declaration of a name, or an expression. -/
def Stmt.InitWellFormed : Option Stmt → Prop
  | none => True
  | some (.varDecl name init) => name.kind = .identifier ∧ ∀ e ∈ init, e.WellFormed
  | some (.expr e) => e.WellFormed
  | some _ => False

/-- The nesting levels the parser spends on a loop's initializer, the loop's own level apart. -/
def Stmt.initDepth : Option Stmt → Nat
  | some (.varDecl _ (some e)) => e.depth + 1
  | some (.expr e) => e.depth + 1
  | _ => 0

/-- The levels spent on an optional expression read one level down. -/
def Expr.optDepth : Option Expr → Nat
  | some e => e.depth + 1
  | none => 0

mutual

/-- A statement ends open when an `else` after it would belong to an `if` inside it. -/
def Stmt.Open : Stmt → Prop
  | .ifElse _ _ el => Stmt.ElseOpen el
  | .whileLoop _ body => body.Open
  | .forLoop _ _ _ body => body.Open
  | _ => False

def Stmt.ElseOpen : Option Stmt → Prop
  | none => True
  | some s => s.Open

end

mutual

/-- A statement the parser reads back where it reads declarations (`asDecl`) or only statements:
`var` and `fun` only in the first place, every expression well-formed, every `return` keeping
its keyword, and no open branch before an `else`. -/
def Stmt.WellFormed (asDecl : Bool) : Stmt → Prop
  | .expr e => e.WellFormed
  | .output e => e.WellFormed
  | .varDecl name init => asDecl = true ∧ name.kind = .identifier ∧ ∀ e ∈ init, e.WellFormed
  | .funDecl name params body => asDecl = true ∧ name.kind = .identifier ∧
      (∀ p ∈ params, p.kind = .identifier) ∧ params.length ≤ 255 ∧ Stmt.AllWellFormed body
  | .block body => Stmt.AllWellFormed body
  | .ifElse c th el => c.WellFormed ∧ th.WellFormed false ∧ Stmt.ElseWellFormed th el
  | .whileLoop c body => c.WellFormed ∧ body.WellFormed false
  | .forLoop init c step body => Stmt.InitWellFormed init ∧ (∀ e ∈ c, e.WellFormed) ∧
      (∀ e ∈ step, e.WellFormed) ∧ body.WellFormed false
  | .returnStmt keyword value => keyword.kind = .kwReturn ∧ ∀ e ∈ value, e.WellFormed

/-- An else branch is a well-formed statement after a branch that does not end open. -/
def Stmt.ElseWellFormed (th : Stmt) : Option Stmt → Prop
  | none => True
  | some s => ¬ th.Open ∧ s.WellFormed false

/-- Declarations, each well-formed. -/
def Stmt.AllWellFormed : List Stmt → Prop
  | [] => True
  | s :: rest => s.WellFormed true ∧ Stmt.AllWellFormed rest

end

mutual

/-- The nesting levels the parser spends on a statement, read as a declaration (`asDecl`) or
as a statement: a statement read where declarations are takes one level more. -/
def Stmt.depth (asDecl : Bool) : Stmt → Nat
  | .varDecl _ init => Expr.optDepth init
  | .funDecl _ _ body => Stmt.allDepth body + 1
  | .expr e => e.depth + 1 + asDecl.toNat
  | .output e => e.depth + 1 + asDecl.toNat
  | .returnStmt _ value => Expr.optDepth value + asDecl.toNat
  | .block body => Stmt.allDepth body + 1 + asDecl.toNat
  | .ifElse c th el =>
      max (c.depth + 1) (max (th.depth false + 1) (Stmt.elseDepth el)) + asDecl.toNat
  | .whileLoop c body => max (c.depth + 1) (body.depth false + 1) + asDecl.toNat
  | .forLoop init c step body =>
      max (Stmt.initDepth init) (max (Expr.optDepth c) (max (Expr.optDepth step)
        (body.depth false + 1))) + asDecl.toNat

def Stmt.elseDepth : Option Stmt → Nat
  | none => 0
  | some s => s.depth false + 1

/-- The deepest of declarations. -/
def Stmt.allDepth : List Stmt → Nat
  | [] => 0
  | s :: rest => max (s.depth true) (Stmt.allDepth rest)

end

/-- A program, closed by the end of input. -/
def printProgram (program : List Stmt) : List Token :=
  Stmt.printAll program ++ [mark .eof ""]

end ByteMachine.Source

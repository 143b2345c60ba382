import ByteMachine.Source.Token
/-!
# Syntax trees of the source language

Programs are lists of statements. Expressions keep the tokens that name variables, so that
later stages can point at them, and number literals keep their decimal text; ranges are checked
when code is generated.
-/

namespace ByteMachine.Source

/-- The binary operators. -/
inductive BinOp where
  | add | sub | mul | div | bitAnd | bitOr | eq | ne | lt | le | gt | ge
  deriving DecidableEq, Repr, Inhabited

/-- Operators whose operands are computed right to left, so that the left one ends in A and the
right one in B; the others commute. -/
def BinOp.isOrdered : BinOp → Bool
  | .add | .mul | .bitAnd | .bitOr => false
  | _ => true

/-- The prefix operators. -/
inductive UnaryOp where
  | not | neg | bitNot
  deriving DecidableEq, Repr, Inhabited

/-- The short-circuit operators. -/
inductive LogicOp where
  | and | or
  deriving DecidableEq, Repr, Inhabited

/-- Expressions. -/
inductive Expr where
  | binary (op : BinOp) (left right : Expr)
  | grouping (inner : Expr)
  | unary (op : UnaryOp) (operand : Expr)
  | bool (value : Bool)
  | str (value : String)
  | num (text : String)
  | var (name : Token)
  | assign (name : Token) (value : Expr)
  | logical (op : LogicOp) (left right : Expr)
  /-- A call keeps the closing parenthesis of its arguments. -/
  | call (callee : Expr) (paren : Token) (args : List Expr)
  | input
  deriving Repr, Inhabited

/-- Statements. -/
inductive Stmt where
  | expr (e : Expr)
  | ifElse (cond : Expr) (thenBranch : Stmt) (elseBranch : Option Stmt)
  | whileLoop (cond : Expr) (body : Stmt)
  | forLoop (init : Option Stmt) (cond : Option Expr) (step : Option Expr) (body : Stmt)
  | block (body : List Stmt)
  | varDecl (name : Token) (init : Option Expr)
  | funDecl (name : Token) (params : List Token) (body : List Stmt)
  | returnStmt (keyword : Token) (value : Option Expr)
  | output (e : Expr)
  deriving Repr, Inhabited

/-- An expression that evaluates into register A and touches no other register: a literal, a
variable, an input, or such an expression in parentheses. -/
def Expr.isLeaf : Expr → Bool
  | .bool _ | .num _ | .var _ | .input => true
  | .grouping e => e.isLeaf
  | _ => false

end ByteMachine.Source

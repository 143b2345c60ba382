import ByteMachine.Compiler.Line
import ByteMachine.Source.Syntax
import ByteMachine.Text.Numeral
/-!
# Code generation

Every value is a byte and is computed into register A. Each `var` statement claims the next RAM
byte from address 0 upward, and a name means the cell of its latest `var` in generation order,
with no scoping. A binary operator whose second operand is not a leaf saves the first operand in
a spill byte claimed from address 255 downward; the two kinds of claims share RAM, and a claim
fails once they would meet. Labels are numbered in the order they are created.
-/

namespace ByteMachine.Compiler

open Source

/-- The constructs of the source language that this target cannot run. -/
inductive Construct where
  | functions | returns | strings | calls
  deriving DecidableEq, Repr

/-- How a construct is named in an error. -/
def Construct.plural : Construct → String
  | .functions => "functions"
  | .returns => "return statements"
  | .strings => "string literals"
  | .calls => "function calls"

/-- Why a program has no code. -/
inductive CodegenError where
  | unsupported (construct : Construct)
  | undefinedVariable (name : String)
  | numberOutOfRange (text : String)
  /-- No RAM byte is left for a variable, or for a spill (named "temporary"). -/
  | ramExhausted (owner : String)
  deriving DecidableEq, Repr

/-- The text of a code generation error. -/
def CodegenError.message : CodegenError → String
  | .unsupported c => c.plural ++ " are not supported on this target"
  | .undefinedVariable n => "undefined variable: " ++ n
  | .numberOutOfRange t => "number out of range (0-255): " ++ t
  | .ramExhausted n => "out of RAM: no address left for '" ++ n ++ "'"

/-- What code generation has claimed so far. -/
structure Gen where
  /-- The number of the next label. -/
  labels : Nat := 0
  /-- The next variable address. -/
  nextAddress : Nat := 0
  /-- The lowest spill address claimed so far; 256 when none is. -/
  scratchFloor : Nat := 256
  /-- Variable names with their addresses, the latest declaration first. -/
  vars : List (String × UInt8) := []

/-- Code generation: it claims labels and RAM, and may fail. -/
abbrev GenM := StateT Gen (Except CodegenError)

/-- A fresh label name. -/
def freshLabel : GenM String := do
  let g ← get
  set { g with labels := g.labels + 1 }
  pure ("L" ++ toString g.labels)

/-- Claims the next variable address for `owner`. -/
def allocate (owner : String) : GenM UInt8 := do
  let g ← get
  if g.scratchFloor ≤ g.nextAddress then throw (.ramExhausted owner)
  set { g with nextAddress := g.nextAddress + 1 }
  pure g.nextAddress.toUInt8

/-- Claims a spill address, from the top of RAM down. -/
def allocateScratch : GenM UInt8 := do
  let g ← get
  if g.scratchFloor ≤ g.nextAddress then throw (.ramExhausted "temporary")
  set { g with scratchFloor := g.scratchFloor - 1 }
  pure (g.scratchFloor - 1).toUInt8

/-- Binds a name to an address; it hides earlier bindings of the name. -/
def bind (name : String) (addr : UInt8) : GenM Unit :=
  modify fun g => { g with vars := (name, addr) :: g.vars }

/-- The address of a variable. -/
def addressOf (name : Token) : GenM UInt8 := do
  match (← get).vars.lookup name.lexeme with
  | some addr => pure addr
  | none => throw (.undefinedVariable name.lexeme)

/-- The byte a number literal stands for: its whole part, before the first point, must be a
byte and its fraction all zeros. -/
def byteLiteral (text : String) : Option UInt8 :=
  let cs := text.toList
  let whole := cs.takeWhile (· ≠ '.')
  let fraction := (cs.dropWhile (· ≠ '.')).drop 1
  match Text.readInteger? false whole with
  | some v => if v < 256 ∧ fraction.all (· = '0') then some v.toNat.toUInt8 else none
  | none => none

/-- `load rom a v`. -/
def loadConst (v : UInt8) : Line := .instr (.loadImmediate .a) (.byte v)

/-- `save a ram[addr]`. -/
def storeA (addr : UInt8) : Line := .instr (.saveDirect .a) (.byte addr)

/-- `load ram[addr] r`. -/
def loadFrom (addr : UInt8) (r : Register) : Line := .instr (.loadDirect r) (.byte addr)

/-- `jmp cond label`. -/
def jumpTo (cond : Condition) (label : String) : Line := .instr (.jump cond) (.label label)

/-- `cmp a 0`. -/
def testA : Line := .plain (.compare .a (.constant 0))

/-- The ALU operation of an arithmetic operator, or for a comparison the condition under which
its result is 0. -/
def lowering : BinOp → AluOp ⊕ Condition
  | .add => .inl (.binary .add .a .b)
  | .sub => .inl (.binary .sub .a .b)
  | .mul => .inl (.binary .mul .a .b)
  | .div => .inl (.binary .div .a .b)
  | .bitAnd => .inl (.binary .bitAnd .a .b)
  | .bitOr => .inl (.binary .bitOr .a .b)
  | .gt => .inr .lessEqual
  | .ge => .inr .less
  | .lt => .inr .greaterEqual
  | .le => .inr .greater
  | .eq => .inr .notEqual
  | .ne => .inr .equal

/-- Computes `first` and then `second`, leaving the second in A and the first in B. A leaf
second operand leaves B alone, so the first is moved there; any other is preceded by a spill. -/
def operandsCode (first second : GenM (List Line)) (secondIsLeaf : Bool) : GenM (List Line) := do
  let a ← first
  if secondIsLeaf then
    let b ← second
    pure (a ++ [.plain (.move .a .b)] ++ b)
  else
    let s ← allocateScratch
    let b ← second
    pure (a ++ [storeA s] ++ b ++ [loadFrom s .b])

/-- Turns A into 1 when the compare of A with B does not meet `skipOn`, and into 0 when it does. -/
def compareCode (skipOn : Condition) : GenM (List Line) := do
  let skip ← freshLabel
  pure [.plain (.compare .a (.register .b)), loadConst 0, jumpTo skipOn skip, loadConst 1, .label skip]

/-- The code of an expression: it leaves the value in A. -/
def exprCode : Expr → GenM (List Line)
  | .num text =>
    match byteLiteral text with
    | some v => pure [loadConst v]
    | none => throw (.numberOutOfRange text)
  | .bool b => pure [loadConst (if b then 1 else 0)]
  | .str _ => throw (.unsupported .strings)
  | .call .. => throw (.unsupported .calls)
  | .input => pure [.plain (.input .a)]
  | .grouping e => exprCode e
  | .var name => do
    let addr ← addressOf name
    pure [loadFrom addr .a]
  | .assign name value => do
    let addr ← addressOf name
    let v ← exprCode value
    pure (v ++ [storeA addr])
  | .unary op operand => do
    let v ← exprCode operand
    match op with
    | .neg => pure (v ++ [.plain (.alu (.negate .a))])
    | .bitNot => pure (v ++ [.plain (.alu (.complement .a))])
    | .not => do
      let skip ← freshLabel
      pure (v ++ [testA, loadConst 0, jumpTo .notEqual skip, loadConst 1, .label skip])
  | .logical op left right => do
    let done ← freshLabel
    let l ← exprCode left
    let r ← exprCode right
    let cond := match op with
      | .and => Condition.equal
      | .or => Condition.notEqual
    pure (l ++ [testA, jumpTo cond done] ++ r ++ [.label done])
  | .binary op left right => do
    let operands ← if op.isOrdered then operandsCode (exprCode right) (exprCode left) left.isLeaf
      else operandsCode (exprCode left) (exprCode right) right.isLeaf
    match lowering op with
    | .inl alu => pure (operands ++ [.plain (.alu alu)])
    | .inr skipOn => do
      let c ← compareCode skipOn
      pure (operands ++ c)

/-- A loop: the condition, when there is one, is tested before each round; the step, when there
is one, follows the body. -/
def loopCode (cond : Option (GenM (List Line))) (body : GenM (List Line))
    (step : Option (GenM (List Line))) : GenM (List Line) := do
  let start ← freshLabel
  let done ← freshLabel
  let test ← match cond with
    | some c => do
      let code ← c
      pure (code ++ [testA, jumpTo .equal done])
    | none => pure []
  let b ← body
  let s ← match step with
    | some st => st
    | none => pure []
  pure ([.label start] ++ test ++ b ++ s ++ [jumpTo .always start, .label done])

mutual

/-- The code of a statement. -/
def stmtCode : Stmt → GenM (List Line)
  | .expr e => exprCode e
  | .output e => do
    let v ← exprCode e
    pure (v ++ [.plain (.output .a)])
  | .varDecl name init => do
    let addr ← allocate name.lexeme
    bind name.lexeme addr
    match init with
    | some e => do
      let v ← exprCode e
      pure (v ++ [storeA addr])
    | none => pure []
  | .block body => stmtsCode body
  | .ifElse cond th el => do
    let elseLabel ← freshLabel
    let endLabel ← freshLabel
    let c ← exprCode cond
    let t ← stmtCode th
    let e ← optStmtCode el
    pure (c ++ [testA, jumpTo .equal elseLabel] ++ t ++ [jumpTo .always endLabel, .label elseLabel] ++
      e ++ [.label endLabel])
  | .whileLoop cond body => loopCode (some (exprCode cond)) (stmtCode body) none
  | .forLoop init cond step body => do
    let i ← optStmtCode init
    let l ← loopCode (cond.map exprCode) (stmtCode body) (step.map exprCode)
    pure (i ++ l)
  | .funDecl .. => throw (.unsupported .functions)
  | .returnStmt .. => throw (.unsupported .returns)

/-- The code of an optional statement. -/
def optStmtCode : Option Stmt → GenM (List Line)
  | some s => stmtCode s
  | none => pure []

/-- The code of statements in order. -/
def stmtsCode : List Stmt → GenM (List Line)
  | [] => pure []
  | s :: rest => do
    let a ← stmtCode s
    let b ← stmtsCode rest
    pure (a ++ b)

end

/-- The code of a program, ending in `halt`; claims start afresh. -/
def generate (program : List Stmt) : Except CodegenError (List Line) :=
  (fun (lines, _) => lines ++ [.plain .halt]) <$> (stmtsCode program).run {}

end ByteMachine.Compiler

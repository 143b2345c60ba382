import ByteMachine.Compiler.Generate
import ByteMachine.Source.Lexer
import ByteMachine.Source.Parser
import ByteMachine.Assembly.Program
import ByteMachine.Machine.Run
/-!
# From source text to machine code

Compiling reads tokens, parses them, generates assembly lines, writes them as text and assembles
that text. The first stage that fails gives the error.
-/

namespace ByteMachine.Compiler

open Source

/-- The error of the first failing stage. -/
inductive CompileError where
  | lex (e : LexError)
  | parse (e : SyntaxError)
  | codegen (e : CodegenError)
  | assemble (e : AsmError)

/-- The text of a compile error is that of its stage's error. -/
def CompileError.message : CompileError → String
  | .lex e => e.message
  | .parse e => e.message
  | .codegen e => e.message
  | .assemble e => e.message

/-- A compiled program: its assembly text, line by line, and its machine code. -/
structure Compiled where
  assembly : List String
  machineCode : List UInt8

/-- The assembly lines generated for a source text. -/
def generateSource (source : String) : Except CompileError (List Line) := do
  let tokens ← (tokenize source).mapError .lex
  let program ← (parseTokens tokens).mapError .parse
  (generate program).mapError .codegen

/-- Compiles a source text to assembly and machine code. -/
def compile (source : String) : Except CompileError Compiled := do
  let lines ← generateSource source
  let text := lines.map Line.text
  let code ← (Assembly.assemble text).mapError .assemble
  pure ⟨text, code⟩

end ByteMachine.Compiler

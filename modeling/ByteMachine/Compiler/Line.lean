import ByteMachine.Isa.Table
/-!
# Generated assembly lines

The code generator produces lines of assembly: instructions of the table with their operand,
and label declarations. A line is written as the assembler reads it: the template of its
operation with the operand in the slot, a byte in decimal and a label by its name.
-/

namespace ByteMachine.Compiler

/-- The operand of a generated instruction. -/
inductive Arg where
  | none
  | byte (v : UInt8)
  | label (name : String)
  deriving DecidableEq, Repr

/-- A generated line: an instruction with its operand, or a label declaration. -/
inductive Line where
  | instr (op : Op) (arg : Arg)
  | label (name : String)
  deriving DecidableEq, Repr

namespace Line

/-- An instruction without operand. -/
def plain (op : Op) : Line := .instr op .none

/-- The text of a line. -/
def text : Line → String
  | .instr op .none => op.pattern
  | .instr op (.byte v) => op.template.lead ++ toString v.toNat ++ op.template.trail
  | .instr op (.label l) => op.template.lead ++ l ++ op.template.trail
  | .label name => ":" ++ name

example : (Line.instr (.saveDirect .a) (.byte 7)).text = "save a ram[7]" ∧
    (Line.instr (.jump .notEqual) (.label "L3")).text = "jmp != L3" ∧
    (Line.plain (.alu (.binary .add .a .b))).text = "opp a+b" := by decide

end Line

end ByteMachine.Compiler

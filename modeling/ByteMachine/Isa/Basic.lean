/-!
# Registers, conditions and operations

The machine has four byte registers. An operation is the decoded meaning of one opcode byte; its
template is the mnemonic text around at most one operand slot, which holds either one immediate
byte or a two-byte big-endian address.
-/

namespace ByteMachine

/-- The four general registers. -/
inductive Register where
  | a | b | c | d
  deriving DecidableEq, Repr, Inhabited

namespace Register

/-- All registers, in encoding order. -/
def all : List Register := [.a, .b, .c, .d]

/-- The mnemonic name of a register. -/
def name : Register → String
  | .a => "a" | .b => "b" | .c => "c" | .d => "d"

/-- Reads a register name. -/
def ofName? : String → Option Register
  | "a" => some .a | "b" => some .b | "c" => some .c | "d" => some .d
  | _ => none

/-- Ordered pairs of two different registers, first register outermost. -/
def distinctPairs : List (Register × Register) :=
  all.flatMap fun x => (all.filter (· ≠ x)).map fun y => (x, y)

/-- All ordered pairs of registers, first register outermost. -/
def allPairs : List (Register × Register) :=
  all.flatMap fun x => all.map fun y => (x, y)

/-- Unordered pairs of two different registers, each written with its earlier register first. -/
def risingPairs : List (Register × Register) :=
  [(.a, .b), (.a, .c), (.a, .d), (.b, .c), (.b, .d), (.c, .d)]

end Register

/-- Branch conditions of the jumps, read from the flags. -/
inductive Condition where
  | always | equal | notEqual | less | lessEqual | greater | greaterEqual
  | signedLess | signedLessEqual | signedGreater | signedGreaterEqual
  | zero | overflow | carry | sign
  deriving DecidableEq, Repr, Inhabited

namespace Condition

/-- All conditions, in encoding order. -/
def all : List Condition :=
  [.always, .equal, .notEqual, .less, .lessEqual, .greater, .greaterEqual, .signedLess,
    .signedLessEqual, .signedGreater, .signedGreaterEqual, .zero, .overflow, .carry, .sign]

/-- The condition word of a jump; the unconditional jump has none. -/
def symbol : Condition → String
  | .always => ""
  | .equal => "="
  | .notEqual => "!="
  | .less => "<"
  | .lessEqual => "<="
  | .greater => ">"
  | .greaterEqual => ">="
  | .signedLess => ".<"
  | .signedLessEqual => ".<="
  | .signedGreater => ".>"
  | .signedGreaterEqual => ".>="
  | .zero => "z"
  | .overflow => "o"
  | .carry => "c"
  | .sign => "s"

/-- Reads a condition word; the empty word is no condition word. -/
def ofSymbol? (w : String) : Option Condition :=
  (all.filter (· ≠ .always)).find? (·.symbol == w)

end Condition

/-- The right-hand side of a comparison. -/
inductive Operand where
  | constant (k : Int)
  | register (r : Register)
  deriving DecidableEq, Repr, Inhabited

/-- The two-register ALU operations. -/
inductive BinaryOp where
  | add | sub | mul | mulHigh | div | bitAnd | bitOr
  deriving DecidableEq, Repr, Inhabited

/-- The operator sign of a two-register ALU operation. -/
def BinaryOp.symbol : BinaryOp → String
  | .add => "+" | .sub => "-" | .mul => "*" | .mulHigh => ".*" | .div => "/"
  | .bitAnd => "&" | .bitOr => "|"

/-- The operations of the ALU. -/
inductive AluOp where
  | clear
  | carryOff
  | carryOn
  | signOff
  | signOn
  | constant (k : Int)
  | copy (r : Register)
  | complement (r : Register)
  | negate (r : Register)
  | increment (r : Register)
  | decrement (r : Register)
  | binary (op : BinaryOp) (x y : Register)
  deriving DecidableEq, Repr, Inhabited

namespace AluOp

/-- The register that receives the result: the first register of the mnemonic when it starts
with one, and A when it starts with a sign or a constant. -/
def destination : AluOp → Register
  | .copy r | .increment r | .decrement r => r
  | .binary _ x _ => x
  | _ => .a

/-- The operand text of an ALU operation. -/
def text : AluOp → String
  | .clear => "clr"
  | .carryOff => "carry off"
  | .carryOn => "carry on"
  | .signOff => "sign off"
  | .signOn => "sign on"
  | .constant k => toString k
  | .copy r => r.name
  | .complement r => "~" ++ r.name
  | .negate r => "-" ++ r.name
  | .increment r => r.name ++ "+1"
  | .decrement r => r.name ++ "-1"
  | .binary op x y => x.name ++ op.symbol ++ y.name

end AluOp

/-- The decoded meaning of an opcode byte. -/
inductive Op where
  | nop
  | halt
  /-- Copies the first register into the second. -/
  | move (src dst : Register)
  | compare (r : Register) (rhs : Operand)
  | jump (cond : Condition)
  | jumpRelative (cond : Condition)
  | alu (op : AluOp)
  /-- Loads `target` from the RAM byte addressed by `address`. -/
  | loadIndirect (address target : Register)
  | loadImmediate (r : Register)
  | loadDirect (r : Register)
  | setPage (r : Register)
  | saveMar (r : Register)
  | saveCurrent (r : Register)
  /-- Stores `src` into the RAM byte addressed by `address`. -/
  | saveIndirect (src address : Register)
  | saveDirect (r : Register)
  | input (r : Register)
  | output (r : Register)
  | outputImmediate
  | outputDirect
  | outputIndirect (r : Register)
  deriving DecidableEq, Repr, Inhabited

/-- What follows an opcode byte: nothing, one immediate byte, or a two-byte address. -/
inductive Slot where
  | none | number | label
  deriving DecidableEq, Repr, Inhabited

namespace Slot

/-- The bytes that the slot occupies after the opcode. -/
def size : Slot → Nat
  | .none => 0 | .number => 1 | .label => 2

/-- The placeholder that stands for the slot in a pattern. -/
def placeholder : Slot → String
  | .none => ""
  | .number => "\x7bnumber\x7d"
  | .label => "\x7blabel\x7d"

end Slot

/-- Mnemonic text around an operand slot. -/
structure Template where
  lead : String
  slot : Slot
  trail : String := ""
  deriving DecidableEq, Repr

/-- The pattern text of a template, with the slot's placeholder. -/
def Template.pattern (t : Template) : String := t.lead ++ t.slot.placeholder ++ t.trail

namespace Op

/-- The mnemonic template of an operation. -/
def template : Op → Template
  | .nop => ⟨"nop", .none, ""⟩
  | .halt => ⟨"halt", .none, ""⟩
  | .move x y => ⟨s!"mov {x.name} {y.name}", .none, ""⟩
  | .compare r (.constant k) => ⟨s!"cmp {r.name} {k}", .none, ""⟩
  | .compare r (.register s) => ⟨s!"cmp {r.name} {s.name}", .none, ""⟩
  | .jump .always => ⟨"jmp ", .label, ""⟩
  | .jump c => ⟨s!"jmp {c.symbol} ", .label, ""⟩
  | .jumpRelative .always => ⟨"jmpr ", .number, ""⟩
  | .jumpRelative c => ⟨s!"jmpr {c.symbol} ", .number, ""⟩
  | .alu op => ⟨"opp " ++ op.text, .none, ""⟩
  | .loadIndirect x t => ⟨s!"load ram[{x.name}] {t.name}", .none, ""⟩
  | .loadImmediate r => ⟨s!"load rom {r.name} ", .number, ""⟩
  | .loadDirect r => ⟨"load ram[", .number, "] " ++ r.name⟩
  | .setPage r => ⟨s!"set {r.name} rampage", .none, ""⟩
  | .saveMar r => ⟨s!"save {r.name} mar", .none, ""⟩
  | .saveCurrent r => ⟨s!"save {r.name} ram[current]", .none, ""⟩
  | .saveIndirect r x => ⟨s!"save {r.name} ram[{x.name}]", .none, ""⟩
  | .saveDirect r => ⟨s!"save {r.name} ram[", .number, "]"⟩
  | .input r => ⟨"in " ++ r.name, .none, ""⟩
  | .output r => ⟨"out " ++ r.name, .none, ""⟩
  | .outputImmediate => ⟨"out ", .number, ""⟩
  | .outputDirect => ⟨"out ram[", .number, "]"⟩
  | .outputIndirect r => ⟨s!"out ram[{r.name}]", .none, ""⟩

/-- The slot of an operation. -/
def slot (op : Op) : Slot := op.template.slot

/-- The pattern text of an operation, such as `jmp = {label}`. -/
def pattern (op : Op) : String := op.template.pattern

/-- The encoded length of an operation, opcode byte included. -/
def length (op : Op) : Nat := 1 + op.slot.size

end Op

end ByteMachine

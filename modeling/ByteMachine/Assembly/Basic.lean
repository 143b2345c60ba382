import Std.Data.TreeMap
import ByteMachine.Text.Numeral
/-!
# Pieces, labels and assembly errors

The first pass of the assembler turns lines into pieces: finished bytes, and references to labels
that stand for two bytes. The second pass replaces each reference with the label's big-endian
byte offset, read from the label table that the first pass filled.
-/

namespace ByteMachine

/-- One unit of the first pass: a finished byte, or a label reference that takes two bytes. -/
inductive Piece where
  | byte (b : UInt8)
  | label (name : String)
  deriving DecidableEq, Repr

/-- The number of bytes a piece stands for. -/
def Piece.size : Piece → Nat
  | .byte _ => 1
  | .label _ => 2

/-- The number of bytes a run of pieces stands for. -/
def Piece.totalSize (ps : List Piece) : Nat := ps.foldr (fun p n => p.size + n) 0

/-- Label names and the byte offsets at which they were declared, ordered by name. -/
abbrev LabelTable := Std.TreeMap String Nat

/-- Why a line or a label reference cannot be assembled. -/
inductive AsmError where
  /-- The first word of the line names no instruction family. -/
  | unknownInstruction (line : Nat) (text : String)
  /-- The operands do not fit the family, or no pattern takes them. -/
  | invalidOperand (line : Nat) (text : String)
  | duplicateLabel (line : Nat) (label : String)
  | undefinedLabel (label : String)
  /-- The label's offset needs more than two bytes. -/
  | labelOutOfRange (label : String) (offset : Nat)
  /-- An immediate operand does not fit in a byte. -/
  | numberRange (line : Nat) (value : String)
  deriving DecidableEq, Repr

/-- The text of an assembly error. -/
def AsmError.message : AsmError → String
  | .unknownInstruction n t => "line " ++ toString n ++ ": unrecognized instruction: " ++ t
  | .invalidOperand n t => "line " ++ toString n ++ ": invalid operands: " ++ t
  | .duplicateLabel n l => "line " ++ toString n ++ ": duplicate label detected: " ++ l
  | .undefinedLabel l => "undefined label: " ++ l
  | .labelOutOfRange l off =>
    "label " ++ l ++ " at offset 0x" ++ Text.hexText 0 off ++ " is beyond 16-bit address space"
  | .numberRange n v => "line " ++ toString n ++ ": number larger than can fit in register: " ++ v

/-- Resolves pieces after the bytes `done`, which are already finished. -/
def resolveAfter (labels : LabelTable) (done : Array UInt8) : List Piece → Except AsmError (List UInt8)
  | [] => .ok done.toList
  | .byte b :: rest => resolveAfter labels (done.push b) rest
  | .label name :: rest =>
    match labels[name]? with
    | none => .error (.undefinedLabel name)
    | some off =>
      if off ≤ 0xFFFF then
        resolveAfter labels ((done.push (off / 256).toUInt8).push (off % 256).toUInt8) rest
      else .error (.labelOutOfRange name off)

/-- Replaces every label reference with the two big-endian bytes of its offset. The first
reference that cannot be resolved is the error. -/
def resolve (labels : LabelTable) (pieces : List Piece) : Except AsmError (List UInt8) :=
  resolveAfter labels #[] pieces

end ByteMachine

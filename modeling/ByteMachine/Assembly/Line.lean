import ByteMachine.Assembly.Basic
import ByteMachine.Isa.Table
import ByteMachine.Text.Blank
/-!
# Assembling one line

A line names an instruction family by its first word. Its operands must first fit the family's
grammar; the words, joined by single spaces, are then matched against the instruction table: an
exact pattern gives its opcode alone, and otherwise the first pattern whose text surrounds a
single operand word takes it, as a label reference or as a numeral that must fit in a byte.
-/

namespace ByteMachine.Assembly

/-- The radix and the digits of an operand numeral: a leading `0x`, `0b` or `0o`, in either case,
selects radix 16, 2 or 8; any other word is decimal. -/
def numeralParts (w : List Char) : Nat × List Char :=
  match w with
  | '0' :: p :: rest =>
    if p.toLower = 'x' then (16, rest)
    else if p.toLower = 'b' then (2, rest)
    else if p.toLower = 'o' then (8, rest)
    else (10, w)
  | _ => (10, w)

/-- The value of an operand numeral: at least one digit, each valid in the radix. -/
def numeralValue? (w : List Char) : Option Nat :=
  Text.digitsValue (numeralParts w).1 (numeralParts w).2

/-- The word is an operand numeral. -/
def isNumeral (w : String) : Bool := (numeralValue? w.toList).isSome

/-- The word names a register. -/
def isRegister (w : String) : Bool := (Register.ofName? w).isSome

/-- The text inside a `ram[...]` operand. -/
def ramInner? (w : String) : Option String :=
  match w.toList with
  | 'r' :: 'a' :: 'm' :: '[' :: rest =>
    if rest.getLast? = some ']' then some (String.ofList rest.dropLast) else none
  | _ => none

/-- The word is a RAM operand addressed by a register. -/
def isRamRegister (w : String) : Bool := ((ramInner? w).map isRegister).getD false

/-- The word is a RAM operand with a numeral address. -/
def isRamNumber (w : String) : Bool := ((ramInner? w).map isNumeral).getD false

/-- A jump takes a target, optionally after a condition word. -/
def jumpAccepts (target : String → Bool) : List String → Bool
  | [t] => target t
  | [c, t] => (Condition.ofSymbol? c).isSome && target t
  | _ => false

/-- Whether the operands fit the grammar of a family; `none` when the family is unknown. -/
def accepts (family : String) (ops : List String) : Option Bool :=
  match family with
  | "nop" | "halt" => some ops.isEmpty
  | "mov" =>
    some (match ops with
      | [x, y] => isRegister x && isRegister y && x != y
      | _ => false)
  | "cmp" =>
    some (match ops with
      | [r, k] => isRegister r && (isRegister k || ["0", "1", "-1", "255"].contains k)
      | _ => false)
  | "jmp" => some (jumpAccepts (fun t => !t.isEmpty) ops)
  | "jmpr" => some (jumpAccepts isNumeral ops)
  | "opp" => some !ops.isEmpty
  | "load" =>
    some (match ops with
      | ["rom", r, n] => isRegister r && isNumeral n
      | [src, r] => isRegister r && (isRamRegister src || isRamNumber src)
      | _ => false)
  | "set" =>
    some (match ops with
      | [r, "rampage"] => isRegister r
      | _ => false)
  | "save" =>
    some (match ops with
      | [r, t] => isRegister r &&
          (t == "mar" || t == "ram[current]" || isRamRegister t || isRamNumber t)
      | _ => false)
  | "in" =>
    some (match ops with
      | [r] => isRegister r
      | _ => false)
  | "out" =>
    some (match ops with
      | [x] => isRegister x || isNumeral x || isRamRegister x || isRamNumber x
      | _ => false)
  | _ => none

/-- Removes `lead` from the front of a text. -/
def dropLead? : List Char → List Char → Option (List Char)
  | [], cs => some cs
  | _ :: _, [] => none
  | l :: ls, c :: cs => if l = c then dropLead? ls cs else none

/-- The text between `lead` and `trail`, when the text starts with one and then ends with the other. -/
def between? (lead trail cs : List Char) : Option (List Char) :=
  (dropLead? lead cs).bind fun rest =>
    (dropLead? trail.reverse rest.reverse).map List.reverse

/-- A table pattern with a slot, as the text before and after the slot. -/
structure SlotPattern where
  opcode : UInt8
  lead : List Char
  slot : Slot
  trail : List Char

/-- The patterns that have a slot, in table order. -/
def slotPatterns : List SlotPattern :=
  Isa.table.filterMap fun i =>
    let t := i.op.template
    if t.slot = .none then none else some ⟨i.opcode, t.lead.toList, t.slot, t.trail.toList⟩

/-- Fills the slot of the first pattern that surrounds a single operand word. A numeral of a
byte-sized slot must fit in a byte; a word that is no numeral leaves the pattern to the next. -/
def fillSlot (lineNo : Nat) (text : String) (line : List Char) :
    List SlotPattern → Except AsmError (List Piece)
  | [] => .error (.invalidOperand lineNo text)
  | p :: rest =>
    match between? p.lead p.trail line with
    | some mid =>
      if mid.isEmpty || mid.any Text.isBlank then fillSlot lineNo text line rest
      else match p.slot with
        | .label => .ok [.byte p.opcode, .label (String.ofList mid)]
        | .number =>
          match numeralValue? mid with
          | some v =>
            if v < 256 then .ok [.byte p.opcode, .byte v.toUInt8]
            else .error (.numberRange lineNo (String.ofList mid))
          | none => fillSlot lineNo text line rest
        | .none => fillSlot lineNo text line rest
    | none => fillSlot lineNo text line rest

/-- Assembles one trimmed, comment-free, non-empty line that declares no label. -/
def encodeLine (lineNo : Nat) (line : List Char) : Except AsmError (List Piece) :=
  let ws := (Text.words line).map String.ofList
  let text := String.ofList line
  match ws with
  | [] => .error (.unknownInstruction lineNo text)
  | family :: ops =>
    match accepts family ops with
    | none => .error (.unknownInstruction lineNo text)
    | some false => .error (.invalidOperand lineNo text)
    | some true =>
      let normalized := " ".intercalate ws
      match opcodeOf normalized with
      | some b => .ok [.byte b]
      | none => fillSlot lineNo text normalized.toList slotPatterns

end ByteMachine.Assembly

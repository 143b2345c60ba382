import ByteMachine.Isa.Table
import ByteMachine.Text.Numeral
/-!
# Listings

A listing walks a byte string from its start and cuts it into entries. An assigned opcode whose
operand bytes are all present makes one entry with its pattern filled in; any other byte makes an
entry of its own, written as a raw byte. So the entries' bytes, read in order, are the input.
-/

namespace ByteMachine

/-- One line of a listing: where it starts, the bytes it covers and their text. -/
structure Entry where
  offset : Nat
  bytes : List UInt8
  text : String
  deriving DecidableEq, Repr

namespace Entry

/-- The entry of a byte that is not read as an instruction. -/
def raw (offset : Nat) (b : UInt8) : Entry :=
  ⟨offset, [b], ".byte 0x" ++ Text.hexText 2 b.toNat⟩

/-- The bytes of an entry in hexadecimal, two digits each, separated by single spaces. -/
def hexBytes (e : Entry) : String :=
  " ".intercalate (e.bytes.map fun b => Text.hexText 2 b.toNat)

/-- The printed line: a four-digit offset, the bytes left-aligned in nine columns, the text. -/
def line (e : Entry) : String :=
  let hex := e.hexBytes
  Text.hexText 4 e.offset ++ ": " ++ hex ++ "".pushn ' ' (9 - hex.length) ++ " " ++ e.text

end Entry

/-- Cuts bytes into listing entries, the first at `offset`. -/
def entriesFrom (offset : Nat) : List UInt8 → List Entry
  | [] => []
  | b :: rest =>
    match decode b with
    | some op =>
      match op.slot, hr : rest with
      | .none, _ => ⟨offset, [b], op.pattern⟩ :: entriesFrom (offset + 1) rest
      | .number, n :: rest' =>
        ⟨offset, [b, n], op.template.lead ++ toString n.toNat ++ op.template.trail⟩ ::
          entriesFrom (offset + 2) rest'
      | .label, hi :: lo :: rest' =>
        let target := "0x" ++ Text.hexText 4 (hi.toNat * 256 + lo.toNat)
        ⟨offset, [b, hi, lo], op.template.lead ++ target ++ op.template.trail⟩ ::
          entriesFrom (offset + 3) rest'
      | _, _ => Entry.raw offset b :: entriesFrom (offset + 1) rest
    | none => Entry.raw offset b :: entriesFrom (offset + 1) rest
termination_by bs => bs.length
decreasing_by all_goals simp_all <;> omega

/-- The listing entries of a byte string. -/
def entries (bytes : List UInt8) : List Entry := entriesFrom 0 bytes

/-- The listing text: every entry's line followed by a line feed. -/
def listing (bytes : List UInt8) : String :=
  String.join ((entries bytes).map fun e => e.line ++ "\n")

/-- Bytes cut into rows of sixteen; the last row may be shorter. -/
def hexRows : List UInt8 → List (List UInt8)
  | [] => []
  | b :: rest => (b :: rest).take 16 :: hexRows (rest.drop 15)
termination_by bs => bs.length
decreasing_by simp only [List.length_drop, List.length_cons]; omega

/-- Bytes in hexadecimal, sixteen to a line, each line ending in a line feed. -/
def hexDump (bytes : List UInt8) : String :=
  String.join ((hexRows bytes).map fun row =>
    " ".intercalate (row.map fun b => Text.hexText 2 b.toNat) ++ "\n")

end ByteMachine

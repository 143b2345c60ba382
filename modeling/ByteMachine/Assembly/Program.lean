import ByteMachine.Assembly.Line
import ByteMachine.Text.Lines
/-!
# Assembling a program

The first pass reads the lines in order. A comment runs from the first `//` to the end of its
line; blank lines are skipped; a line `:name` binds the label `name` to the number of bytes
assembled so far, and any other line is assembled by itself. The label table is cleared at the
start and holds, after a failure, the labels of the lines before the failing one.
-/

namespace ByteMachine.Assembly

/-- A line without its comment, which runs from the first `//`. -/
def beforeComment : List Char → List Char
  | '/' :: '/' :: _ => []
  | c :: rest => c :: beforeComment rest
  | [] => []

/-- A line without its comment and without blanks at either end. -/
def cleanLine (raw : List Char) : List Char := Text.trim (beforeComment raw)

/-- What the first pass leaves: the label table as far as it got, and the pieces or the error. -/
structure FirstPass where
  labels : LabelTable
  result : Except AsmError (List Piece)

/-- The first pass over the lines numbered from `lineNo`, after `offset` bytes, the pieces `done`
and the labels declared so far. -/
def passFrom (labels : LabelTable) (offset : Nat) (done : Array Piece) (lineNo : Nat) :
    List String → FirstPass
  | [] => ⟨labels, .ok done.toList⟩
  | raw :: rest =>
    match cleanLine raw.toList with
    | [] => passFrom labels offset done (lineNo + 1) rest
    | ':' :: name =>
      let label := String.ofList (Text.trim name)
      if label.isEmpty then ⟨labels, .error (.invalidOperand lineNo ":")⟩
      else if labels.contains label then ⟨labels, .error (.duplicateLabel lineNo label)⟩
      else passFrom (labels.insert label offset) offset done (lineNo + 1) rest
    | line =>
      match encodeLine lineNo line with
      | .ok ps => passFrom labels (offset + Piece.totalSize ps) (done ++ ps.toArray) (lineNo + 1) rest
      | .error e => ⟨labels, .error e⟩

/-- The first pass over a list of lines, numbered from 1. -/
def firstPass (lines : List String) : FirstPass := passFrom ∅ 0 #[] 1 lines

/-- Assembles lines into bytes: the first pass, then every label reference resolved. -/
def assemble (lines : List String) : Except AsmError (List UInt8) :=
  let pass := firstPass lines
  pass.result.bind (resolve pass.labels)

/-- Assembles a text, cut into lines. -/
def assembleText (text : String) : Except AsmError (List UInt8) :=
  assemble (Text.stringLines text)

end ByteMachine.Assembly

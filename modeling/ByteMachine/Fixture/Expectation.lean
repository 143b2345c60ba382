import ByteMachine.Assembly.Basic
import ByteMachine.Text.Blank
import ByteMachine.Text.Lines
import ByteMachine.Text.Numeral
/-!
# Expectations

An expectation says how a program should behave: its step budget (`s`, 500 by default, negative
for an open-ended run), the bytes it reads (`i`), the values it writes (`o`) and RAM bytes it
must leave (`r`, as `address:value` pairs). Each is one `key: value` line; lines without a
colon and unknown keys are ignored, and a later line replaces an earlier one with its key.
Numbers are decimal integers of their type's range, and empty list items are skipped.
-/

namespace ByteMachine.Fixture

/-- What a program is expected to do. -/
structure Expectation where
  maxSteps : Int := 500
  inputs : List UInt8 := []
  outputs : List Int := []
  ram : List (UInt8 × UInt8) := []
  deriving DecidableEq, Repr

/-- Why an expectation cannot be checked. -/
inductive FixtureError where
  /-- A line with a known key whose value cannot be read; the text is the trimmed line. -/
  | malformed (line : Nat) (text : String)
  /-- The program text does not assemble. -/
  | assembly (e : AsmError)
  deriving DecidableEq, Repr

/-- The text of a fixture error. -/
def FixtureError.message : FixtureError → String
  | .malformed n t => "line " ++ toString n ++ ": malformed expectation: " ++ t
  | .assembly e => e.message

/-- A trimmed decimal integer within `lo..hi`; a minus sign only when `lo` is negative. -/
def readBounded (lo hi : Int) (cs : List Char) : Option Int :=
  match Text.readInteger? (decide (lo < 0)) (Text.trim cs) with
  | some v => if lo ≤ v ∧ v ≤ hi then some v else none
  | none => none

/-- A byte. -/
def readByte (cs : List Char) : Option UInt8 :=
  (readBounded 0 255 cs).map fun v => v.toNat.toUInt8

/-- The items of a list value: the pieces between commas that are not blank. -/
def items (cs : List Char) : List (List Char) :=
  (cs.splitOn ',').filter fun item => !(Text.trim item).isEmpty

/-- An `address:value` pair, split at its first colon. -/
def readPair (cs : List Char) : Option (UInt8 × UInt8) :=
  match cs.span (· ≠ ':') with
  | (addr, _ :: value) => do
    let a ← readByte addr
    let v ← readByte value
    pure (a, v)
  | (_, []) => none

/-- Applies one line of an expectation text. -/
def Expectation.withLine (e : Expectation) (lineNo : Nat) (raw : List Char) :
    Except FixtureError Expectation :=
  match raw.span (· ≠ ':') with
  | (_, []) => .ok e
  | (key, _ :: rest) =>
    let value := Text.trim rest
    let bad : FixtureError := .malformed lineNo (String.ofList (Text.trim raw))
    let orBad {α : Type} : Option α → Except FixtureError α := fun
      | some a => .ok a
      | none => .error bad
    match String.ofList (Text.trim key) with
    | "s" => (fun s => { e with maxSteps := s }) <$> orBad (readBounded (-9223372036854775808) 9223372036854775807 value)
    | "i" => (fun xs => { e with inputs := xs }) <$> orBad ((items value).mapM readByte)
    | "o" => (fun xs => { e with outputs := xs }) <$> orBad ((items value).mapM (readBounded (-32768) 32767))
    | "r" => (fun xs => { e with ram := xs }) <$> orBad ((items value).mapM readPair)
    | _ => .ok e

/-- Applies the lines of an expectation text numbered from `lineNo`. -/
def Expectation.withLines (e : Expectation) (lineNo : Nat) : List (List Char) → Except FixtureError Expectation
  | [] => .ok e
  | raw :: rest => do
    let e' ← e.withLine lineNo raw
    e'.withLines (lineNo + 1) rest

/-- Reads an expectation text. -/
def Expectation.parse (text : String) : Except FixtureError Expectation :=
  ({} : Expectation).withLines 1 (Text.lines text.toList)

end ByteMachine.Fixture

import ByteMachine.Fixture.Expectation
import ByteMachine.Machine.Run
import ByteMachine.Assembly.Program
/-!
# Checking a program against an expectation

The program runs on a fresh machine that reads the expected inputs. A bounded run takes at most
`s` steps and must halt; an open-ended run takes at most 5000 steps and stops as soon as it has
written as many values as expected, which then only have to start with the expected values.
-/

namespace ByteMachine.Fixture

/-- The step budget of an open-ended run. -/
def openEndedLimit : Nat := 5000

/-- A RAM byte that differs from its expected value. -/
structure Mismatch where
  address : UInt8
  expected : UInt8
  actual : UInt8
  deriving DecidableEq, Repr

/-- What a checked run observed. -/
structure Report where
  steps : Nat
  halted : Bool
  outputs : List Int
  expectedOutputs : List Int
  mismatches : List Mismatch
  openEnded : Bool
  deriving DecidableEq, Repr

namespace Report

/-- The outputs agree: all of them in a bounded run, a prefix in an open-ended one. -/
def outputsMatch (r : Report) : Bool :=
  if r.openEnded then r.expectedOutputs.isPrefixOf r.outputs else r.outputs == r.expectedOutputs

/-- The run passed: it halted unless open-ended, its outputs match and no RAM byte differs. -/
def passed (r : Report) : Bool :=
  (r.openEnded || r.halted) && r.outputsMatch && r.mismatches.isEmpty

/-- A list of values in brackets, separated by commas. -/
def listText (xs : List Int) : String := "[" ++ ", ".intercalate (xs.map toString) ++ "]"

/-- The reasons a run failed, in order; none when it passed. -/
def failures (r : Report) : List String :=
  (if !r.openEnded && !r.halted then ["did not halt within " ++ toString r.steps ++ " steps"] else []) ++
  (if !r.outputsMatch then
    ["outputs " ++ listText r.outputs ++ ", expected " ++ listText r.expectedOutputs] else []) ++
  r.mismatches.map fun m =>
    "ram[" ++ toString m.address.toNat ++ "] = " ++ toString m.actual.toNat ++ ", expected " ++
      toString m.expected.toNat

end Report

/-- Steps a machine at most `fuel` more times after `steps` steps; an open-ended run also stops
once `wanted` values are written. Gives the machine, the outputs, the steps and whether it
halted. -/
def runChecked (openEnded : Bool) (wanted : Nat) (m : Machine) (outs : Array Int) (steps : Nat) :
    Nat → Machine × Array Int × Nat × Bool
  | 0 => (m, outs, steps, false)
  | fuel + 1 =>
    let s := m.step
    let outs := match s.output with
      | some v => outs.push v
      | none => outs
    if !s.running then (s.machine, outs, steps + 1, true)
    else if openEnded && wanted ≤ outs.size then (s.machine, outs, steps + 1, false)
    else runChecked openEnded wanted s.machine outs (steps + 1) fuel

/-- The expected RAM bytes that a machine does not hold, in the order they are expected. -/
def mismatches (ram : List (UInt8 × UInt8)) (m : Machine) : List Mismatch :=
  ram.filterMap fun (address, expected) =>
    let actual := m.read address
    if actual = expected then none else some ⟨address, expected, actual⟩

/-- Runs a program against an expectation. -/
def check (program : List UInt8) (x : Expectation) : Report :=
  let openEnded := decide (x.maxSteps < 0)
  let limit := if openEnded then openEndedLimit else x.maxSteps.toNat
  let (m, outs, steps, halted) :=
    runChecked openEnded x.outputs.length (Machine.boot program x.inputs) #[] 0 limit
  ⟨steps, halted, outs.toList, x.outputs, mismatches x.ram m, openEnded⟩

/-- Assembles a program text and runs it against an expectation. -/
def checkSource (source : String) (x : Expectation) : Except FixtureError Report :=
  match Assembly.assembleText source with
  | .ok program => .ok (check program x)
  | .error e => .error (.assembly e)

end ByteMachine.Fixture

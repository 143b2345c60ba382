import ByteMachine.Machine.Step
/-!
# Running the machine

A run steps the machine until HALT executes or a step budget is spent, collecting the values
written to the output port. A run that halts counts the HALT step.
-/

namespace ByteMachine

/-- How a bounded run ended, with the number of steps taken. -/
inductive Outcome where
  | halted (steps : Nat)
  | stepLimit (steps : Nat)
  deriving DecidableEq, Repr

/-- What a run leaves: the machine, the values output in order, and how it ended. -/
structure RunResult where
  machine : Machine
  outputs : List Int
  outcome : Outcome

namespace Machine

/-- A fresh machine with a program in ROM and bytes waiting at its input port. -/
def boot (program : List UInt8) (input : List UInt8) : Machine :=
  ({} : Machine).load program |>.setInput input

/-- Runs at most `fuel` more steps after `done` steps and the outputs `outs`. -/
def runFrom (m : Machine) (done : Nat) (outs : Array Int) : Nat → RunResult
  | 0 => ⟨m, outs.toList, .stepLimit done⟩
  | fuel + 1 =>
    let s := m.step
    let outs := match s.output with
      | some v => outs.push v
      | none => outs
    if s.running then s.machine.runFrom (done + 1) outs fuel
    else ⟨s.machine, outs.toList, .halted (done + 1)⟩

/-- Runs at most `maxSteps` steps. -/
def run (m : Machine) (maxSteps : Nat) : RunResult := m.runFrom 0 #[] maxSteps

end Machine

end ByteMachine

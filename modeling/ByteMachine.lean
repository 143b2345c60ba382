import ByteMachine.Assembly.Basic
import ByteMachine.Assembly.Line
import ByteMachine.Assembly.Program
import ByteMachine.Compiler.Generate
import ByteMachine.Compiler.Line
import ByteMachine.Compiler.Pipeline
import ByteMachine.Fixture.Check
import ByteMachine.Fixture.Expectation
import ByteMachine.Isa.Basic
import ByteMachine.Isa.Table
import ByteMachine.Listing
import ByteMachine.Machine.Alu
import ByteMachine.Machine.Run
import ByteMachine.Machine.State
import ByteMachine.Machine.Step
import ByteMachine.Main
import ByteMachine.Source.Lexer
import ByteMachine.Source.Parser
import ByteMachine.Source.Syntax
import ByteMachine.Source.Token
import ByteMachine.Text.Blank
import ByteMachine.Text.Lines
import ByteMachine.Text.Numeral
import ByteMachine.Proofs.Text.Words
import ByteMachine.Proofs.Assembly.Encode
import ByteMachine.Proofs.Assembly.Layout
import ByteMachine.Proofs.Assembly.NormalLine
import ByteMachine.Proofs.Compiler.Emitted
import ByteMachine.Proofs.Compiler.Labels
import ByteMachine.Proofs.Compiler.Assemblable
import ByteMachine.Proofs.Source.Printer
import ByteMachine.Proofs.Source.ExprRoundTrip
import ByteMachine.Proofs.Source.RoundTrip
import ByteMachine.Proofs.Listing.Assembled
import ByteMachine.Proofs.Compiler.Placement
import ByteMachine.Proofs.Machine.Runs
import ByteMachine.Proofs.Machine.Compare
import ByteMachine.Proofs.Fixture.CheckedRun
import ByteMachine.Proofs.Source.Semantics
import ByteMachine.Proofs.Assembly.LabelTable
import ByteMachine.Proofs.Machine.InstructionStarts
import ByteMachine.Proofs.Compiler.Allocation
import ByteMachine.Proofs.Compiler.Literals
import ByteMachine.Proofs.Compiler.Execution
import ByteMachine.Proofs.Compiler.Evaluation
import ByteMachine.Proofs.Compiler.Simulation
import ByteMachine.Proofs.Compiler.Correctness
import ByteMachine.Proofs.Machine.CarryChain
import ByteMachine.Proofs.Source.Lexing
import ByteMachine.Proofs.Machine.Page
import ByteMachine.Proofs.Listing.Tiling
import ByteMachine.Proofs.Compiler.Frame
import ByteMachine.Proofs.Source.Consumption
import ByteMachine.Proofs.Source.Nesting

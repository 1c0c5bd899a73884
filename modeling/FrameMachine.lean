import FrameMachine.Argument
import FrameMachine.Binary64.Basic
import FrameMachine.Binary64.Decimal
import FrameMachine.Binary64.Hexadecimal
import FrameMachine.Binary64.Nearest
import FrameMachine.CommandLine
import FrameMachine.Evaluate
import FrameMachine.Fault
import FrameMachine.Frames.Frame
import FrameMachine.Frames.Store
import FrameMachine.Input
import FrameMachine.Labels
import FrameMachine.Literal.Escape
import FrameMachine.Literal.Number
import FrameMachine.Machine.Basic
import FrameMachine.Machine.Perform
import FrameMachine.Machine.Run
import FrameMachine.Main
import FrameMachine.Numeral
import FrameMachine.Opcode
import FrameMachine.Operation
import FrameMachine.Output
import FrameMachine.Program
import FrameMachine.Proofs.Arrange
import FrameMachine.Proofs.Branches
import FrameMachine.Proofs.CallerFrames
import FrameMachine.Proofs.Cells
import FrameMachine.Proofs.CharacterArrays
import FrameMachine.Proofs.Comparison
import FrameMachine.Proofs.Concatenation
import FrameMachine.Proofs.Declarations
import FrameMachine.Proofs.Dispatch
import FrameMachine.Proofs.Dump
import FrameMachine.Proofs.Effect
import FrameMachine.Proofs.EscapeScans
import FrameMachine.Proofs.EscapedText
import FrameMachine.Proofs.Escapes
import FrameMachine.Proofs.Faults
import FrameMachine.Proofs.GlobalFrame
import FrameMachine.Proofs.HexadecimalNotation
import FrameMachine.Proofs.History
import FrameMachine.Proofs.InputLines
import FrameMachine.Proofs.IntegerArithmetic
import FrameMachine.Proofs.IntegerNotation
import FrameMachine.Proofs.LabelCollection
import FrameMachine.Proofs.LabelTable
import FrameMachine.Proofs.Layout
import FrameMachine.Proofs.LiteralNotation
import FrameMachine.Proofs.Literals
import FrameMachine.Proofs.Loadable
import FrameMachine.Proofs.LoadedRuns
import FrameMachine.Proofs.Lockstep
import FrameMachine.Proofs.NearestValue
import FrameMachine.Proofs.Numerals
import FrameMachine.Proofs.OperandTable
import FrameMachine.Proofs.Operands
import FrameMachine.Proofs.OutputLimits
import FrameMachine.Proofs.Positions
import FrameMachine.Proofs.Precedence
import FrameMachine.Proofs.Prediction
import FrameMachine.Proofs.ProgramOrder
import FrameMachine.Proofs.RealNotation
import FrameMachine.Proofs.Renumbering
import FrameMachine.Proofs.Reports
import FrameMachine.Proofs.Resumption
import FrameMachine.Proofs.RoundTrip
import FrameMachine.Proofs.Rounding
import FrameMachine.Proofs.SourceReading
import FrameMachine.Proofs.StackTransfer
import FrameMachine.Proofs.Stacks
import FrameMachine.Proofs.Step
import FrameMachine.Proofs.Termination
import FrameMachine.Proofs.TextBytes
import FrameMachine.Proofs.Transparency
import FrameMachine.Proofs.Visibility
import FrameMachine.Proofs.Words
import FrameMachine.Sort
import FrameMachine.Source.Line
import FrameMachine.Source.Load
import FrameMachine.Text.Blank
import FrameMachine.Text.Case
import FrameMachine.Text.Join
import FrameMachine.Text.Lines
import FrameMachine.Value

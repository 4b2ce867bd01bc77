import SpeculativeEvm.Access
import SpeculativeEvm.Access.Conflict
import SpeculativeEvm.Action
import SpeculativeEvm.Address
import SpeculativeEvm.Bytes
import SpeculativeEvm.Code
import SpeculativeEvm.Command
import SpeculativeEvm.Command.FileTree
import SpeculativeEvm.Command.Option
import SpeculativeEvm.Creation
import SpeculativeEvm.Environment
import SpeculativeEvm.Event
import SpeculativeEvm.Execute
import SpeculativeEvm.Execute.Nested
import SpeculativeEvm.Execute.Operand
import SpeculativeEvm.Execute.Span
import SpeculativeEvm.Execute.State
import SpeculativeEvm.Fault
import SpeculativeEvm.Hash
import SpeculativeEvm.Host
import SpeculativeEvm.Instruction
import SpeculativeEvm.Instruction.Mnemonic
import SpeculativeEvm.Interpreter
import SpeculativeEvm.Json.Decode
import SpeculativeEvm.Json.Reader
import SpeculativeEvm.Json.Token
import SpeculativeEvm.Json.Value
import SpeculativeEvm.Json.Writer
import SpeculativeEvm.Keccak
import SpeculativeEvm.Ledger
import SpeculativeEvm.Machine
import SpeculativeEvm.Main
import SpeculativeEvm.Memory
import SpeculativeEvm.Nesting
import SpeculativeEvm.Overlay
import SpeculativeEvm.Proofs.Abort
import SpeculativeEvm.Proofs.Access.Conflict
import SpeculativeEvm.Proofs.Access.Dependency
import SpeculativeEvm.Proofs.Access.History
import SpeculativeEvm.Proofs.Access.Summary
import SpeculativeEvm.Proofs.AccessTrace
import SpeculativeEvm.Proofs.Bytes
import SpeculativeEvm.Proofs.CallResolution
import SpeculativeEvm.Proofs.Checked.Bytes
import SpeculativeEvm.Proofs.Checked.Computation
import SpeculativeEvm.Proofs.Checked.Execute
import SpeculativeEvm.Proofs.Checked.Instruction
import SpeculativeEvm.Proofs.Checked.Interpreter
import SpeculativeEvm.Proofs.Checked.Memory
import SpeculativeEvm.Proofs.Checked.Nesting
import SpeculativeEvm.Proofs.Checked.Word
import SpeculativeEvm.Proofs.Code.Boundary
import SpeculativeEvm.Proofs.Code.Destinations
import SpeculativeEvm.Proofs.Commit
import SpeculativeEvm.Proofs.Consultation
import SpeculativeEvm.Proofs.CreationNonces
import SpeculativeEvm.Proofs.CreationPreimage
import SpeculativeEvm.Proofs.Delegation
import SpeculativeEvm.Proofs.Dependence
import SpeculativeEvm.Proofs.EntryOrder
import SpeculativeEvm.Proofs.Execute.Counter
import SpeculativeEvm.Proofs.Execute.Effect
import SpeculativeEvm.Proofs.Execute.Operand
import SpeculativeEvm.Proofs.Execute.Paired
import SpeculativeEvm.Proofs.Execute.Parts
import SpeculativeEvm.Proofs.Execute.Raise
import SpeculativeEvm.Proofs.Execute.Request
import SpeculativeEvm.Proofs.Execute.Resolve
import SpeculativeEvm.Proofs.Execute.StackUse
import SpeculativeEvm.Proofs.FailedInstruction
import SpeculativeEvm.Proofs.FaultClasses
import SpeculativeEvm.Proofs.Fetch
import SpeculativeEvm.Proofs.FlatStore
import SpeculativeEvm.Proofs.Isolation
import SpeculativeEvm.Proofs.Keeps
import SpeculativeEvm.Proofs.Memory
import SpeculativeEvm.Proofs.Memory.Access
import SpeculativeEvm.Proofs.Memory.Growth
import SpeculativeEvm.Proofs.Memory.Image
import SpeculativeEvm.Proofs.Nesting.Activation
import SpeculativeEvm.Proofs.Nesting.Along
import SpeculativeEvm.Proofs.Nesting.Bounds
import SpeculativeEvm.Proofs.Nesting.Course
import SpeculativeEvm.Proofs.Nesting.Enter
import SpeculativeEvm.Proofs.Nesting.Frame
import SpeculativeEvm.Proofs.Nesting.Lasting
import SpeculativeEvm.Proofs.Nesting.Level
import SpeculativeEvm.Proofs.Nesting.Lockstep
import SpeculativeEvm.Proofs.Nesting.Point
import SpeculativeEvm.Proofs.Nesting.Raise
import SpeculativeEvm.Proofs.Nesting.Record
import SpeculativeEvm.Proofs.Nesting.Resolution
import SpeculativeEvm.Proofs.Nesting.Respected
import SpeculativeEvm.Proofs.Nesting.Tables
import SpeculativeEvm.Proofs.PaddedRead
import SpeculativeEvm.Proofs.PushImmediate
import SpeculativeEvm.Proofs.Report
import SpeculativeEvm.Proofs.Retry
import SpeculativeEvm.Proofs.Rlp
import SpeculativeEvm.Proofs.StackDiscipline
import SpeculativeEvm.Proofs.StaleTables
import SpeculativeEvm.Proofs.StepBudget
import SpeculativeEvm.Proofs.TablesAbove
import SpeculativeEvm.Proofs.Termination
import SpeculativeEvm.Proofs.Text.Blank
import SpeculativeEvm.Proofs.Text.Digits
import SpeculativeEvm.Proofs.Text.Hex
import SpeculativeEvm.Proofs.Text.HexForm
import SpeculativeEvm.Proofs.Text.Numeral
import SpeculativeEvm.Proofs.Word.Modular
import SpeculativeEvm.Proofs.Word.Power
import SpeculativeEvm.Proofs.Word.Shift
import SpeculativeEvm.Proofs.Word.Signed
import SpeculativeEvm.Proofs.WriteSet
import SpeculativeEvm.Reasons
import SpeculativeEvm.Report
import SpeculativeEvm.Rlp
import SpeculativeEvm.RunConfig
import SpeculativeEvm.Script
import SpeculativeEvm.Speculation
import SpeculativeEvm.Stack
import SpeculativeEvm.StateFile
import SpeculativeEvm.Stepper
import SpeculativeEvm.Text.Blank
import SpeculativeEvm.Text.CharLiteral
import SpeculativeEvm.Text.Hex
import SpeculativeEvm.Text.Numeral
import SpeculativeEvm.Word
import SpeculativeEvm.Word.Operation

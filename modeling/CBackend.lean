import CBackend.CType
import CBackend.Identifier
import CBackend.Operator
import CBackend.Double
import CBackend.Double.Shortest
import CBackend.SymbolTable
import CBackend.Register
import CBackend.RegisterFile
import CBackend.Operand
import CBackend.CompileError
import CBackend.Frame
import CBackend.Instr
import CBackend.InstrList
import CBackend.Listing
import CBackend.ValuePool
import CBackend.Linear
import CBackend.FlowGraph
import CBackend.Tree
import CBackend.Tree.Builder
import CBackend.Linear.Lowering
import CBackend.Selection.Table
import CBackend.Selection.Generator
import CBackend.Selection.Allocation
import CBackend.Selection.Rules
import CBackend.Compile
import CBackend.Session
import CBackend.Machine.Memory
import CBackend.Machine.Value
import CBackend.Machine.Error
import CBackend.Machine.Cpu
import CBackend.Machine.Execute
import CBackend.Machine.Run
import CBackend.Demo
import CBackend.Main
import CBackend.Proofs.FlowGraph.Ranges
import CBackend.Proofs.FlowGraph.Edges
import CBackend.Proofs.FlowGraph.Formation
import CBackend.Proofs.FlowGraph.Search
import CBackend.Proofs.FlowGraph.Pruning
import CBackend.Proofs.Lowering.Derivation
import CBackend.Proofs.Lowering.Unshared
import CBackend.Proofs.Lowering.Ledger
import CBackend.Proofs.Lowering.Assembly
import CBackend.Proofs.Numbering.Pool
import CBackend.Proofs.Numbering.History
import CBackend.Proofs.Numbering.Table
import CBackend.Proofs.Numbering.Paths
import CBackend.Proofs.Numbering.Soundness
import CBackend.Proofs.Semantics.Typing
import CBackend.Proofs.Semantics.Machine
import CBackend.Proofs.Lowering.Growth
import CBackend.Proofs.Semantics.Segments
import CBackend.Proofs.Semantics.Values
import CBackend.Proofs.Semantics.Statements
import CBackend.Proofs.Semantics.Preservation
import CBackend.Proofs.Registers
import CBackend.Proofs.Selection.Keeps
import CBackend.Proofs.Selection.Agreement
import CBackend.Proofs.Selection.Allocation
import CBackend.Proofs.Selection.Rules
import CBackend.Proofs.Selection.Preparation
import CBackend.Proofs.Selection.Prefixes
import CBackend.Proofs.Lowering.Domination
import CBackend.Proofs.Lowering.Nodes
import CBackend.Proofs.Lowering.Outline
import CBackend.Proofs.Lowering.Structure
import CBackend.Proofs.Lowering.Notes
import CBackend.Proofs.Conditions.Economy
import CBackend.Proofs.Lowering.Balance
import CBackend.Proofs.Lowering.Effects
import CBackend.Proofs.InstrList
import CBackend.Proofs.InstrSequence
import CBackend.Proofs.FrameBlocks
import CBackend.Proofs.Selection.Detachment
import CBackend.Proofs.Selection.Handling
import CBackend.Proofs.Selection.Pins
import CBackend.Proofs.Selection.Walk
import CBackend.Proofs.Selection.Emission
import CBackend.Proofs.Selection.Marks
import CBackend.Proofs.Closure
import CBackend.Proofs.SideEffects
import CBackend.Proofs.Machine.Failures
import CBackend.Proofs.Machine.Control
import CBackend.Proofs.Machine.Stack
import CBackend.Proofs.Machine.Widths
import CBackend.Proofs.Machine.Arithmetic
import CBackend.Proofs.Machine.Globals
import CBackend.Proofs.Machine.Parameters
import CBackend.Proofs.Offsets
import CBackend.Proofs.Selection.Blindness
import CBackend.Proofs.Selection.Sources
import CBackend.Proofs.Selection.Afresh
import CBackend.Proofs.Conditions.Meaning
import CBackend.Proofs.Conditions.Machine
import CBackend.Proofs.Conditions.Steps
import CBackend.Proofs.Conditions.Rules
import CBackend.Proofs.Conditions.Agreement
import CBackend.Proofs.FrameLayout
import CBackend.Proofs.FrameTemporaries
import CBackend.Proofs.Selection.Vacating
import CBackend.Proofs.Selection.Handout
import CBackend.Proofs.Selection.PinBalance
import CBackend.Proofs.Selection.Thrift
import CBackend.Proofs.Selection.Limits
import CBackend.Proofs.Selection.Entries
import CBackend.Proofs.Selection.ValueTypes
import CBackend.Proofs.Selection.Stock
import CBackend.Proofs.Selection.Coverage
import CBackend.Proofs.Lowering.Scalars
import CBackend.Proofs.TableCoverage
import CBackend.Proofs.Machine.Exhaustion
import CBackend.Proofs.Lowering.Nesting
import CBackend.Proofs.Numbering.Requests
import CBackend.Proofs.RegisterHistory
import CBackend.Proofs.Selection.Termination

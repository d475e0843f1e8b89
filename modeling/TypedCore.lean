import TypedCore.Decimal.Layout
import TypedCore.Decimal.Shortest
import TypedCore.Diagnostic
import TypedCore.Expr.Basic
import TypedCore.Expr.Constant
import TypedCore.Expr.Encoding
import TypedCore.Expr.Op
import TypedCore.Expr.Text
import TypedCore.Failure
import TypedCore.Ir.Builder
import TypedCore.Ir.Decoding
import TypedCore.Ir.Encoding
import TypedCore.Ir.Function
import TypedCore.Ir.Instruction
import TypedCore.Ir.Text
import TypedCore.Ir.Type
import TypedCore.Json.Basic
import TypedCore.Json.Number
import TypedCore.Json.Printer
import TypedCore.Json.Reader
import TypedCore.Lowering.Emitter
import TypedCore.Lowering.Expr
import TypedCore.Lowering.Fault
import TypedCore.Lowering.Layout
import TypedCore.Lowering.Stmt
import TypedCore.Proofs.Conditions
import TypedCore.Proofs.Emitter.Differences
import TypedCore.Proofs.Emitter.Drafting
import TypedCore.Proofs.Emitter.Effects
import TypedCore.Proofs.Emitter.Faults
import TypedCore.Proofs.Emitter.Function
import TypedCore.Proofs.Emitter.Growth
import TypedCore.Proofs.Emitter.Initializers
import TypedCore.Proofs.Emitter.OpenBlocks
import TypedCore.Proofs.Emitter.Origins
import TypedCore.Proofs.Emitter.Places
import TypedCore.Proofs.Emitter.Scoping
import TypedCore.Proofs.Emitter.Slots
import TypedCore.Proofs.Emitter.Steady
import TypedCore.Proofs.Emitter.Storage
import TypedCore.Proofs.Emitter.Structured
import TypedCore.Proofs.Emitter.Writing
import TypedCore.Proofs.Folding.Agreement
import TypedCore.Proofs.Folding.Bits
import TypedCore.Proofs.Folding.Fits
import TypedCore.Proofs.Folding.Kinds
import TypedCore.Proofs.Folding.Narrowing
import TypedCore.Proofs.Graph.Calls
import TypedCore.Proofs.Graph.Construction
import TypedCore.Proofs.Graph.Dominance
import TypedCore.Proofs.Graph.FallOff
import TypedCore.Proofs.Graph.Grounded
import TypedCore.Proofs.Graph.Header
import TypedCore.Proofs.Graph.Journal
import TypedCore.Proofs.Graph.Merges
import TypedCore.Proofs.Graph.Phis
import TypedCore.Proofs.Graph.Ssa
import TypedCore.Proofs.Graph.Targets
import TypedCore.Proofs.Graph.WellFormed
import TypedCore.Proofs.Machine.Evaluation
import TypedCore.Proofs.Machine.Execution
import TypedCore.Proofs.Machine.Statements
import TypedCore.Proofs.Outcome
import TypedCore.Proofs.Session.Accounting
import TypedCore.Proofs.Session.Declarations
import TypedCore.Proofs.Session.Destinations
import TypedCore.Proofs.Session.Discipline
import TypedCore.Proofs.Session.Elaborated
import TypedCore.Proofs.Session.Reachable
import TypedCore.Proofs.Session.ReadOnly
import TypedCore.Proofs.Session.Resolution
import TypedCore.Proofs.Session.Scopes
import TypedCore.Proofs.Session.Tags
import TypedCore.Proofs.Simulation.Branches
import TypedCore.Proofs.Simulation.Expressions
import TypedCore.Proofs.Simulation.Functions
import TypedCore.Proofs.Simulation.Realizes
import TypedCore.Proofs.Simulation.Stage
import TypedCore.Proofs.Simulation.Statements
import TypedCore.Proofs.Types.Aggregates
import TypedCore.Proofs.Types.Canonical
import TypedCore.Proofs.Types.Const
import TypedCore.Proofs.Types.Containment
import TypedCore.Proofs.Types.Conversions
import TypedCore.Proofs.Types.Equality
import TypedCore.Proofs.Types.Flags
import TypedCore.Proofs.Types.Growth
import TypedCore.Proofs.Types.Immutability
import TypedCore.Proofs.Types.Interning
import TypedCore.Proofs.Types.Layouts
import TypedCore.Proofs.Types.Matrix
import TypedCore.Proofs.Types.Shapes
import TypedCore.Proofs.Types.Sizes
import TypedCore.Proofs.Types.Stability
import TypedCore.Proofs.Types.Termination
import TypedCore.Proofs.Types.Transparency
import TypedCore.Proofs.Types.Trees
import TypedCore.Proofs.Types.Widths
import TypedCore.Proofs.Typing.Coherent
import TypedCore.Proofs.Typing.CommonTypes
import TypedCore.Proofs.Typing.Constructors
import TypedCore.Proofs.Typing.Conversions
import TypedCore.Proofs.Typing.Elaboration
import TypedCore.Proofs.Typing.Formed
import TypedCore.Proofs.Typing.Growth
import TypedCore.Proofs.Typing.Warnings
import TypedCore.Scope
import TypedCore.Session.Basic
import TypedCore.Session.Declare
import TypedCore.Session.Options
import TypedCore.Session.Rejection
import TypedCore.Source.Excerpt
import TypedCore.Source.Span
import TypedCore.Supply
import TypedCore.Text.Printable
import TypedCore.Text.Quoted
import TypedCore.Types.Conversion
import TypedCore.Types.Query
import TypedCore.Types.Shape
import TypedCore.Types.Table
import TypedCore.Types.Update
import TypedCore.Typing.Aggregate
import TypedCore.Typing.Arithmetic
import TypedCore.Typing.Call
import TypedCore.Typing.Convert
import TypedCore.Typing.Node
import TypedCore.Typing.Operands
import TypedCore.Typing.Operator
import TypedCore.Typing.Pointer

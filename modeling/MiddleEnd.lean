import MiddleEnd.Dataflow.Flow
import MiddleEnd.Dataflow.Liveness
import MiddleEnd.Dataflow.Reaching
import MiddleEnd.Decimal.Binary64
import MiddleEnd.Decimal.General
import MiddleEnd.Decimal.Scientific
import MiddleEnd.Descent
import MiddleEnd.Dominance.Frontier
import MiddleEnd.Dominance.Immediate
import MiddleEnd.Dominance.Order
import MiddleEnd.Dominance.Tree
import MiddleEnd.Fault
import MiddleEnd.IR.Edges
import MiddleEnd.IR.Editing
import MiddleEnd.IR.Function
import MiddleEnd.IR.Instr
import MiddleEnd.IR.Listing
import MiddleEnd.IR.Opcode
import MiddleEnd.IR.Operand
import MiddleEnd.IR.Program
import MiddleEnd.IndexSet
import MiddleEnd.Interner
import MiddleEnd.Lowering.Expr
import MiddleEnd.Lowering.State
import MiddleEnd.Lowering.Stmt
import MiddleEnd.Lowering.Unit
import MiddleEnd.Pipeline
import MiddleEnd.Proofs.Dataflow.Flow
import MiddleEnd.Proofs.Dataflow.Liveness
import MiddleEnd.Proofs.Descent
import MiddleEnd.Proofs.Dominance.Ancestors
import MiddleEnd.Proofs.Dominance.DepthFirst
import MiddleEnd.Proofs.Dominance.Exact
import MiddleEnd.Proofs.Dominance.Forest
import MiddleEnd.Proofs.Dominance.Frontier
import MiddleEnd.Proofs.Dominance.Iteration
import MiddleEnd.Proofs.Dominance.Order
import MiddleEnd.Proofs.Dominance.Paths
import MiddleEnd.Proofs.Dominance.Sweep
import MiddleEnd.Proofs.Dominance.Tour
import MiddleEnd.Proofs.IR.Edges
import MiddleEnd.Proofs.IR.Listing
import MiddleEnd.Proofs.Lowering.Expr
import MiddleEnd.Proofs.Lowering.Function
import MiddleEnd.Proofs.Lowering.Graph
import MiddleEnd.Proofs.Lowering.Growth
import MiddleEnd.Proofs.Lowering.Invariant
import MiddleEnd.Proofs.Lowering.Outcome
import MiddleEnd.Proofs.Lowering.Stage
import MiddleEnd.Proofs.Lowering.Stmt
import MiddleEnd.Proofs.Lowering.Texts
import MiddleEnd.Proofs.Lowering.Unreached
import MiddleEnd.Proofs.Pipeline
import MiddleEnd.Proofs.Session
import MiddleEnd.Proofs.SSA.Conversion
import MiddleEnd.Proofs.SSA.Definitions
import MiddleEnd.Proofs.SSA.Erasure
import MiddleEnd.Proofs.SSA.Meaning
import MiddleEnd.Proofs.SSA.Placement
import MiddleEnd.Proofs.SSA.Simulation
import MiddleEnd.Proofs.SSA.Stacks
import MiddleEnd.Proofs.SSA.Strict
import MiddleEnd.Proofs.SSA.Validity
import MiddleEnd.Proofs.SSA.Versions
import MiddleEnd.Proofs.SSA.Walk
import MiddleEnd.Proofs.Semantics.Machine
import MiddleEnd.Proofs.Success
import MiddleEnd.Proofs.Syntax.Built
import MiddleEnd.SSA.Construction
import MiddleEnd.SSA.Placement
import MiddleEnd.SSA.Renaming
import MiddleEnd.SSA.Violation
import MiddleEnd.Syntax.Builder
import MiddleEnd.Syntax.Node
import MiddleEnd.Syntax.Operator
import MiddleEnd.Syntax.SourceUnit
import MiddleEnd.Syntax.Ty
import MiddleEnd.Text.Hidden
import MiddleEnd.Text.Quoted
import MiddleEnd.Proofs.Lowering.Control
import MiddleEnd.Proofs.Lowering.Meaning
import MiddleEnd.Proofs.Dataflow.Agreement
import MiddleEnd.Proofs.Dominance.Joins
import MiddleEnd.Proofs.IR.Alike
import MiddleEnd.Proofs.Independence
import MiddleEnd.Proofs.Interner
import MiddleEnd.Proofs.SSA.IteratedFrontier
import MiddleEnd.Proofs.IR.Rebuild
import MiddleEnd.Proofs.Lowering.Resolution
import MiddleEnd.Proofs.Lowering.Sides
import MiddleEnd.Proofs.SSA.Reports
import MiddleEnd.Proofs.Decimal.Notation
import MiddleEnd.Proofs.Decimal.Rounding
import MiddleEnd.Proofs.Lowering.Chains
import MiddleEnd.Proofs.Lowering.Calls
import MiddleEnd.Proofs.Lowering.Apart
import MiddleEnd.Proofs.Lowering.Openness
import MiddleEnd.Proofs.Lowering.Frame

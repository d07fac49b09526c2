import Midend.Code.Instruction
import Midend.Code.Method
import Midend.Constant.Branch
import Midend.Constant.Folding
import Midend.Constant.Known
import Midend.Constant.Propagation
import Midend.Constant.Rounds
import Midend.Error
import Midend.Flow.Analysis
import Midend.Flow.GenKill
import Midend.Flow.Graph
import Midend.Flow.Liveness
import Midend.Flow.PathLength
import Midend.Literal
import Midend.NameSet
import Midend.Operator
import Midend.Pipeline
import Midend.Proofs.Code.Layout
import Midend.Proofs.Code.Machine
import Midend.Proofs.Constant.Branch
import Midend.Proofs.Constant.ClosedExpr
import Midend.Proofs.Constant.Evaluation
import Midend.Proofs.Constant.Folding
import Midend.Proofs.Constant.FoldingMeaning
import Midend.Proofs.Constant.Independence
import Midend.Proofs.Constant.Progress
import Midend.Proofs.Constant.Propagation
import Midend.Proofs.Constant.PropagationMeaning
import Midend.Proofs.Constant.Reduction
import Midend.Proofs.Constant.Rounds
import Midend.Proofs.Constant.Settled
import Midend.Proofs.Constant.Shape
import Midend.Proofs.Constant.Stability
import Midend.Proofs.Constant.Unnumbered
import Midend.Proofs.Constant.Wrapping
import Midend.Proofs.Effect
import Midend.Proofs.Flow.Adjacency
import Midend.Proofs.Flow.Change
import Midend.Proofs.Flow.Edges
import Midend.Proofs.Flow.LeastSolution
import Midend.Proofs.Flow.Liveness
import Midend.Proofs.Flow.Solver
import Midend.Proofs.Literal
import Midend.Proofs.Register.Allocation
import Midend.Proofs.Register.Batch
import Midend.Proofs.Register.Coloring
import Midend.Proofs.Register.Construction
import Midend.Proofs.Register.DenseCore
import Midend.Proofs.Register.Gapless
import Midend.Proofs.Register.History
import Midend.Proofs.Register.Interference
import Midend.Proofs.Register.LeastColoring
import Midend.Proofs.Register.Numbering
import Midend.Proofs.Register.Occupancy
import Midend.Proofs.Register.Outcome
import Midend.Proofs.Register.Preservation
import Midend.Proofs.Register.Simplification
import Midend.Proofs.Tree.Attribute
import Midend.Proofs.Tree.Confinement
import Midend.Proofs.Tree.Consistency
import Midend.Proofs.Tree.Context
import Midend.Proofs.Tree.Edit
import Midend.Proofs.Tree.Failure
import Midend.Proofs.Tree.Frame
import Midend.Proofs.Tree.History
import Midend.Proofs.Tree.Lineage
import Midend.Proofs.Tree.Meaning
import Midend.Proofs.Tree.Methods
import Midend.Proofs.Tree.Placement
import Midend.Proofs.Tree.Preorder
import Midend.Proofs.Tree.Reading
import Midend.Proofs.Tree.Shape
import Midend.Proofs.Tree.Weight
import Midend.Register.Allocation
import Midend.Register.Coloring
import Midend.Register.Interference
import Midend.Settings
import Midend.Text.Blank
import Midend.Text.Combining
import Midend.Text.Decimal
import Midend.Text.Printable
import Midend.Text.Quoted
import Midend.Text.Range
import Midend.Text.Unassigned
import Midend.Tree.Attribute
import Midend.Tree.Edit
import Midend.Tree.Forest
import Midend.Tree.Kind
import Midend.Tree.Printer
import Midend.Tree.Walk
import Midend.Vocabulary

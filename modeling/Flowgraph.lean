import Flowgraph.Dataflow.Analyses
import Flowgraph.Proofs.Graph.Digraph
import Flowgraph.Proofs.Dominance.Compression
import Flowgraph.Proofs.Dataflow.BackwardGreatest
import Flowgraph.Proofs.Dataflow.ForwardGreatest
import Flowgraph.Proofs.Failure
import Flowgraph.Proofs.Ssa.Stacks
import Flowgraph.Proofs.Flow.Execution
import Flowgraph.Proofs.Flow.Turns
import Flowgraph.Proofs.Ssa.SlotNames
import Flowgraph.Proofs.Ssa.Simultaneous
import Flowgraph.Proofs.Ssa.Cleared
import Flowgraph.Proofs.Flow.Spliced
import Flowgraph.Proofs.Flow.Entry
import Flowgraph.Proofs.Semantics.Spending
import Flowgraph.Proofs.Node.Effects
import Flowgraph.Proofs.Flow.Listing
import Flowgraph.Proofs.Flow.Cleaning
import Flowgraph.Proofs.Flow.Traversal
import Flowgraph.Proofs.Code.Arithmetic
import Flowgraph.Proofs.Flow.Drawing

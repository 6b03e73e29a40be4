import Flowgraph.Graph.Search
import Flowgraph.Node.Basic

/-!
# Flow graphs

A flow graph is the graph of one function, with the node at which it starts. `clean` removes the
nodes that control cannot reach.
-/

namespace Flowgraph

/-- A graph of nodes with a designated start. -/
structure FlowGraph extends Graph Node where
  start : NodeId

namespace FlowGraph

/-- The flow graph that has only a start node. -/
def ofStart (span : Span) : FlowGraph :=
  ⟨({} : Graph Node).insert (.start span), 0⟩

/-- Change the graph and keep the designated start. -/
def withGraph (cfg : FlowGraph) (graph : Graph Node) : FlowGraph :=
  { cfg with toGraph := graph }

/-- The node with a number. -/
def node? (cfg : FlowGraph) (id : NodeId) : Option Node :=
  cfg.payload? id

/-- The kind of a live node. -/
def kind? (cfg : FlowGraph) (id : NodeId) : Option Kind :=
  (cfg.node? id).map Node.kind

/-- The source position of a node. -/
def spanOf (cfg : FlowGraph) (id : NodeId) : Span :=
  ((cfg.node? id).map Node.span).getD .dummy

/-- The nodes that control can reach, nearest first. -/
def reached (cfg : FlowGraph) : List NodeId :=
  cfg.breadthFirst cfg.start

/-- The live nodes that control cannot reach, by increasing number. -/
def unreached (cfg : FlowGraph) : List NodeId :=
  let reached := cfg.reachableFrom cfg.start
  cfg.nodes.filter fun id => !reached.contains id

/-- Remove all nodes that control cannot reach. -/
def clean (cfg : FlowGraph) : FlowGraph :=
  cfg.withGraph (cfg.unreached.foldl Graph.erase cfg.toGraph)

end FlowGraph

end Flowgraph

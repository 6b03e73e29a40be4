import Flowgraph.Flow.Breach
import Flowgraph.Graph.DepthFirst

/-!
# Strongly connected components

The first search goes along the edges, from the nodes out of the start's reach and last from the
start. The second takes the nodes in the reverse of the order in which the first left them, and
searches against the edges: what one search enters is one component. Every edge between components
leads to a larger number.
-/

namespace Flowgraph

/-- One component: its number, its nodes, and the edges between them. -/
structure Component where
  index : Nat
  nodes : List NodeId
  edges : List Edge

namespace Component

/-- Components are written by number. -/
def name (component : Component) : String :=
  "scc" ++ toString component.index

/-- Whether some node of a component lies on a circle. -/
def isCyclic (component : Component) : Bool :=
  decide (1 < component.nodes.length) || !component.edges.isEmpty

end Component

/-- The components of a flow graph: the nodes of each, and the component of each node. -/
structure Components where
  cfg : FlowGraph
  members : Array (List NodeId)
  indices : NodeMap Nat

namespace FlowGraph

/-- All live nodes in the order in which a search leaves them, the start's search being the last. -/
def postorder (cfg : FlowGraph) : List NodeId :=
  (cfg.depthFirst (cfg.unreached ++ [cfg.start])).postorder

/-- Split a search against the edges into components. Each root that was not entered yet starts a
component, which is listed in the order of the roots. -/
def gather (cfg : FlowGraph) (order : List NodeId) :
    List NodeId → Walk → List (List NodeId) → List (List NodeId)
  | [], _, found => found.reverse
  | root :: rest, walk, found =>
    if walk.number.contains root then
      cfg.gather order rest walk found
    else
      let next := Walk.visitRoot cfg.predecessors cfg.slots.size walk root
      let fresh := fun id => next.number.contains id && !walk.number.contains id
      cfg.gather order rest next (order.filter fresh :: found)

/-- Number nodes by the position of the list that holds them. -/
def indexMembers : Nat → List (List NodeId) → NodeMap Nat → NodeMap Nat
  | _, [], indices => indices
  | index, nodes :: rest, indices =>
    indexMembers (index + 1) rest
      (nodes.foldl (fun indices id => indices.insert id index) indices)

/-- The strongly connected components. -/
def components (cfg : FlowGraph) : Components :=
  let order := cfg.postorder.reverse
  let members := cfg.gather order order {} []
  ⟨cfg, members.toArray, indexMembers 0 members ∅⟩

end FlowGraph

namespace Components

/-- The number of components. -/
def size (components : Components) : Nat :=
  components.members.size

/-- The component of a node, by number. -/
def indexOf (components : Components) (id : NodeId) : Nat :=
  components.indices.getD id 0

/-- The component of the start, by number. -/
def start (components : Components) : Nat :=
  components.indexOf components.cfg.start

/-- The nodes of a component. -/
def nodesOf (components : Components) (index : Nat) : List NodeId :=
  components.members.getD index []

/-- The component with a number. -/
def component (components : Components) (index : Nat) : Component :=
  { index
    nodes := components.nodesOf index
    edges := components.cfg.edges.filter fun edge =>
      components.indexOf edge.source == index && components.indexOf edge.target == index }

/-- The component with a number that has to be small enough. -/
def get (components : Components) (index : Nat) : Except Breach Component :=
  if index < components.size then
    .ok (components.component index)
  else
    .error (.noComponent components.size index)

/-- All components by number. -/
def toList (components : Components) : List Component :=
  (List.range components.size).map components.component

/-- Keep an edge if it leads to a component to which none of the kept edges leads. -/
def keepCrossing (components : Components) (kept : List Edge) (edge : Edge) : List Edge :=
  if kept.any fun other => components.indexOf other.target == components.indexOf edge.target then
    kept
  else
    kept ++ [edge]

/-- The edges that leave a component, the first one to each other component. -/
def crossEdges (components : Components) (index : Nat) : List Edge :=
  (components.cfg.edges.filter fun edge =>
    components.indexOf edge.source == index && components.indexOf edge.target != index).foldl
    components.keepCrossing []

/-- The components to which an edge leads from a component. -/
def successors (components : Components) (index : Nat) : List Nat :=
  (components.crossEdges index).map fun edge => components.indexOf edge.target

end Components

end Flowgraph

import Flowgraph.Flow.Basic

/-!
# Splicing chains into a flow graph

A chain is a list of nodes joined one to the next by edges without label. Splicing inserts a chain
and redirects edges to it with their labels. A `spin` keeps its edge to itself, and an empty chain
changes nothing. The operations fail only if the node or the edge at which they act is not there,
and answer with the ends of the chain.
-/

namespace Flowgraph

namespace Graph

variable {α : Type}

/-- Join `count` pairs of neighbouring numbers from `first` on. -/
def joinRun (g : Graph α) (first : NodeId) : Nat → Graph α
  | 0 => g
  | count + 1 => (g.addEdge { source := first, target := first + 1 }).joinRun (first + 1) count

/-- Insert a chain. Its nodes get the next numbers in order. -/
def insertChain (g : Graph α) (chain : List α) : Graph α :=
  (chain.foldl Graph.insert g).joinRun g.nextId (chain.length - 1)

/-- Put one edge in the place of another. -/
def redirect (g : Graph α) (old new : Edge) : Graph α :=
  (g.eraseEdge old).addEdge new

/-- The first and last node of a chain that is inserted next. -/
def chainEnds (g : Graph α) (chain : List α) : NodeId × NodeId :=
  (g.nextId, g.nextId + (chain.length - 1))

end Graph

namespace FlowGraph

/-- Whether a node keeps the edge to itself when its other edges are redirected. -/
def keepsSelfEdge (cfg : FlowGraph) (id : NodeId) : Bool :=
  cfg.kind? id == some .spin

/-- The incoming edges of a node that move when a chain is put in front of it. -/
def movableIncoming (cfg : FlowGraph) (id : NodeId) : List Link :=
  if cfg.keepsSelfEdge id then (cfg.incoming id).filter (·.1 != id) else cfg.incoming id

/-- The outgoing edges of a node that move when a chain is put behind it. -/
def movableOutgoing (cfg : FlowGraph) (id : NodeId) : List Link :=
  if cfg.keepsSelfEdge id then (cfg.outgoing id).filter (·.1 != id) else cfg.outgoing id

/-- The answer of a splice: the new graph and the ends of the chain. -/
abbrev Spliced := FlowGraph × Option (NodeId × NodeId)

/-- Put a chain in front of a node: the edges that entered the node enter the chain. -/
def prependChain (cfg : FlowGraph) (id : NodeId) (chain : List Node) : FlowGraph :=
  let (first, last) := cfg.chainEnds chain
  let moved := (cfg.movableIncoming id).foldl
    (fun g link => g.redirect ⟨link.1, id, link.2⟩ ⟨link.1, first, link.2⟩)
    (cfg.insertChain chain)
  cfg.withGraph (moved.addEdge { source := last, target := id })

/-- Put a chain behind a node: the edges that left the node leave the chain. -/
def postpendChain (cfg : FlowGraph) (id : NodeId) (chain : List Node) : FlowGraph :=
  let (first, last) := cfg.chainEnds chain
  let moved := (cfg.movableOutgoing id).foldl
    (fun g link => g.redirect ⟨id, link.1, link.2⟩ ⟨last, link.1, link.2⟩)
    (cfg.insertChain chain)
  cfg.withGraph (moved.addEdge { source := id, target := first })

/-- Put a chain into an edge. -/
def splitEdge (cfg : FlowGraph) (edge : Edge) (chain : List Node) : FlowGraph :=
  let (first, last) := cfg.chainEnds chain
  cfg.withGraph
    (((cfg.insertChain chain).redirect edge ⟨edge.source, first, edge.label⟩).addEdge
      { source := last, target := edge.target })

/-- Put a node with the same edges in the place of another. An edge of the old node to itself
becomes one of the new node to itself. -/
def substitute (cfg : FlowGraph) (old : NodeId) (node : Node) : FlowGraph :=
  let new := cfg.nextId
  let entered := (cfg.incoming old).foldl
    (fun g link => g.addEdge ⟨if link.1 = old then new else link.1, new, link.2⟩)
    (cfg.insert node)
  let joined := ((cfg.outgoing old).filter (·.1 != old)).foldl
    (fun g link => g.addEdge ⟨new, link.1, link.2⟩) entered
  ⟨joined.erase old, if old = cfg.start then new else cfg.start⟩

/-- Splice a chain at a live node, unless the chain is empty. -/
def spliceAt (splice : FlowGraph → NodeId → List Node → FlowGraph) (cfg : FlowGraph) (id : NodeId)
    (chain : List Node) : Except GraphError Spliced :=
  if !cfg.contains id then
    .error (.missingNode id)
  else if chain.isEmpty then
    .ok (cfg, none)
  else
    .ok (splice cfg id chain, some (cfg.chainEnds chain))

/-- Put a chain in front of a live node. -/
def prepend (cfg : FlowGraph) (id : NodeId) (chain : List Node) : Except GraphError Spliced :=
  spliceAt prependChain cfg id chain

/-- Put a chain behind a live node. -/
def postpend (cfg : FlowGraph) (id : NodeId) (chain : List Node) : Except GraphError Spliced :=
  spliceAt postpendChain cfg id chain

/-- Put a chain into an edge of the graph. -/
def innerInsert (cfg : FlowGraph) (edge : Edge) (chain : List Node) : Except GraphError Spliced :=
  if !cfg.hasEdge edge then
    .error (.missingEdge edge.source edge.target (some edge.label))
  else if chain.isEmpty then
    .ok (cfg, none)
  else
    .ok (cfg.splitEdge edge chain, some (cfg.chainEnds chain))

/-- Put a node in the place of a live one. The answer holds its number. -/
def replace (cfg : FlowGraph) (old : NodeId) (node : Node) :
    Except GraphError (FlowGraph × NodeId) :=
  if cfg.contains old then
    .ok (cfg.substitute old node, cfg.nextId)
  else
    .error (.missingNode old)

end FlowGraph

end Flowgraph

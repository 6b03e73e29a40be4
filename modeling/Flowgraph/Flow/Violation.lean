import Flowgraph.Flow.Basic

/-!
# Well-formed flow graphs

Every kind of node constrains the edges at it:

* a start node has no incoming edge and one outgoing edge, and is the designated start,
* a return node has an incoming edge and no outgoing one,
* a condition has an incoming edge, and its outgoing edges are labelled `true` and `false`,
* an assignment, store, call or block has an incoming edge and one outgoing edge,
* a spin has one outgoing edge, which leads back to it, and is entered from elsewhere too,
* a phi node has one incoming edge for each slot and one outgoing edge,
* a stub is never well formed.

Start, return and phi nodes have no edge to themselves, and every edge is listed as often at its
source as at its target. `violations` lists what is broken.
-/

namespace Flowgraph

/-- What the number of incoming edges of a node should have been. -/
inductive InDegree where
  | zero
  | atLeastOne
  | atLeastTwo
  | arity
  deriving DecidableEq

namespace InDegree

/-- Text of an expected number of incoming edges. -/
def render : InDegree → String
  | zero => "0"
  | atLeastOne => "at least 1"
  | atLeastTwo => "at least 2"
  | arity => "the phi arity"

end InDegree

/-- The ways in which a flow graph can be malformed. -/
inductive Violation where
  | inDegree (id : NodeId) (kind : Kind) (expected : InDegree) (actual : Nat)
  | outDegree (id : NodeId) (kind : Kind) (expected actual : Nat)
  | branchLabels (id : NodeId) (actual : List Label)
  | unexpectedSelfEdge (id : NodeId) (kind : Kind)
  | missingSelfEdge (id : NodeId)
  | foreignStart (found designated : NodeId)
  | stub (id : NodeId)
  | asymmetric (edge : Edge)
  deriving DecidableEq

namespace Violation

/-- The text that tells a reader what is broken. -/
def message : Violation → String
  | inDegree id kind expected actual =>
    kind.name ++ " node " ++ id.render ++ " has in-degree " ++ toString actual ++ ", expected " ++
      expected.render
  | outDegree id kind expected actual =>
    kind.name ++ " node " ++ id.render ++ " has out-degree " ++ toString actual ++ ", expected " ++
      toString expected
  | branchLabels id actual =>
    "branch " ++ id.render ++ " has edge labels [" ++ ", ".intercalate (actual.map Label.render) ++
      "], expected [true, false]"
  | unexpectedSelfEdge id kind =>
    kind.name ++ " node " ++ id.render ++ " has an unexpected self-edge"
  | missingSelfEdge id => "self-loop " ++ id.render ++ " does not point at itself"
  | foreignStart found designated =>
    "start node " ++ found.render ++ " is not the designated start " ++ designated.render
  | stub id => "stub " ++ id.render ++ " survived construction"
  | asymmetric edge =>
    "edge " ++ edge.source.render ++ " -> " ++ edge.target.render ++ " (" ++ edge.label.render ++
      ") is not mirrored on both endpoints"

end Violation

namespace FlowGraph

/-- A violation, if the number of outgoing edges differs from the expected one. -/
def checkOut (cfg : FlowGraph) (id : NodeId) (kind : Kind) (expected : Nat) : List Violation :=
  let actual := (cfg.outgoing id).length
  if actual = expected then [] else [.outDegree id kind expected actual]

/-- A violation, if the number of incoming edges is not acceptable. -/
def checkIn (cfg : FlowGraph) (id : NodeId) (kind : Kind) (expected : InDegree)
    (acceptable : Nat → Bool) : List Violation :=
  let actual := (cfg.incoming id).length
  if acceptable actual then [] else [.inDegree id kind expected actual]

/-- A violation, if a node has an edge to itself. -/
def checkNoSelfEdge (cfg : FlowGraph) (id : NodeId) (kind : Kind) : List Violation :=
  if cfg.adjacent id id then [.unexpectedSelfEdge id kind] else []

/-- A violation, if a spin has no edge to itself. -/
def checkSelfEdge (cfg : FlowGraph) (id : NodeId) : List Violation :=
  if cfg.adjacent id id then [] else [.missingSelfEdge id]

/-- A violation, if a start node is not the designated one. -/
def checkDesignated (cfg : FlowGraph) (id : NodeId) : List Violation :=
  if id = cfg.start then [] else [.foreignStart id cfg.start]

/-- A violation, if a condition does not have a true and a false way out. -/
def checkBranchLabels (cfg : FlowGraph) (id : NodeId) : List Violation :=
  let labels := (cfg.outgoing id).map (·.2)
  if labels = [some true, some false] then [] else [.branchLabels id labels]

/-- The violations at one node, where `arity` is the number of slots if it is a phi node. -/
def kindViolations (cfg : FlowGraph) (id : NodeId) (kind : Kind) (arity : Nat) : List Violation :=
  match kind with
  | .start =>
    cfg.checkOut id kind 1 ++ cfg.checkDesignated id ++ cfg.checkNoSelfEdge id kind ++
      cfg.checkIn id kind .zero (· == 0)
  | .ret =>
    cfg.checkOut id kind 0 ++ cfg.checkNoSelfEdge id kind ++
      cfg.checkIn id kind .atLeastOne (1 ≤ ·)
  | .branch => cfg.checkBranchLabels id ++ cfg.checkIn id kind .atLeastOne (1 ≤ ·)
  | .assign | .store | .call | .block =>
    cfg.checkOut id kind 1 ++ cfg.checkIn id kind .atLeastOne (1 ≤ ·)
  | .spin =>
    cfg.checkOut id kind 1 ++ cfg.checkSelfEdge id ++ cfg.checkIn id kind .atLeastTwo (2 ≤ ·)
  | .phi =>
    cfg.checkOut id kind 1 ++ cfg.checkNoSelfEdge id kind ++
      cfg.checkIn id kind (if arity = 0 then .zero else .arity) (· == arity)
  | .stub => [.stub id]

/-- The violations at one node. -/
def nodeViolations (cfg : FlowGraph) (id : NodeId) : List Violation :=
  match cfg.node? id with
  | none => []
  | some node => cfg.kindViolations id node.kind ((node.phi?.map (·.arity)).getD 0)

/-- Whether an edge is listed as often at its source as at its target. -/
def balanced (cfg : FlowGraph) (edge : Edge) : Bool :=
  (cfg.outgoing edge.source).count (edge.target, edge.label) ==
    (cfg.incoming edge.target).count (edge.source, edge.label)

/-- All edges, as they are listed at their targets. -/
def incomingEdges (cfg : FlowGraph) : List Edge :=
  cfg.nodes.flatMap fun id => (cfg.incoming id).map fun link => ⟨link.1, id, link.2⟩

/-- The place of a label when edges are sorted: none, then false, then true. -/
def labelRank : Label → Nat
  | none => 0
  | some false => 1
  | some true => 2

/-- Edges sort by source, then target, then label. -/
def edgeLe (first second : Edge) : Bool :=
  if first.source != second.source then
    decide (first.source < second.source)
  else if first.target != second.target then
    decide (first.target < second.target)
  else
    decide (labelRank first.label ≤ labelRank second.label)

/-- The edges that are not listed alike at their two ends, sorted. -/
def asymmetricEdges (cfg : FlowGraph) : List Edge :=
  (((cfg.edges ++ cfg.incomingEdges).filter (!cfg.balanced ·)).mergeSort edgeLe).eraseDups

/-- All violations, node by node, and then the edges that are not listed alike at both ends. -/
def violations (cfg : FlowGraph) : List Violation :=
  cfg.nodes.flatMap cfg.nodeViolations ++ cfg.asymmetricEdges.map .asymmetric

/-- The first violation. -/
def check (cfg : FlowGraph) : Except Violation Unit :=
  match cfg.violations with
  | [] => .ok ()
  | violation :: _ => .error violation

end FlowGraph

end Flowgraph

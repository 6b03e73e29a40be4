import Flowgraph.Flow.Breach
import Flowgraph.Ssa.Placement
import Flowgraph.Ssa.Versions

/-!
# Conversion to single assignment form

After phi blocks have been placed, the dominator tree of the new graph is walked from the start. In
each node uses are renamed to the current versions and definitions to new ones, and the slots of the
phi blocks behind it are filled. When the walk leaves the subtree of a node, the versions that the
node made are dropped.
-/

namespace Flowgraph

mutual

/-- Whether a node is a stub or a block with a stub in it. -/
def Node.holdsStub : Node → Bool
  | .stub _ => true
  | .block children _ => holdsStubList children
  | _ => false

/-- Whether one of several nodes is a stub or a block with a stub in it. -/
def Node.holdsStubList : List Node → Bool
  | [] => false
  | node :: rest => node.holdsStub || holdsStubList rest

end

/-- A graph in the course of renaming, with the versions at the point that the walk has reached. -/
structure Renaming where
  cfg : FlowGraph
  versions : Versions

namespace Renaming

/-- Drop repetitions that stand next to each other. -/
def collapse : List NodeId → List NodeId
  | [] => []
  | [id] => [id]
  | id :: other :: rest =>
    if id = other then collapse (other :: rest) else id :: collapse (other :: rest)

/-- The slots of a node that belong to edges from a predecessor. -/
def slotsFrom (cfg : FlowGraph) (id predecessor : NodeId) : List Nat :=
  (cfg.predecessors id).zipIdx.filterMap fun (node, slot) =>
    if node = predecessor then some slot else none

/-- Fill the slots of one successor, if it is a phi node. -/
def fillSuccessor (versions : Versions) (id : NodeId) (cfg : FlowGraph) (successor : NodeId) :
    FlowGraph :=
  match cfg.node? successor with
  | some (.phi phi span) =>
    let filled := (slotsFrom cfg successor id).foldl
      (fun phi slot => phi.fillSlot slot versions.current) phi
    cfg.withGraph (cfg.setPayload successor (.phi filled span))
  | _ => cfg

/-- Rename a node and fill the slots behind it. The answer holds the variables that the node
defines, the last one first. -/
def enter (state : Renaming) (id : NodeId) : Renaming × List String :=
  match state.cfg.node? id with
  | none => (state, [])
  | some node =>
    let (scope, renamed) := ({ versions := state.versions } : Scope).renameNode node
    let cfg := state.cfg.withGraph (state.cfg.setPayload id renamed)
    let filled := (collapse (cfg.successors id)).foldl (fillSuccessor scope.versions id) cfg
    (⟨filled, scope.versions⟩, scope.defined)

/-- Drop the versions that a node made. -/
def leave (state : Renaming) (defined : List String) : Renaming :=
  { state with versions := defined.foldl Versions.pop state.versions }

/-- Rename along the dominator tree from a node down to a given depth. -/
def walk (tree : DominatorTree) : Nat → Renaming → NodeId → Renaming
  | 0, state, _ => state
  | depth + 1, state, id =>
    let (entered, defined) := state.enter id
    ((tree.childrenOf id).foldl (walk tree depth) entered).leave defined

end Renaming

namespace FlowGraph

/-- Rename all uses and definitions of some variables. -/
def rename (cfg : FlowGraph) (vars : List String) : FlowGraph :=
  let tree := cfg.dominatorTree
  (Renaming.walk tree tree.order.length ⟨cfg, .ofVars vars⟩ cfg.start).cfg

/-- Whether control can reach a node that holds a stub. -/
def reachesStub (cfg : FlowGraph) : Bool :=
  cfg.reached.any fun id => ((cfg.node? id).map Node.holdsStub).getD false

/-- Convert to single assignment form. Control must not reach a stub. The answer holds the number of
phi blocks. -/
def toSsa (cfg : FlowGraph) : Except Breach (FlowGraph × Nat) :=
  if cfg.reachesStub then
    .error .stubInRenaming
  else
    let (placed, count) := cfg.placePhis
    .ok (placed.rename cfg.definedVars.toList, count)

end FlowGraph

end Flowgraph

import Flowgraph.Dominance.Frontier
import Flowgraph.Flow.Surgery
import Flowgraph.Node.Effects

/-!
# Where phi blocks are needed

A variable needs a phi block at the dominance frontier of the nodes that define it, at the frontier
of these phi blocks, and so on. The search goes on from a frontier node only if it does not define
the variable itself. Each node that needs phi blocks gets one for all its variables.
-/

namespace Flowgraph

namespace FlowGraph

/-- Whether a node defines a variable. -/
def defines (cfg : FlowGraph) (var : String) (id : NodeId) : Bool :=
  ((cfg.node? id).map fun node => node.defs.contains var).getD false

/-- The variables that reachable nodes define. -/
def definedVars (cfg : FlowGraph) : NameSet :=
  NameSet.unions (cfg.reached.map fun id => ((cfg.node? id).map Node.defs).getD ∅)

/-- The reachable nodes that define a variable. -/
def sites (cfg : FlowGraph) (var : String) : List NodeId :=
  cfg.reached.filter (cfg.defines var)

/-- Close a list of nodes under frontiers for a number of rounds. `worklist` holds the nodes whose
frontier is still to be added to `placed`; a node that `defined` holds of is never put there. -/
def closeFrontier (frontier : NodeId → List NodeId) (defined : NodeId → Bool) :
    Nat → List NodeId → List NodeId → List NodeId
  | 0, _, placed => placed
  | _ + 1, [], placed => placed
  | rounds + 1, id :: worklist, placed =>
    let fresh := (frontier id).filter fun node => !placed.contains node
    closeFrontier frontier defined rounds (worklist ++ fresh.filter fun node => !defined node)
      (placed ++ fresh)

/-- The nodes at which a variable needs a phi block. Every node is on the worklist at most once. -/
def phiSites (cfg : FlowGraph) (frontiers : NodeMap NodeSet) (var : String) : List NodeId :=
  closeFrontier (fun id => (frontiers.getD id ∅).toList) (cfg.defines var) (cfg.slots.size + 1)
    (cfg.sites var) []

/-- The nodes that need a phi block by increasing number, each with its variables. -/
def placements (cfg : FlowGraph) : List (NodeId × List String) :=
  let frontiers := cfg.frontiers
  let placed := cfg.definedVars.toList.map fun var => (var, cfg.phiSites frontiers var)
  cfg.nodes.filterMap fun id =>
    let vars := (placed.filter fun entry => entry.2.contains id).map (·.1)
    if vars.isEmpty then none else some (id, vars)

/-- Put a phi block in front of a node, with a slot for each edge that moves to it, and count it. A
node without such an edge gets none. -/
def placePhi (state : FlowGraph × Nat) (placement : NodeId × List String) : FlowGraph × Nat :=
  let (cfg, count) := state
  let arity := (cfg.movableIncoming placement.1).length
  if arity = 0 then
    state
  else
    let phi := Phi.ofVars arity placement.2
    (cfg.prependChain placement.1 [.phi phi (cfg.spanOf placement.1)], count + 1)

/-- Put phi blocks wherever they are needed. The answer holds their number. -/
def placePhis (cfg : FlowGraph) : FlowGraph × Nat :=
  cfg.placements.foldl placePhi (cfg, 0)

end FlowGraph

end Flowgraph

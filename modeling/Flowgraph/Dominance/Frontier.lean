import Flowgraph.Dominance.Tree

/-!
# Dominance frontiers

The dominance frontier of a node holds the nodes with a predecessor that it dominates, and that it
does not strictly dominate itself. It is found from the leaves of the dominator tree up.
-/

namespace Flowgraph

namespace DominatorTree

/-- The frontier of a node, given those of its children. -/
def frontierFrom (tree : DominatorTree) (cfg : FlowGraph) (known : NodeMap NodeSet)
    (id : NodeId) : NodeSet :=
  let inherited := (tree.childrenOf id).flatMap fun child => (known.getD child ∅).toList
  .ofList ((cfg.successors id ++ inherited).filter fun node => !tree.strictlyDominates id node)

/-- The frontiers of all nodes of the tree. -/
def frontiers (tree : DominatorTree) (cfg : FlowGraph) : NodeMap NodeSet :=
  tree.preorder.reverse.foldl
    (fun known id => known.insert id (tree.frontierFrom cfg known id)) ∅

end DominatorTree

namespace FlowGraph

/-- The dominance frontiers of a flow graph. -/
def frontiers (cfg : FlowGraph) : NodeMap NodeSet :=
  cfg.dominatorTree.frontiers cfg

end FlowGraph

end Flowgraph

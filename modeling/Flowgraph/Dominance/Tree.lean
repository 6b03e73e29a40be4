import Flowgraph.Dominance.Forest
import Flowgraph.Flow.Basic
import Flowgraph.Graph.DepthFirst

/-!
# Dominator trees

A node dominates another if every way from the start to the other passes through it. The tree of
immediate dominators is found from a depth-first numbering. The semidominator of a vertex is the
least number from which a way leads to it over larger numbers only. `Sweep` goes from the largest
number down: it finds semidominators with a forest of the vertices done, and gives a verdict on each
vertex when its semidominator is reached. The immediate dominator is the semidominator, or that of a
smaller vertex, which a last pass fills in.
-/

namespace Flowgraph

/-- What the sweep finds out about the immediate dominator of a vertex. -/
inductive Verdict where
  | immediate (dominator : Nat)
  | sameAs (vertex : Nat)

/-- The sweep over the vertices. A bucket holds the vertices with a given semidominator that have no
verdict yet, oldest first. -/
structure Sweep where
  forest : Forest
  buckets : Array (List Nat)
  verdicts : Array Verdict

namespace Sweep

/-- The sweep over a number of vertices before its first vertex. -/
def ofSize (size : Nat) : Sweep :=
  ⟨.ofSize size, Array.replicate size [], Array.replicate size (.immediate 0)⟩

/-- Lower a candidate for the semidominator of `vertex` by what one predecessor allows. -/
def lower (vertex : Nat) (state : Forest × Nat) (predecessor : Nat) : Forest × Nat :=
  if predecessor ≤ vertex then
    (state.1, min state.2 predecessor)
  else
    let (forest, lowest) := state.1.eval predecessor
    (forest, min state.2 (forest.semiOf lowest))

/-- Give a verdict on a vertex whose semidominator is `dominator`. -/
def judge (dominator : Nat) (sweep : Sweep) (vertex : Nat) : Sweep :=
  let (forest, lowest) := sweep.forest.eval vertex
  let verdict :=
    if forest.semiOf lowest = forest.semiOf vertex then .immediate dominator else .sameAs lowest
  { sweep with forest, verdicts := sweep.verdicts.setIfInBounds vertex verdict }

/-- Process one vertex, given its predecessors and its parent in the depth-first tree. -/
def process (sweep : Sweep) (vertex parent : Nat) (predecessors : List Nat) : Sweep :=
  let (forest, semi) := predecessors.foldl (lower vertex) (sweep.forest, parent)
  let buckets := sweep.buckets.modify semi (· ++ [vertex])
  let linked : Sweep :=
    { sweep with
      forest := (forest.setSemi vertex semi).link parent vertex
      buckets := buckets.setIfInBounds parent [] }
  (buckets.getD parent []).foldl (judge parent) linked

/-- Process the vertices from a number down to one. -/
def processDown (parent : Nat → Nat) (predecessors : Nat → List Nat) : Nat → Sweep → Sweep
  | 0, sweep => sweep
  | vertex + 1, sweep =>
    processDown parent predecessors vertex
      (sweep.process (vertex + 1) (parent (vertex + 1)) (predecessors (vertex + 1)))

/-- Turn verdicts into immediate dominators, from the smallest vertex up. -/
def dominators (verdicts : List Verdict) : Array Nat :=
  verdicts.foldl (fun found verdict =>
    found.push <|
      match verdict with
      | .immediate dominator => dominator
      | .sameAs vertex => found.getD vertex 0) #[]

end Sweep

/-- The dominator tree of a flow graph: the reachable nodes in depth-first order, and the immediate
dominator of each but the start. -/
structure DominatorTree where
  start : NodeId
  order : List NodeId
  idoms : NodeMap NodeId

namespace FlowGraph

/-- The depth-first search from the start. -/
def walk (cfg : FlowGraph) : Walk :=
  cfg.depthFirst [cfg.start]

/-- The immediate dominators of vertices by number. -/
def idomNumbers (cfg : FlowGraph) (walk : Walk) : Array Nat :=
  let size := walk.entered.size
  let predecessors := fun vertex =>
    (cfg.predecessors (walk.node vertex)).filterMap fun id => walk.number[id]?
  let sweep := Sweep.processDown walk.parent predecessors (size - 1) (Sweep.ofSize size)
  Sweep.dominators sweep.verdicts.toList

/-- The dominator tree of a flow graph. -/
def dominatorTree (cfg : FlowGraph) : DominatorTree :=
  let walk := cfg.walk
  let idoms := cfg.idomNumbers walk
  { start := cfg.start
    order := walk.entered.toList
    idoms := .ofList ((List.range (walk.entered.size - 1)).map fun vertex =>
      (walk.node (vertex + 1), walk.node (idoms.getD (vertex + 1) 0))) }

end FlowGraph

namespace DominatorTree

/-- The immediate dominator of a node. The start and the nodes out of reach have none. -/
def idom? (tree : DominatorTree) (id : NodeId) : Option NodeId :=
  tree.idoms[id]?

/-- The nodes with a given immediate dominator, in depth-first order. -/
def childrenOf (tree : DominatorTree) (id : NodeId) : List NodeId :=
  tree.order.filter fun child => tree.idom? child == some id

/-- Whether control can reach a node. -/
def reaches (tree : DominatorTree) (id : NodeId) : Bool :=
  id == tree.start || tree.idoms.contains id

/-- A node and those above it in the tree, for at most `height` steps up. -/
def chain (tree : DominatorTree) : Nat → NodeId → List NodeId
  | 0, id => [id]
  | height + 1, id =>
    match tree.idom? id with
    | none => [id]
    | some dominator => id :: tree.chain height dominator

/-- The dominators of a node from itself up to the start. A node out of reach has none. -/
def dominatorsOf (tree : DominatorTree) (id : NodeId) : List NodeId :=
  if tree.reaches id then tree.chain tree.order.length id else []

/-- Whether one node dominates another. -/
def dominates (tree : DominatorTree) (a b : NodeId) : Bool :=
  (tree.dominatorsOf b).contains a

/-- Whether one node dominates another and is not the same. -/
def strictlyDominates (tree : DominatorTree) (a b : NodeId) : Bool :=
  a != b && tree.dominates a b

/-- A node and those below it in the tree to a given depth, each before those below it. -/
def preorderFrom (tree : DominatorTree) : Nat → NodeId → List NodeId
  | 0, _ => []
  | depth + 1, id => id :: (tree.childrenOf id).flatMap (tree.preorderFrom depth)

/-- All nodes of the tree, each after its immediate dominator. -/
def preorder (tree : DominatorTree) : List NodeId :=
  tree.preorderFrom tree.order.length tree.start

end DominatorTree

end Flowgraph

import Flowgraph.Graph.Search

/-!
# Depth-first search

A walk keeps the order in which nodes were entered, from which node each was entered, and the order
in which they were left. A node that was entered before is passed over, so that one search can
follow another. The neighbours are given by a function, along the edges or against them.
-/

namespace Flowgraph

/-- A depth-first search. Entered nodes are numbered from zero; `parents` gives for each number the
number of the node from which it was entered, and `finished` holds the nodes left, the last one
first. -/
structure Walk where
  entered : Array NodeId := #[]
  parents : Array Nat := #[]
  number : NodeMap Nat := ∅
  finished : List NodeId := []

namespace Walk

/-- Enter a node from another one. -/
def enter (walk : Walk) (parent : Nat) (id : NodeId) : Walk :=
  { walk with
    entered := walk.entered.push id
    parents := walk.parents.push parent
    number := walk.number.insert id walk.entered.size }

/-- Leave a node. -/
def leave (walk : Walk) (id : NodeId) : Walk :=
  { walk with finished := id :: walk.finished }

/-- Search from a node to a given depth, unless it was entered before. -/
def visit (next : NodeId → List NodeId) : Nat → Nat → Walk → NodeId → Walk
  | 0, _, walk, _ => walk
  | depth + 1, parent, walk, id =>
    if walk.number.contains id then
      walk
    else
      ((next id).foldl (visit next depth walk.entered.size) (walk.enter parent id)).leave id

/-- Search from a node that was not entered from another. It counts as its own parent. -/
def visitRoot (next : NodeId → List NodeId) (depth : Nat) (walk : Walk) (id : NodeId) : Walk :=
  visit next depth walk.entered.size walk id

/-- The node with a number. -/
def node (walk : Walk) (number : Nat) : NodeId :=
  walk.entered.getD number 0

/-- The number of the node from which the node with a number was entered. -/
def parent (walk : Walk) (number : Nat) : Nat :=
  walk.parents.getD number 0

/-- The nodes of a walk in the order in which they were left. -/
def postorder (walk : Walk) : List NodeId :=
  walk.finished.reverse

end Walk

namespace Graph

variable {α : Type}

/-- Search a graph along its edges from several nodes in turn. No search is deeper than the graph
has nodes. -/
def depthFirst (g : Graph α) (roots : List NodeId) : Walk :=
  roots.foldl (Walk.visitRoot g.successors g.slots.size) {}

end Graph

end Flowgraph

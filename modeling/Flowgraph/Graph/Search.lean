import Flowgraph.Graph.Basic

/-!
# Searching a graph

`breadthFirst` lists the nodes that can be reached in the order of discovery. Every node enters the
queue once, so that a graph with `n` slots is searched after `n` rounds. `reachableFrom` collects
them with a stack, on which a node may stand once for each edge that leads to it, and once as the
start.
-/

namespace Flowgraph

namespace Graph

variable {α : Type}

/-- The discovered nodes in order of discovery, and those of them still to be searched. -/
structure Frontier where
  seen : List NodeId
  queue : List NodeId

/-- Discover a node, unless it was discovered before. -/
def Frontier.discover (frontier : Frontier) (id : NodeId) : Frontier :=
  if frontier.seen.contains id then
    frontier
  else
    ⟨frontier.seen ++ [id], frontier.queue ++ [id]⟩

/-- Search from the nodes of the queue for a number of rounds. -/
def breadthFirstLoop (g : Graph α) : Nat → Frontier → List NodeId
  | 0, frontier => frontier.seen
  | rounds + 1, ⟨seen, queue⟩ =>
    match queue with
    | [] => seen
    | id :: rest =>
      g.breadthFirstLoop rounds ((g.successors id).foldl Frontier.discover ⟨seen, rest⟩)

/-- The nodes that can be reached from a live node, nearest first. -/
def breadthFirst (g : Graph α) (start : NodeId) : List NodeId :=
  g.breadthFirstLoop g.slots.size ⟨[start], [start]⟩

/-- Search from the nodes of a stack for a number of rounds. A node is followed when it is taken
from the stack for the first time. -/
def reachableLoop (g : Graph α) : Nat → List NodeId → NodeSet → NodeSet
  | 0, _, seen => seen
  | rounds + 1, stack, seen =>
    match stack with
    | [] => seen
    | id :: rest =>
      if g.contains id && !seen.contains id then
        let seen := seen.insert id
        let fresh := (g.successors id).filter fun next => !seen.contains next
        g.reachableLoop rounds (fresh.reverse ++ rest) seen
      else
        g.reachableLoop rounds rest seen

/-- The set of nodes that can be reached from a node, which is empty for a node that is not live. -/
def reachableFrom (g : Graph α) (start : NodeId) : NodeSet :=
  g.reachableLoop (g.edges.length + 1) [start] ∅

end Graph

end Flowgraph

import Flowgraph.Flow.Outcome
import Flowgraph.Flow.Surgery

/-!
# Leaving single assignment form

A phi block is taken out, and each edge that entered it leads to its successor by assignments of the
arguments in its slot, by increasing name of the target. An assignment of a name to itself is left
out.
-/

namespace Flowgraph

namespace FlowGraph

/-- The copies for one slot of a phi block. A target without an argument in the slot gets none. -/
def copiesFor (phi : Phi) (slot : Nat) (span : Span) : List Node :=
  phi.mappings.toList.filterMap fun (target, args) =>
    match args[slot]? with
    | none => none
    | some arg => if arg = target then none else some (.assign target (.temp arg) span)

/-- Let an edge lead to the successor of a removed phi block, with the copies of its slot on it. -/
def bypass (phi : Phi) (successor : NodeId) (span : Span) (cfg : FlowGraph)
    (entry : Link × Nat) : FlowGraph :=
  let edge : Edge := ⟨entry.1.1, successor, entry.1.2⟩
  let joined := cfg.withGraph (cfg.addEdge edge)
  let copies := copiesFor phi entry.2 span
  if copies.isEmpty then joined else joined.splitEdge edge copies

/-- Replace one phi node by copies. It has to have exactly one outgoing edge, to another node, and
must not be the start. -/
def revertPhi (cfg : FlowGraph) (id : NodeId) (phi : Phi) : Outcome FlowGraph :=
  match cfg.successors id with
  | [successor] =>
    if successor = id then
      .failed (.malformedPhi id)
    else if id = cfg.start then
      .broken .removesStart
    else
      .done ((cfg.incoming id).zipIdx.foldl (bypass phi successor (cfg.spanOf successor))
        (cfg.withGraph (cfg.erase id)))
  | _ => .failed (.malformedPhi id)

/-- Replace phi nodes one after another. The answer holds the graph as it is at the end or at the
first failure. -/
def revertAll (cfg : FlowGraph) : List (NodeId × Phi) → FlowGraph × Outcome Unit
  | [] => (cfg, .done ())
  | (id, phi) :: rest =>
    match cfg.revertPhi id phi with
    | .done next => next.revertAll rest
    | .failed error => (cfg, .failed error)
    | .broken breach => (cfg, .broken breach)

/-- The phi nodes that control can reach, nearest first. -/
def reachedPhis (cfg : FlowGraph) : List (NodeId × Phi) :=
  cfg.reached.filterMap fun id => do
    let phi ← (← cfg.node? id).phi?
    return (id, phi)

/-- Replace all phi nodes that control can reach. The answer holds their number, and the graph as it
is at the end or at the first failure. -/
def fromSsa (cfg : FlowGraph) : FlowGraph × Outcome Nat :=
  let (final, outcome) := cfg.revertAll cfg.reachedPhis
  (final, outcome.andThen fun () => .done cfg.reachedPhis.length)

end FlowGraph

end Flowgraph

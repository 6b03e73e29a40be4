import Flowgraph.Flow.Splicing
import Flowgraph.Ssa.Convert
import Flowgraph.Ssa.Revert

/-!
# Single assignment form by checked edits

`Flowgraph.Ssa.Convert` and `Flowgraph.Ssa.Revert` with every edit checked. An edit that is refused
is the error of the pass, and leaves the graph as the edits before it have made it.
-/

namespace Flowgraph

namespace Splicing

open Graph (Editing)

/-- Put a phi block in front of a node, with a slot for each edge that moves to it, and count it. A
node without such an edge gets none. -/
def placePhi (count : Nat) (placement : NodeId × List String) : Splicing Nat := do
  let cfg ← get
  let arity := (cfg.movableIncoming placement.1).length
  if arity = 0 then
    return count
  else
    let _ ← prepend placement.1 [.phi (.ofVars arity placement.2) (cfg.spanOf placement.1)]
    return count + 1

/-- Put phi blocks wherever they are needed, and answer their number. -/
def placePhis : Splicing Nat := do
  (← get).placements.foldlM placePhi 0

/-- Let an edge lead to the successor of a removed phi block, with the copies of its slot on it. -/
def bypass (phi : Phi) (successor : NodeId) (span : Span) (entry : Link × Nat) : Splicing Unit := do
  let edge : Edge := ⟨entry.1.1, successor, entry.1.2⟩
  edit (Editing.join edge)
  let _ ← innerInsert edge (FlowGraph.copiesFor phi entry.2 span)

/-- Remove a phi block, and lead the edges that entered it to its successor. -/
def revertPhi (id successor : NodeId) (phi : Phi) : Splicing Unit := do
  let entries := ((← get).incoming id).zipIdx
  let _ ← edit (Editing.remove id)
  let span := (← get).spanOf successor
  entries.forM (bypass phi successor span)

end Splicing

namespace FlowGraph

/-- Convert to single assignment form by edits that are checked. -/
def toSsaChecked (cfg : FlowGraph) : Outcome (FlowGraph × Nat) :=
  match Splicing.placePhis.run cfg with
  | .error error _ => .failed (.graph error)
  | .ok count placed =>
    if cfg.reachesStub then
      .broken .stubInRenaming
    else
      .done (placed.rename cfg.definedVars.toList, count)

/-- Replace one phi node by copies, by edits that are checked. -/
def revertPhiChecked (cfg : FlowGraph) (id : NodeId) (phi : Phi) : FlowGraph × Outcome Unit :=
  match cfg.successors id with
  | [successor] =>
    if successor = id then
      (cfg, .failed (.malformedPhi id))
    else if id = cfg.start then
      (cfg, .broken .removesStart)
    else
      match (Splicing.revertPhi id successor phi).run cfg with
      | .error error next => (next, .failed (.graph error))
      | .ok () next => (next, .done ())
  | _ => (cfg, .failed (.malformedPhi id))

/-- Replace phi nodes one after another, by edits that are checked. -/
def revertAllChecked (cfg : FlowGraph) : List (NodeId × Phi) → FlowGraph × Outcome Unit
  | [] => (cfg, .done ())
  | (id, phi) :: rest =>
    match cfg.revertPhiChecked id phi with
    | (next, .done ()) => next.revertAllChecked rest
    | failure => failure

/-- Replace all phi nodes that control can reach, by edits that are checked. -/
def fromSsaChecked (cfg : FlowGraph) : FlowGraph × Outcome Nat :=
  let (final, outcome) := cfg.revertAllChecked cfg.reachedPhis
  (final, outcome.andThen fun () => .done cfg.reachedPhis.length)

end FlowGraph

end Flowgraph

import Flowgraph.Flow.Surgery
import Flowgraph.Graph.Edit

/-!
# Splicing in place

The operations that splice nodes into a flow graph, step by step. A chain is inserted before any
edge moves; edges are then read once and moved one after another. Cleaning reads once which nodes
control cannot reach. Every step may be refused, and a refusal undoes nothing.
-/

namespace Flowgraph

namespace Graph.Editing

variable {α : Type}

/-- Insert nodes in order and answer their numbers. -/
def insertAll : List α → Editing α (List NodeId)
  | [] => return []
  | payload :: rest => do
    let id ← insert payload
    let ids ← insertAll rest
    return id :: ids

/-- Join each node of a list to the next one. -/
def joinPairs : List NodeId → Editing α Unit
  | first :: second :: rest => do
    join { source := first, target := second }
    joinPairs (second :: rest)
  | _ => return ()

/-- Insert a chain and answer its ends. An empty chain has none. -/
def insertChain (chain : List α) : Editing α (Option (NodeId × NodeId)) := do
  let ids ← insertAll chain
  match ids.head?, ids.getLast? with
  | some first, some last =>
    joinPairs ids
    return some (first, last)
  | _, _ => return none

/-- Remove an edge and add another. -/
def redirect (old new : Edge) : Editing α Unit := do
  unlinkEdge old
  join new

/-- Insert a chain and tie it in by its ends. An empty chain changes nothing. -/
def tieIn (chain : List α) (tie : NodeId → NodeId → Editing α Unit) :
    Editing α (Option (NodeId × NodeId)) := do
  match ← insertChain chain with
  | none => return none
  | some (first, last) =>
    tie first last
    return some (first, last)

end Graph.Editing

/-- The links of a vertex that move when its edges are redirected. A spin keeps those to itself. -/
def Vertex.movable (id : NodeId) (vertex : Vertex Node) (links : List Link) : List Link :=
  if vertex.payload.kind = .spin then links.filter (·.1 != id) else links

/-- A computation that changes a flow graph and may be refused. -/
abbrev Splicing :=
  EStateM GraphError FlowGraph

namespace Splicing

open Graph (Editing)
open Graph.Editing (vertex insert join redirect tieIn)

/-- Edit the graph and keep the designated start. -/
def edit {β : Type} (editing : Editing Node β) : Splicing β := fun cfg =>
  match editing.run cfg.toGraph with
  | .ok answer graph => .ok answer (cfg.withGraph graph)
  | .error error graph => .error error (cfg.withGraph graph)

/-- Lead the edges into a node to the first node of a chain, and the last one to the node. -/
def leadIn (id first last : NodeId) : Editing Node Unit := do
  let entered ← vertex id
  (entered.movable id entered.incoming).forM fun link =>
    redirect ⟨link.1, id, link.2⟩ ⟨link.1, first, link.2⟩
  join { source := last, target := id }

/-- Let the edges out of a node leave the last node of a chain, and lead the node to the first one.
-/
def leadOut (id first last : NodeId) : Editing Node Unit := do
  let left ← vertex id
  (left.movable id left.outgoing).forM fun link =>
    redirect ⟨id, link.1, link.2⟩ ⟨last, link.1, link.2⟩
  join { source := id, target := first }

/-- Lead an edge to the first node of a chain, and the last one to the target of the edge. -/
def leadThrough (edge : Edge) (first last : NodeId) : Editing Node Unit := do
  redirect edge ⟨edge.source, first, edge.label⟩
  join { source := last, target := edge.target }

/-- Splice a chain at a node, which has to be live. -/
def spliceAt (tie : NodeId → NodeId → NodeId → Editing Node Unit) (id : NodeId)
    (chain : List Node) : Splicing (Option (NodeId × NodeId)) :=
  edit do
    let _ ← vertex id
    tieIn chain (tie id)

/-- Put a chain in front of a node. -/
def prepend (id : NodeId) (chain : List Node) : Splicing (Option (NodeId × NodeId)) :=
  spliceAt leadIn id chain

/-- Put a chain behind a node. -/
def postpend (id : NodeId) (chain : List Node) : Splicing (Option (NodeId × NodeId)) :=
  spliceAt leadOut id chain

/-- Put a chain into an edge, which has to be there. -/
def innerInsert (edge : Edge) (chain : List Node) : Splicing (Option (NodeId × NodeId)) :=
  edit do
    unless (← get).hasEdge edge do
      throw (.missingEdge edge.source edge.target (some edge.label))
    tieIn chain (leadThrough edge)

/-- Insert a node with the edges of another, which has to be live. An edge of that node to itself
becomes one of the new node to itself. -/
def insertBeside (old : NodeId) (node : Node) : Editing Node NodeId := do
  let beside ← vertex old
  let new ← insert node
  beside.incoming.forM fun link => join ⟨if link.1 = old then new else link.1, new, link.2⟩
  beside.outgoing.forM fun link => do
    unless link.1 = old do
      join ⟨new, link.1, link.2⟩
  return new

/-- Put a node in the place of another and answer its number. The designated start moves before the
old node goes. -/
def replace (old : NodeId) (node : Node) : Splicing NodeId := do
  let new ← edit (insertBeside old node)
  modify fun cfg => { cfg with start := if old = cfg.start then new else cfg.start }
  let _ ← edit (Editing.remove old)
  return new

/-- Remove the nodes that control cannot reach, and answer how many there were. -/
def clean : Splicing Nat := do
  let unreached := (← get).unreached
  edit (unreached.forM fun id => do let _ ← Editing.remove id)
  return unreached.length

end Splicing

end Flowgraph

import Flowgraph.Graph.Basic

/-!
# Editing a graph in place

The operations that change a graph, step by step: a step reads the vertex of a node, writes it, or
refuses to go on. An edge is written at its source before its target is looked at again, and a node
is removed after its edges. A refusal undoes nothing.

`Edit` holds a request for each operation. `Edit.runAll` goes on after a refused one.
-/

namespace Flowgraph.Graph

/-- A computation that edits a graph and may be refused. -/
abbrev Editing (α : Type) :=
  EStateM GraphError (Graph α)

namespace Editing

variable {α : Type}

/-- Read the vertex of a node that has to be live. -/
def vertex (id : NodeId) : Editing α (Vertex α) := do
  match (← get).find id with
  | .ok vertex => return vertex
  | .error e => throw e

/-- Insert a node without edges and answer its number. -/
def insert (payload : α) : Editing α NodeId := do
  let g ← get
  set (g.insert payload)
  return g.nextId

/-- Add an edge, unless it is there already. The target is looked at first. -/
def join (edge : Edge) : Editing α Unit := do
  let _ ← vertex edge.target
  let source ← vertex edge.source
  unless source.outgoing.contains (edge.target, edge.label) do
    modify (·.update edge.source fun vertex =>
      { vertex with outgoing := addOutgoing vertex.outgoing (edge.target, edge.label) })
    let _ ← vertex edge.target
    modify (·.update edge.target fun vertex =>
      { vertex with incoming := vertex.incoming ++ [(edge.source, edge.label)] })

/-- Remove an edge, at its source and then at its target. -/
def unlinkEdge (edge : Edge) : Editing α Unit := do
  let missing : GraphError := .missingEdge edge.source edge.target (some edge.label)
  let source ← vertex edge.source
  if source.outgoing.contains (edge.target, edge.label) then
    modify (·.update edge.source fun vertex =>
      { vertex with outgoing := vertex.outgoing.erase (edge.target, edge.label) })
    let target ← vertex edge.target
    if target.incoming.contains (edge.source, edge.label) then
      modify (·.update edge.target fun vertex =>
        { vertex with incoming := vertex.incoming.erase (edge.source, edge.label) })
    else
      throw missing
  else
    throw missing

/-- Remove all edges between two nodes and answer their labels. There has to be one. -/
def unlink (source target : NodeId) : Editing α (List Label) := do
  let vertex ← vertex source
  let labels := (vertex.outgoing.filter (·.1 == target)).map (·.2)
  if labels.isEmpty then
    throw (.missingEdge source target none)
  else
    labels.forM fun label => unlinkEdge ⟨source, target, label⟩
    return labels

/-- Remove the edges from a node to itself, if there are any. -/
def unlinkSelf (id : NodeId) : Editing α Unit := do
  if (← get).adjacent id id then
    let _ ← unlink id id

/-- Remove the incoming edges of a node. -/
def unlinkIncoming (id : NodeId) : Editing α Unit := do
  let entered ← vertex id
  entered.incoming.forM fun link => unlinkEdge ⟨link.1, id, link.2⟩

/-- Remove the outgoing edges of a node. -/
def unlinkOutgoing (id : NodeId) : Editing α Unit := do
  let left ← vertex id
  left.outgoing.forM fun link => unlinkEdge ⟨id, link.1, link.2⟩

/-- Remove a node with all edges at it and answer its payload. Edges from the node to itself go
first, then the incoming edges, then the outgoing ones. -/
def remove (id : NodeId) : Editing α α := do
  unlinkSelf id
  unlinkIncoming id
  unlinkOutgoing id
  let bare ← vertex id
  modify (·.vacate id)
  return bare.payload

/-- Give a node another payload if it is live, and answer the old one. -/
def offer (id : NodeId) (payload : α) : Editing α (Option α) := do
  let g ← get
  set (g.setPayload id payload)
  return g.payload? id

/-- Give a node that has to be live another payload, and answer the old one. -/
def assign (id : NodeId) (payload : α) : Editing α α := do
  let old ← vertex id
  modify (·.setPayload id payload)
  return old.payload

end Editing

/-- A request to edit a graph. -/
inductive Edit (α : Type) where
  | insert (payload : α)
  | remove (id : NodeId)
  | join (edge : Edge)
  | unlink (source target : NodeId)
  | unlinkEdge (edge : Edge)
  | offer (id : NodeId) (payload : α)
  | assign (id : NodeId) (payload : α)

namespace Edit

/-- What a request answers that is not refused. -/
inductive Reply (α : Type) where
  | done
  | inserted (id : NodeId)
  | labels (labels : List Label)
  | payload (old : Option α)

variable {α : Type}

/-- Carry out a request. -/
def perform : Edit α → Editing α (Reply α)
  | insert payload => .inserted <$> Editing.insert payload
  | remove id => (.payload ∘ some) <$> Editing.remove id
  | join edge => (fun _ => .done) <$> Editing.join edge
  | unlink source target => .labels <$> Editing.unlink source target
  | unlinkEdge edge => (fun _ => .done) <$> Editing.unlinkEdge edge
  | offer id payload => .payload <$> Editing.offer id payload
  | assign id payload => (.payload ∘ some) <$> Editing.assign id payload

/-- The answer to a request, and the graph behind it. -/
def run (edit : Edit α) (g : Graph α) : Except GraphError (Reply α) × Graph α :=
  match edit.perform.run g with
  | .ok reply g => (.ok reply, g)
  | .error e g => (.error e, g)

/-- The answers to a list of requests, and the graph behind the last of them. -/
def runAll : List (Edit α) → Graph α → List (Except GraphError (Reply α)) × Graph α
  | [], g => ([], g)
  | edit :: rest, g =>
    let (reply, next) := edit.run g
    let (replies, last) := runAll rest next
    (reply :: replies, last)

end Edit

end Flowgraph.Graph

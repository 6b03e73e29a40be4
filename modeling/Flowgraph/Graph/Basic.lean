import Std.Data.ExtTreeMap
import Std.Data.ExtTreeSet

/-!
# Directed graphs with labelled edges

Nodes carry a payload and are addressed by numbers that are handed out once. An edge may carry a
truth value, which tells the two ways out of a condition apart. Edges with the same ends and the
same label are one edge.

Every node lists its outgoing and its incoming edges in an order that is part of the graph. A new
edge comes last, except that one labelled `true` comes first among the outgoing edges.
-/

namespace Flowgraph

/-- The number of a node. -/
abbrev NodeId := Nat

/-- A finite set of nodes. -/
abbrev NodeSet := Std.ExtTreeSet NodeId compare

/-- A finite map from nodes to values. -/
abbrev NodeMap (α : Type) := Std.ExtTreeMap NodeId α compare

/-- The label of an edge. -/
abbrev Label := Option Bool

/-- One entry of an adjacency list: the node at the other end and the label. -/
abbrev Link := NodeId × Label

/-- A node is written as its number behind the letter `n`. -/
def NodeId.render (id : NodeId) : String :=
  "n" ++ toString id

/-- Text of a label as an optional truth value. -/
def Label.render : Label → String
  | none => "None"
  | some true => "Some(true)"
  | some false => "Some(false)"

/-- An edge of a graph. -/
structure Edge where
  source : NodeId
  target : NodeId
  label : Label := none
  deriving DecidableEq, Inhabited

/-- The reasons for which an operation on a graph is refused. A missing edge without a label stands
for any edge between two nodes. -/
inductive GraphError where
  | missingNode (id : NodeId)
  | missingEdge (source target : NodeId) (label : Option Label)
  deriving DecidableEq

namespace GraphError

/-- The text that tells a reader what went wrong. -/
def message : GraphError → String
  | missingNode id => "node " ++ id.render ++ " is not in the graph"
  | missingEdge source target label =>
    let labelText :=
      match label with
      | none => "None"
      | some label => "Some(" ++ label.render ++ ")"
    "no edge " ++ source.render ++ " -> " ++ target.render ++ " (label " ++ labelText ++ ")"

end GraphError

/-- A node with its payload and its adjacency lists. -/
structure Vertex (α : Type) where
  payload : α
  outgoing : List Link := []
  incoming : List Link := []

/-- Drop the links of a vertex that lead to a node. -/
def Vertex.forget {α : Type} (id : NodeId) (vertex : Vertex α) : Vertex α :=
  { vertex with
    outgoing := vertex.outgoing.filter (·.1 != id)
    incoming := vertex.incoming.filter (·.1 != id) }

/-- A graph: the vertex of every number handed out so far, or nothing for a node that was removed,
and the count of the live nodes. -/
structure Graph (α : Type) where
  slots : Array (Option (Vertex α)) := #[]
  live : Nat := 0

namespace Graph

variable {α : Type}

/-! ### Queries -/

/-- The vertex of a live node. -/
def vertex? (g : Graph α) (id : NodeId) : Option (Vertex α) :=
  g.slots[id]?.join

/-- Whether a node is live. -/
def contains (g : Graph α) (id : NodeId) : Bool :=
  (g.vertex? id).isSome

/-- The vertex of a node that has to be live. -/
def find (g : Graph α) (id : NodeId) : Except GraphError (Vertex α) :=
  match g.vertex? id with
  | some vertex => .ok vertex
  | none => .error (.missingNode id)

/-- The payload of a live node. -/
def payload? (g : Graph α) (id : NodeId) : Option α :=
  (g.vertex? id).map (·.payload)

/-- The outgoing edges of a node, and none for a node that is not live. -/
def outgoing (g : Graph α) (id : NodeId) : List Link :=
  ((g.vertex? id).map (·.outgoing)).getD []

/-- The incoming edges of a node, and none for a node that is not live. -/
def incoming (g : Graph α) (id : NodeId) : List Link :=
  ((g.vertex? id).map (·.incoming)).getD []

/-- The successors of a node, one for each outgoing edge. -/
def successors (g : Graph α) (id : NodeId) : List NodeId :=
  (g.outgoing id).map (·.1)

/-- The predecessors of a node, one for each incoming edge. -/
def predecessors (g : Graph α) (id : NodeId) : List NodeId :=
  (g.incoming id).map (·.1)

/-- Whether some edge leads from one node to another. -/
def adjacent (g : Graph α) (source target : NodeId) : Bool :=
  (g.successors source).contains target

/-- Whether a graph has an edge with just this label. -/
def hasEdge (g : Graph α) (edge : Edge) : Bool :=
  (g.outgoing edge.source).contains (edge.target, edge.label)

/-- The live nodes by increasing number. -/
def nodes (g : Graph α) : List NodeId :=
  (List.range g.slots.size).filter g.contains

/-- Exactly the live nodes are listed. -/
theorem mem_nodes {g : Graph α} {id : NodeId} : id ∈ g.nodes ↔ g.contains id := by
  simp only [nodes, List.mem_filter, List.mem_range, and_iff_right_iff_imp, contains, vertex?]
  intro h
  by_cases hb : id < g.slots.size
  · exact hb
  · simp [Array.getElem?_eq_none (Nat.le_of_not_lt hb)] at h

/-- The number of live nodes. -/
def size (g : Graph α) : Nat :=
  g.live

/-- Whether no node is live. -/
def isEmpty (g : Graph α) : Bool :=
  g.live == 0

/-- The edges that leave a node, in order. -/
def edgesFrom (g : Graph α) (source : NodeId) : List Edge :=
  (g.outgoing source).map fun link => ⟨source, link.1, link.2⟩

/-- All edges, by increasing source. -/
def edges (g : Graph α) : List Edge :=
  g.nodes.flatMap g.edgesFrom

/-! ### Changes -/

/-- Change the vertex of a live node. -/
def update (g : Graph α) (id : NodeId) (change : Vertex α → Vertex α) : Graph α :=
  { g with slots := g.slots.modify id (Option.map change) }

/-- A change at one node leaves the vertices of all others alone. -/
@[simp] theorem vertex?_update (g : Graph α) (id other : NodeId) (change : Vertex α → Vertex α) :
    (g.update id change).vertex? other =
      if id = other then (g.vertex? other).map change else g.vertex? other := by
  simp only [vertex?, update, Array.getElem?_modify]
  split
  · cases g.slots[other]? with
    | none => rfl
    | some slot => cases slot <;> rfl
  · rfl

/-- Give a live node another payload. -/
def setPayload (g : Graph α) (id : NodeId) (payload : α) : Graph α :=
  g.update id fun vertex => { vertex with payload }

/-- The number that the next inserted node gets. -/
def nextId (g : Graph α) : NodeId :=
  g.slots.size

/-- Insert a node without edges. Its number is `nextId`. -/
def insert (g : Graph α) (payload : α) : Graph α :=
  ⟨g.slots.push (some { payload }), g.live + 1⟩

/-- An inserted node is live and has no edges, and no other vertex changes. -/
@[simp] theorem vertex?_insert (g : Graph α) (payload : α) (id : NodeId) :
    (g.insert payload).vertex? id = if id = g.nextId then some { payload } else g.vertex? id := by
  simp only [vertex?, insert, nextId, Array.getElem?_push]
  by_cases h : id = g.slots.size <;> simp [h]

/-- Put a link into an outgoing list: first if it is labelled `true`, else last. -/
def addOutgoing (links : List Link) (link : Link) : List Link :=
  if link.2 = some true then link :: links else links ++ [link]

/-- Add an edge between two live nodes, unless it is there already. -/
def addEdge (g : Graph α) (edge : Edge) : Graph α :=
  if g.hasEdge edge then
    g
  else
    (g.update edge.source fun vertex =>
        { vertex with outgoing := addOutgoing vertex.outgoing (edge.target, edge.label) }).update
      edge.target fun vertex =>
        { vertex with incoming := vertex.incoming ++ [(edge.source, edge.label)] }

/-- Take an edge away. -/
def eraseEdge (g : Graph α) (edge : Edge) : Graph α :=
  (g.update edge.source fun vertex =>
      { vertex with outgoing := vertex.outgoing.erase (edge.target, edge.label) }).update
    edge.target fun vertex =>
      { vertex with incoming := vertex.incoming.erase (edge.source, edge.label) }

/-- Take a live node away and leave the lists of all others as they are. -/
def vacate (g : Graph α) (id : NodeId) : Graph α :=
  ⟨g.slots.setIfInBounds id none, if g.contains id then g.live - 1 else g.live⟩

/-- Take a node away, together with all edges at it. -/
def erase (g : Graph α) (id : NodeId) : Graph α :=
  { g.vacate id with
    slots := (g.slots.map (Option.map (Vertex.forget id))).setIfInBounds id none }

/-- An erased node is gone, and every other vertex only loses its links to it. -/
@[simp] theorem vertex?_erase (g : Graph α) (id other : NodeId) :
    (g.erase id).vertex? other =
      if id = other then none else (g.vertex? other).map (Vertex.forget id) := by
  simp only [vertex?, erase, Array.getElem?_setIfInBounds, Array.getElem?_map, Array.size_map]
  by_cases h : id = other
  · subst h
    by_cases hb : id < g.slots.size <;> simp [hb]
  · simp only [h, if_false]
    cases g.slots[other]? with
    | none => rfl
    | some slot => cases slot <;> rfl

/-! ### Checked changes -/

/-- Add an edge. Its ends have to be live, and the target is looked at first. -/
def join (g : Graph α) (edge : Edge) : Except GraphError (Graph α) :=
  if !g.contains edge.target then
    .error (.missingNode edge.target)
  else if !g.contains edge.source then
    .error (.missingNode edge.source)
  else
    .ok (g.addEdge edge)

/-- Remove an edge that has to be there. -/
def unlinkEdge (g : Graph α) (edge : Edge) : Except GraphError (Graph α) :=
  if !g.contains edge.source then
    .error (.missingNode edge.source)
  else if !g.hasEdge edge then
    .error (.missingEdge edge.source edge.target (some edge.label))
  else
    .ok (g.eraseEdge edge)

/-- The labels of the edges between two nodes, in the order of the outgoing list. -/
def labelsBetween (g : Graph α) (source target : NodeId) : List Label :=
  ((g.outgoing source).filter (·.1 == target)).map (·.2)

/-- Remove all edges between two nodes. There has to be one; the answer lists their labels. -/
def unlink (g : Graph α) (source target : NodeId) : Except GraphError (List Label × Graph α) :=
  if !g.contains source then
    .error (.missingNode source)
  else
    let labels := g.labelsBetween source target
    if labels.isEmpty then
      .error (.missingEdge source target none)
    else
      .ok (labels, labels.foldl (fun g label => g.eraseEdge ⟨source, target, label⟩) g)

/-- Remove a live node with all edges at it. The answer holds its payload. -/
def remove (g : Graph α) (id : NodeId) : Except GraphError (α × Graph α) :=
  match g.payload? id with
  | none => .error (.missingNode id)
  | some payload => .ok (payload, g.erase id)

end Graph

end Flowgraph

import Flowgraph.Code.Unit
import Flowgraph.Flow.Basic
import Flowgraph.Flow.Error

/-!
# Flow graphs of function bodies

A body is read from its last statement to its first, starting from a return node. A statement that
acts becomes a node in front of the place at which the rest starts, a label names this place, and a
jump moves to the place of its label.

A jump backward leads to a stub, as its label has not been seen yet. In the end every stub is
resolved: its label may stand at a node, or at another stub, and so on. Stubs that lead round in a
circle become a spin. At last, nodes that control cannot reach are removed.
-/

namespace Flowgraph

/-- A body that has been read in part: the graph so far, the places of the labels seen, and the
stubs with the labels that they stand for, oldest first. -/
structure Builder where
  cfg : FlowGraph
  labels : NameMap NodeId := ∅
  pending : List (NodeId × String) := []

namespace Builder

/-- Insert a node without edges. -/
def insert (builder : Builder) (node : Node) : Builder :=
  { builder with cfg := builder.cfg.withGraph (builder.cfg.insert node) }

/-- Add an edge. -/
def addEdge (builder : Builder) (edge : Edge) : Builder :=
  { builder with cfg := builder.cfg.withGraph (builder.cfg.addEdge edge) }

/-- Insert a node in front of another. -/
def link (builder : Builder) (node : Node) (successor : NodeId) : Builder × NodeId :=
  let id := builder.cfg.nextId
  ((builder.insert node).addEdge { source := id, target := successor }, id)

/-- The place of a label, which is a new stub if the label has not been seen. -/
def targetOf (builder : Builder) (label : String) (span : Span) : Builder × NodeId :=
  match builder.labels[label]? with
  | some target => (builder, target)
  | none =>
    let stub := builder.cfg.nextId
    ({ builder.insert (.stub span) with pending := builder.pending ++ [(stub, label)] }, stub)

/-- Read one instruction in front of a place. The answer holds the place at which it starts. -/
def visitInstr (builder : Builder) (successor : NodeId) (span : Span) :
    Instr → Except FlowError (Builder × NodeId)
  | .move (.temp name) source => .ok (builder.link (.assign name source span) successor)
  | .move (.mem address) source => .ok (builder.link (.store address source span) successor)
  | .move target _ => .error (.invalidMoveTarget target)
  | .call collectors callee args =>
    .ok (builder.link (.call collectors callee args span) successor)
  | .ret => .ok (builder.insert (.ret span), builder.cfg.nextId)
  | .label name => .ok ({ builder with labels := builder.labels.insert name successor }, successor)
  | .jump label => .ok (builder.targetOf label span)
  | .branch cond label =>
    let id := builder.cfg.nextId
    let (targeted, target) := (builder.insert (.branch cond span)).targetOf label span
    .ok ((targeted.addEdge ⟨id, target, some true⟩).addEdge ⟨id, successor, some false⟩, id)

/-- Read one statement in front of a place. -/
def visit (builder : Builder) (successor : NodeId) : Stmt → Except FlowError (Builder × NodeId)
  | .instr instr span => builder.visitInstr successor span instr
  | .seq _ _ => .error .nestedSequence

/-- Read statements from the last to the first. -/
def visitAll (builder : Builder) (successor : NodeId) :
    List Stmt → Except FlowError (Builder × NodeId)
  | [] => .ok (builder, successor)
  | stmt :: rest =>
    match builder.visitAll successor rest with
    | .error error => .error error
    | .ok (read, place) => read.visit place stmt

/-- Where the label of a stub leads: to a node, or round in a circle of stubs, given by the stub at
which the circle closes. -/
inductive Destination where
  | node (id : NodeId)
  | circle (entry : NodeId)

/-- Follow stubs to the end for a number of rounds. `seen` holds the stubs passed on the way. -/
def follow (labels : NameMap NodeId) (stubs : NodeMap String) :
    Nat → List NodeId → NodeId → Except FlowError Destination
  | 0, _, place => .ok (.circle place)
  | rounds + 1, seen, place =>
    match stubs[place]? with
    | none => .ok (.node place)
    | some label =>
      if seen.contains place then
        .ok (.circle place)
      else
        match labels[label]? with
        | none => .error (.undefinedLabel label)
        | some target => follow labels stubs rounds (place :: seen) target

/-- The labels of the stubs. -/
def stubs (builder : Builder) : NodeMap String :=
  .ofList builder.pending

/-- Where a stub leads. There are as many rounds as stubs and one more. -/
def resolve (builder : Builder) (stub : NodeId) : Except FlowError Destination :=
  follow builder.labels builder.stubs (builder.pending.length + 1) [] stub

/-- The graph while stubs are being resolved, with the spin of each circle found so far. -/
structure Patch where
  graph : Graph Node
  spins : NodeMap NodeId := ∅

/-- The node at a destination. A circle met for the first time gets a spin. -/
def Patch.nodeAt (patch : Patch) (spanOf : NodeId → Span) : Destination → Patch × NodeId
  | .node id => (patch, id)
  | .circle entry =>
    match patch.spins[entry]? with
    | some spin => (patch, spin)
    | none =>
      let spin := patch.graph.nextId
      let graph := (patch.graph.insert (.spin (spanOf entry))).addEdge
        { source := spin, target := spin }
      (⟨graph, patch.spins.insert entry spin⟩, spin)

/-- Let all edges into a stub lead to another node as well. -/
def Patch.copyIncoming (patch : Patch) (stub target : NodeId) : Patch :=
  { patch with
    graph := (patch.graph.incoming stub).foldl
      (fun g link => g.addEdge ⟨link.1, target, link.2⟩) patch.graph }

/-- Resolve stubs in order. -/
def patchAll (builder : Builder) : Patch → List (NodeId × String) → Except FlowError Patch
  | patch, [] => .ok patch
  | patch, (stub, _) :: rest =>
    match builder.resolve stub with
    | .error error => .error error
    | .ok destination =>
      let (placed, target) := patch.nodeAt builder.cfg.spanOf destination
      builder.patchAll (placed.copyIncoming stub target) rest

/-- Resolve all stubs and remove them. -/
def backpatch (builder : Builder) : Except FlowError FlowGraph :=
  match builder.patchAll ⟨builder.cfg.toGraph, ∅⟩ builder.pending with
  | .error error => .error error
  | .ok patch =>
    .ok (builder.cfg.withGraph
      (builder.pending.foldl (fun g entry => g.erase entry.1) patch.graph))

end Builder

namespace FlowGraph

/-- The flow graph of a function body. -/
def ofBody (body : Stmt) : Except FlowError FlowGraph :=
  let opening : Builder := { cfg := .ofStart body.span }
  match (opening.insert (.ret body.span)).visitAll opening.cfg.nextId body.topLevel with
  | .error error => .error error
  | .ok (builder, entry) =>
    match (builder.addEdge { source := builder.cfg.start, target := entry }).backpatch with
    | .error error => .error error
    | .ok cfg => .ok cfg.clean

/-- The flow graphs of functions, by name and on top of others. The first body that has none ends
it. -/
def ofFunctions : NameMap FlowGraph → List Function → Except FlowError (NameMap FlowGraph)
  | graphs, [] => .ok graphs
  | graphs, function :: rest =>
    match ofBody function.body with
    | .error error => .error error
    | .ok cfg => ofFunctions (graphs.insert function.name cfg) rest

/-- The flow graphs of the functions of a unit. Of two functions with one name that with the larger
key counts. -/
def ofUnit (unit : CodeUnit) : Except FlowError (NameMap FlowGraph) :=
  ofFunctions ∅ unit.functionList

end FlowGraph

end Flowgraph

import Flowgraph.Flow.Build

/-!
# Building a flow graph with checked edits

The construction of `Flowgraph.Flow.Build` with every edit checked: an edge is joined between live
nodes and a live node is removed, and an edit that is refused is the error of the construction.
-/

namespace Flowgraph

namespace Graph

variable {α : Type}

/-- Add edges in order, between live nodes. -/
def joinEach (g : Graph α) (edges : List Edge) : Except FlowError (Graph α) :=
  (edges.foldlM join g).mapError .graph

/-- Take live nodes away in order. -/
def removeEach (g : Graph α) (ids : List NodeId) : Except FlowError (Graph α) :=
  (ids.foldlM (fun (g : Graph α) id => (g.remove id).map Prod.snd) g).mapError .graph

end Graph

namespace Builder

/-- Add edges in order, between live nodes. -/
def joinEach (builder : Builder) (edges : List Edge) : Except FlowError Builder :=
  (builder.cfg.joinEach edges).map fun graph => { builder with cfg := builder.cfg.withGraph graph }

/-- Insert a node in front of another. -/
def linkChecked (builder : Builder) (node : Node) (successor : NodeId) :
    Except FlowError (Builder × NodeId) :=
  let id := builder.cfg.nextId
  ((builder.insert node).joinEach [⟨id, successor, none⟩]).map fun linked => (linked, id)

/-- Insert a condition in front of the place of its label and of another place. -/
def forkChecked (builder : Builder) (cond : Expr) (label : String) (span : Span)
    (successor : NodeId) : Except FlowError (Builder × NodeId) :=
  let id := builder.cfg.nextId
  let targeted := (builder.insert (.branch cond span)).targetOf label span
  (targeted.1.joinEach [⟨id, targeted.2, some true⟩, ⟨id, successor, some false⟩]).map
    fun forked => (forked, id)

/-- Read one instruction in front of a place. Returns, labels and jumps add no edge. -/
def visitInstrChecked (builder : Builder) (successor : NodeId) (span : Span) :
    Instr → Except FlowError (Builder × NodeId)
  | .move (.temp name) source => builder.linkChecked (.assign name source span) successor
  | .move (.mem address) source => builder.linkChecked (.store address source span) successor
  | .call collectors callee args =>
    builder.linkChecked (.call collectors callee args span) successor
  | .branch cond label => builder.forkChecked cond label span successor
  | instr => builder.visitInstr successor span instr

/-- Read one statement in front of a place. -/
def visitChecked (builder : Builder) (successor : NodeId) :
    Stmt → Except FlowError (Builder × NodeId)
  | .instr instr span => builder.visitInstrChecked successor span instr
  | .seq _ _ => .error .nestedSequence

/-- Read statements from the last to the first. -/
def visitAllChecked (builder : Builder) (successor : NodeId) :
    List Stmt → Except FlowError (Builder × NodeId)
  | [] => .ok (builder, successor)
  | stmt :: rest => do
    let read ← builder.visitAllChecked successor rest
    read.1.visitChecked read.2 stmt

/-- The node at a destination. A circle met for the first time gets a spin. -/
def Patch.nodeAtChecked (patch : Patch) (spanOf : NodeId → Span) :
    Destination → Except FlowError (Patch × NodeId)
  | .node id => .ok (patch, id)
  | .circle entry =>
    match patch.spins[entry]? with
    | some spin => .ok (patch, spin)
    | none => do
      let spin := patch.graph.nextId
      let graph ← (patch.graph.insert (.spin (spanOf entry))).joinEach [⟨spin, spin, none⟩]
      return (⟨graph, patch.spins.insert entry spin⟩, spin)

/-- Let all edges into a stub lead to another node as well. -/
def Patch.copyIncomingChecked (patch : Patch) (stub target : NodeId) : Except FlowError Patch := do
  let graph ← patch.graph.joinEach
    ((patch.graph.incoming stub).map fun link => ⟨link.1, target, link.2⟩)
  return { patch with graph }

/-- Resolve stubs in order. -/
def patchAllChecked (builder : Builder) : Patch → List (NodeId × String) → Except FlowError Patch
  | patch, [] => .ok patch
  | patch, entry :: rest => do
    let destination ← builder.resolve entry.1
    let placed ← patch.nodeAtChecked builder.cfg.spanOf destination
    let copied ← placed.1.copyIncomingChecked entry.1 placed.2
    builder.patchAllChecked copied rest

/-- Resolve all stubs and remove them. -/
def backpatchChecked (builder : Builder) : Except FlowError FlowGraph := do
  let patch ← builder.patchAllChecked ⟨builder.cfg.toGraph, ∅⟩ builder.pending
  let graph ← patch.graph.removeEach (builder.pending.map Prod.fst)
  return builder.cfg.withGraph graph

end Builder

namespace FlowGraph

/-- Remove all nodes that control cannot reach. -/
def cleanChecked (cfg : FlowGraph) : Except FlowError FlowGraph :=
  (cfg.removeEach cfg.unreached).map cfg.withGraph

/-- The flow graph of a function body, by edits that are checked. -/
def ofBodyChecked (body : Stmt) : Except FlowError FlowGraph := do
  let opening : Builder := { cfg := .ofStart body.span }
  let read ← (opening.insert (.ret body.span)).visitAllChecked opening.cfg.nextId body.topLevel
  let entered ← read.1.joinEach [⟨read.1.cfg.start, read.2, none⟩]
  let cfg ← entered.backpatchChecked
  cfg.cleanChecked

/-- The flow graphs of functions, by name and on top of others, by edits that are checked. -/
def ofFunctionsChecked (graphs : NameMap FlowGraph) (functions : List Function) :
    Except FlowError (NameMap FlowGraph) :=
  functions.foldlM (fun graphs function => do
    return graphs.insert function.name (← ofBodyChecked function.body)) graphs

/-- The flow graphs of the functions of a unit, by edits that are checked. -/
def ofUnitChecked (unit : CodeUnit) : Except FlowError (NameMap FlowGraph) :=
  ofFunctionsChecked ∅ unit.functionList

end FlowGraph

end Flowgraph

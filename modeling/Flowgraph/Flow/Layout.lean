import Flowgraph.Code.LabelSupply
import Flowgraph.Flow.Outcome

/-!
# Laying out a flow graph as statements

The layout follows chains: it writes what a node does and goes on with its successor, which then
needs no jump. A chain ends with a return, or with a jump to a node written before. A condition
becomes a branch to its true way, which is written later as a chain of its own, and goes on with its
false way. Only targets of jumps and branches get a label, in the order of the text.
-/

namespace Flowgraph

namespace Layout

/-- A piece of the text, in which places stand for labels. -/
inductive Item where
  | place (id : NodeId)
  | stmt (instr : Instr) (span : Span)
  | jump (target : NodeId) (span : Span)
  | branch (cond : Expr) (target : NodeId) (span : Span)

namespace Item

/-- The node to which an item leads. -/
def target? : Item → Option NodeId
  | jump target _ => some target
  | branch _ target _ => some target
  | _ => none

end Item

mutual

/-- The instructions of a node that acts on the program's state, which is the node `id` or inside
it. -/
def straightLine (id : NodeId) : Node → Except FlowError (List Item)
  | .assign target value span => .ok [.stmt (.move (.temp target) value) span]
  | .store address value span => .ok [.stmt (.move (.mem address) value) span]
  | .call collectors callee args span => .ok [.stmt (.call collectors callee args) span]
  | .block children _ => straightLines id children
  | .start _ => .error (.unexpectedNode id .start)
  | .ret _ => .error (.unexpectedNode id .ret)
  | .branch _ _ => .error (.unexpectedNode id .branch)
  | .spin _ => .error (.unexpectedNode id .spin)
  | .phi _ _ => .error (.unexpectedNode id .phi)
  | .stub _ => .error (.unexpectedNode id .stub)

/-- The instructions of several nodes in a row. -/
def straightLines (id : NodeId) : List Node → Except FlowError (List Item)
  | [] => .ok []
  | node :: rest =>
    match straightLine id node with
    | .error error => .error error
    | .ok items =>
      match straightLines id rest with
      | .error error => .error error
      | .ok others => .ok (items ++ others)

end

/-- Where a chain goes on after a node. -/
inductive Step where
  | stop
  | next (id : NodeId)
  | fork (onTrue onFalse : NodeId)

/-- The text of one node and where the chain goes on. -/
def emit (cfg : FlowGraph) (id : NodeId) (node : Node) : Except FlowError (List Item × Step) :=
  let onward (items : List Item) : Except FlowError (List Item × Step) :=
    match cfg.successors id with
    | next :: _ => .ok (items, .next next)
    | [] => .error (.unexpectedNode id node.kind)
  match node with
  | .start _ => onward []
  | .ret span => .ok ([.stmt .ret span], .stop)
  | .spin span => .ok ([.jump id span], .stop)
  | .branch cond span =>
    match cfg.successors id with
    | [onTrue, onFalse] => .ok ([.branch cond onTrue span], .fork onTrue onFalse)
    | _ => .error (.unexpectedNode id .branch)
  | .assign _ _ _ | .store _ _ _ | .call _ _ _ _ | .block _ _ =>
    match straightLine id node with
    | .error error => .error error
    | .ok items => onward items
  | .phi _ _ => .error (.unexpectedNode id .phi)
  | .stub _ => .error (.unexpectedNode id .stub)

end Layout

/-- A layout in the making: the text so far, the nodes written, and the ways to be written later. -/
structure Layout where
  items : List Layout.Item := []
  emitted : List NodeId := []
  deferred : List NodeId := []

namespace Layout

/-- Write a chain from a node on, over at most `length` nodes. -/
def chain (cfg : FlowGraph) : Nat → Layout → NodeId → Except FlowError Layout
  | 0, layout, _ => .ok layout
  | length + 1, layout, id =>
    match cfg.node? id with
    | none => .ok layout
    | some node =>
      if layout.emitted.contains id then
        .ok { layout with items := layout.items ++ [.jump id node.span] }
      else
        match emit cfg id node with
        | .error error => .error error
        | .ok (items, step) =>
          let written : Layout :=
            { layout with
              items := layout.items ++ .place id :: items
              emitted := id :: layout.emitted }
          match step with
          | .stop => .ok written
          | .next next => chain cfg length written next
          | .fork onTrue onFalse =>
            chain cfg length { written with deferred := written.deferred ++ [onTrue] } onFalse

/-- Write the deferred ways, at most `count` of them. -/
def finish (cfg : FlowGraph) (length : Nat) : Nat → Layout → Except FlowError Layout
  | 0, layout => .ok layout
  | count + 1, layout =>
    match layout.deferred with
    | [] => .ok layout
    | id :: rest =>
      let taken : Layout := { layout with deferred := rest }
      if layout.emitted.contains id then
        finish cfg length count taken
      else
        match chain cfg length taken id with
        | .error error => .error error
        | .ok written => finish cfg length count written

/-- The layout of a flow graph. A chain writes each node once and then ends, and each condition
defers one way. -/
def ofGraph (cfg : FlowGraph) : Except FlowError Layout :=
  let length := cfg.slots.size + 1
  match chain cfg length {} cfg.start with
  | .error error => .error error
  | .ok layout => finish cfg length length layout

/-- Mint labels for nodes that have none yet. -/
def mint : List NodeId → NodeMap String → LabelSupply →
    Except Breach (NodeMap String × LabelSupply)
  | [], labels, supply => .ok (labels, supply)
  | id :: rest, labels, supply =>
    if labels.contains id then
      mint rest labels supply
    else
      match supply.fresh? with
      | none => .error .labelsExhausted
      | some (label, remaining) => mint rest (labels.insert id label) remaining

/-- The statements of an item, given the labels of nodes. -/
def stmts (cfg : FlowGraph) (labels : NodeMap String) : Item → List Stmt
  | .place id =>
    match labels[id]? with
    | some label => [.instr (.label label) (cfg.spanOf id)]
    | none => []
  | .stmt instr span => [.instr instr span]
  | .jump target span => [.instr (.jump (labels.getD target "")) span]
  | .branch cond target span => [.instr (.branch cond (labels.getD target "")) span]

/-- The body that a layout stands for, and the labels that are left. -/
def body (layout : Layout) (cfg : FlowGraph) (supply : LabelSupply) :
    Except Breach (Stmt × LabelSupply) :=
  match mint (layout.items.filterMap Item.target?) ∅ supply with
  | .error breach => .error breach
  | .ok (labels, remaining) =>
    .ok (.seq (layout.items.flatMap (stmts cfg labels)) (cfg.spanOf cfg.start), remaining)

end Layout

namespace FlowGraph

/-- Lay out a flow graph as the body of a function. The answer holds the labels that are left. -/
def flatten (cfg : FlowGraph) (supply : LabelSupply) : Outcome (Stmt × LabelSupply) :=
  match Layout.ofGraph cfg with
  | .error error => .failed error
  | .ok layout => .ofBreaches (layout.body cfg supply)

/-- Lay out functions on top of a unit. A function keeps its body if there is no graph for it. -/
def flattenFunctions (graphs : NameMap FlowGraph) :
    List Function → CodeUnit → LabelSupply → Outcome (CodeUnit × LabelSupply)
  | [], unit, supply => .done (unit, supply)
  | function :: rest, unit, supply =>
    match graphs[function.name]? with
    | none => flattenFunctions graphs rest (unit.add function) supply
    | some cfg =>
      (cfg.flatten supply).andThen fun (body, remaining) =>
        flattenFunctions graphs rest (unit.add ⟨function.name, body⟩) remaining

/-- The graphs that belong to no key of a unit, as functions without a body. -/
def strays (graphs : NameMap FlowGraph) (unit : CodeUnit) : List Function :=
  (graphs.toList.filter fun entry => !unit.functions.contains entry.1).map fun entry =>
    ⟨entry.1, .seq [] .dummy⟩

/-- Lay out graphs as a unit with the name and the functions of another. Graphs that belong to no
key of that unit become functions as well. -/
def flattenUnit (graphs : NameMap FlowGraph) (unit : CodeUnit) (supply : LabelSupply) :
    Outcome (CodeUnit × LabelSupply) :=
  flattenFunctions graphs (unit.functionList ++ strays graphs unit) { name := unit.name } supply

end FlowGraph

end Flowgraph

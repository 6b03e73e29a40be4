import Flowgraph.Dataflow.Basic
import Flowgraph.Flow.Component

/-!
# Backward dataflow analysis

The fact at the exit of a node is the meet of the facts at the entries of its successors, and the
transfer function turns it into the fact at the entry. All live nodes take part. The solver has one
queue, at first of all nodes in postorder; a change at the entry of a node queues its predecessors.
-/

namespace Flowgraph

/-- A backward analysis with facts in `φ`. A branch is treated as a statement and the other nodes
keep the fact, unless something else is said. -/
structure BackwardAnalysis (φ : Type) where
  top : φ
  meet : φ → φ → φ
  statement : Node → φ → φ
  branch : Node → φ → φ := statement
  ret : Node → φ → φ := fun _ fact => fact
  spin : Node → φ → φ := fun _ fact => fact

/-- The facts found at the entries and the exits of nodes. -/
structure BackwardFacts (φ : Type) where
  inputs : NodeMap φ := ∅
  outputs : NodeMap φ := ∅

namespace BackwardFacts

variable {φ : Type}

/-- The fact at the entry of a node. -/
def input? (facts : BackwardFacts φ) (id : NodeId) : Option φ :=
  facts.inputs[id]?

/-- The fact at the exit of a node. -/
def output? (facts : BackwardFacts φ) (id : NodeId) : Option φ :=
  facts.outputs[id]?

/-- The facts at the entries of the successors of a node that have one, in the order of edges. -/
def leaving (facts : BackwardFacts φ) (cfg : FlowGraph) (id : NodeId) : List φ :=
  (cfg.successors id).filterMap facts.input?

end BackwardFacts

namespace BackwardAnalysis

variable {φ : Type}

/-- The fact at the entry of a node from the fact at its exit. -/
def transfer (analysis : BackwardAnalysis φ) (id : NodeId) (node : Node) (fact : φ) :
    Except Breach φ :=
  match node with
  | .start _ => .ok fact
  | .ret _ => .ok (analysis.ret node fact)
  | .assign _ _ _ | .store _ _ _ | .call _ _ _ _ => .ok (analysis.statement node fact)
  | .branch _ _ => .ok (analysis.branch node fact)
  | .spin _ => .ok (analysis.spin node fact)
  | .block children _ =>
    match Node.checkStatements id children.reverse with
    | .error breach => .error breach
    | .ok () => .ok (children.foldr analysis.statement fact)
  | .phi _ _ | .stub _ => .error (.noTransfer node.kind id)

/-- A solver at work: the facts so far, the queue, and the nodes processed so far, the last one
first. -/
structure Solver (φ : Type) where
  facts : BackwardFacts φ := {}
  queue : List NodeId
  visits : List NodeId := []

/-- The fact at the exit of a node as it stands. -/
def outputAt (analysis : BackwardAnalysis φ) (cfg : FlowGraph) (facts : BackwardFacts φ)
    (id : NodeId) : φ :=
  meetAll analysis.top analysis.meet (facts.leaving cfg id)

/-- The fact at the entry of a node from the fact at its exit, whatever the node is. -/
def inputAt (analysis : BackwardAnalysis φ) (cfg : FlowGraph) (id : NodeId) (output : φ) :
    Except Breach φ :=
  match cfg.node? id with
  | none => .ok output
  | some node => analysis.transfer id node output

/-- Queue a node, unless it is queued already. -/
def Solver.wake (solver : Solver φ) (id : NodeId) : Solver φ :=
  if solver.queue.contains id then solver else { solver with queue := solver.queue ++ [id] }

/-- Process one node of the queue. -/
def process [DecidableEq φ] (analysis : BackwardAnalysis φ) (cfg : FlowGraph) (solver : Solver φ)
    (id : NodeId) : Except Breach (Solver φ) :=
  let output := analysis.outputAt cfg solver.facts id
  match analysis.inputAt cfg id output with
  | .error breach => .error breach
  | .ok input =>
    let settled : Solver φ :=
      { solver with
        facts := { solver.facts with outputs := solver.facts.outputs.insert id output }
        visits := id :: solver.visits }
    if solver.facts.input? id = some input then
      .ok settled
    else
      .ok ((cfg.predecessors id).foldl Solver.wake
        { settled with
          facts := { settled.facts with inputs := settled.facts.inputs.insert id input } })

/-- Run a solver for a number of rounds, each of which processes one node. -/
def solve [DecidableEq φ] (analysis : BackwardAnalysis φ) (cfg : FlowGraph) :
    Nat → Solver φ → Option (Except Breach (Solver φ))
  | 0, _ => none
  | rounds + 1, solver =>
    match solver.queue with
    | [] => some (.ok solver)
    | id :: rest =>
      match analysis.process cfg { solver with queue := rest } id with
      | .error breach => some (.error breach)
      | .ok next => solve analysis cfg rounds next

/-- Solve a backward analysis over a flow graph. -/
def run [DecidableEq φ] (analysis : BackwardAnalysis φ) (cfg : FlowGraph) (rounds : Nat) :
    Option (Except Breach (Solver φ)) :=
  analysis.solve cfg rounds { queue := cfg.postorder }

/-- The facts that a backward analysis finds, if it is done within a number of rounds. -/
def facts? [DecidableEq φ] (analysis : BackwardAnalysis φ) (cfg : FlowGraph) (rounds : Nat) :
    Option (Except Breach (BackwardFacts φ)) :=
  (analysis.run cfg rounds).map fun outcome => outcome.map (·.facts)

end BackwardAnalysis

end Flowgraph

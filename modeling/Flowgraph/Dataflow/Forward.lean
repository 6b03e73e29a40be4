import Flowgraph.Dataflow.Basic
import Flowgraph.Flow.Component

/-!
# Forward dataflow analysis

A forward analysis attaches facts to edges. The fact at the entry of a node is the meet of those on
its incoming edges, and its transfer function turns it into one fact for each outgoing edge.

The solver works on the component with the smallest number that has work to do, through a queue of
its nodes. An edge whose source has not been processed says nothing, and the meet of nothing is the
top fact. When the fact on an edge changes, its target is queued, or the target's component. Nothing
is assumed of an analysis, so the number of rounds is limited.
-/

namespace Flowgraph

/-- A forward analysis with facts in `φ`. A branch has one fact for each of its two ways; nodes for
which nothing is said keep the fact. -/
structure ForwardAnalysis (φ : Type) where
  top : φ
  meet : φ → φ → φ
  statement : Node → φ → φ
  branch : Node → φ → φ × φ := fun _ fact => (fact, fact)
  start : Node → φ → φ := fun _ fact => fact
  spin : Node → φ → φ := fun _ fact => fact

/-- The facts found: for each processed node the one at its entry, and one for each outgoing edge.
-/
structure ForwardFacts (φ : Type) where
  inputs : NodeMap φ := ∅
  outputs : NodeMap (List φ) := ∅

namespace ForwardFacts

variable {φ : Type}

/-- The fact at the entry of a node. -/
def input? (facts : ForwardFacts φ) (id : NodeId) : Option φ :=
  facts.inputs[id]?

/-- The facts on the outgoing edges of a node, in their order. -/
def outputsOf (facts : ForwardFacts φ) (id : NodeId) : List φ :=
  facts.outputs.getD id []

/-- The fact on an edge. -/
def onEdge? (facts : ForwardFacts φ) (cfg : FlowGraph) (edge : Edge) : Option φ := do
  let index ← (cfg.outgoing edge.source).idxOf? (edge.target, edge.label)
  (facts.outputsOf edge.source)[index]?

/-- The facts that the incoming edges of a node have, in their order. -/
def entering (facts : ForwardFacts φ) (cfg : FlowGraph) (id : NodeId) : List φ :=
  (cfg.incoming id).filterMap fun link => facts.onEdge? cfg ⟨link.1, id, link.2⟩

end ForwardFacts

namespace ForwardAnalysis

variable {φ : Type}

/-- The facts on the outgoing edges of a node, `degree` in number, from the fact at its entry. -/
def transfer (analysis : ForwardAnalysis φ) (id : NodeId) (degree : Nat) (node : Node) (fact : φ) :
    Except Breach (List φ) :=
  match node with
  | .start _ => .ok (List.replicate degree (analysis.start node fact))
  | .ret _ => .ok []
  | .assign _ _ _ | .store _ _ _ | .call _ _ _ _ =>
    .ok (List.replicate degree (analysis.statement node fact))
  | .branch _ _ =>
    let (onTrue, onFalse) := analysis.branch node fact
    .ok [onTrue, onFalse]
  | .spin _ => .ok (List.replicate degree (analysis.spin node fact))
  | .block children _ =>
    match Node.checkStatements id children with
    | .error breach => .error breach
    | .ok () =>
      .ok (List.replicate degree
        (children.foldl (fun fact child => analysis.statement child fact) fact))
  | .phi _ _ | .stub _ => .error (.noTransfer node.kind id)

/-- A solver at work: the facts so far, the components with work to do, the component at work with
its queue, and the nodes processed so far, the last one first. -/
structure Solver (φ : Type) where
  facts : ForwardFacts φ := {}
  waiting : Std.ExtTreeSet Nat compare
  current : Nat := 0
  queue : List NodeId := []
  visits : List NodeId := []

/-- The fact at the entry of a node as it stands. -/
def inputAt (analysis : ForwardAnalysis φ) (cfg : FlowGraph) (facts : ForwardFacts φ)
    (id : NodeId) : φ :=
  meetAll analysis.top analysis.meet (facts.entering cfg id)

/-- The facts on the outgoing edges of a node. There has to be one for each edge. -/
def outputsAt (analysis : ForwardAnalysis φ) (cfg : FlowGraph) (id : NodeId) (input : φ) :
    Except Breach (List φ) :=
  match cfg.node? id with
  | none => .ok []
  | some node =>
    let degree := (cfg.outgoing id).length
    match analysis.transfer id degree node input with
    | .error breach => .error breach
    | .ok outputs => if outputs.length = degree then .ok outputs else .error .factCount

/-- Ask for work at a node whose entry has changed. -/
def Solver.wake (components : Components) (solver : Solver φ) (id : NodeId) : Solver φ :=
  let index := components.indexOf id
  if index = solver.current then
    if solver.queue.contains id then solver else { solver with queue := solver.queue ++ [id] }
  else
    { solver with waiting := solver.waiting.insert index }

/-- The successors of a node whose edge has got another fact. -/
def changedSuccessors [DecidableEq φ] (cfg : FlowGraph) (id : NodeId) (old new : List φ) :
    List NodeId :=
  (cfg.successors id).zipIdx.filterMap fun (successor, index) =>
    if old[index]? = new[index]? then none else some successor

/-- Process one node of the queue. -/
def process [DecidableEq φ] (analysis : ForwardAnalysis φ) (components : Components)
    (solver : Solver φ) (id : NodeId) : Except Breach (Solver φ) :=
  let cfg := components.cfg
  let input := analysis.inputAt cfg solver.facts id
  match analysis.outputsAt cfg id input with
  | .error breach => .error breach
  | .ok outputs =>
    let changed := changedSuccessors cfg id (solver.facts.outputsOf id) outputs
    let facts : ForwardFacts φ :=
      ⟨solver.facts.inputs.insert id input, solver.facts.outputs.insert id outputs⟩
    .ok (changed.foldl (Solver.wake components)
      { solver with facts, visits := id :: solver.visits })

/-- Run a solver for a number of rounds. In each round it processes a node of the queue or, if there
is none, opens the next component. -/
def solve [DecidableEq φ] (analysis : ForwardAnalysis φ) (components : Components) :
    Nat → Solver φ → Option (Except Breach (Solver φ))
  | 0, _ => none
  | rounds + 1, solver =>
    match solver.queue with
    | id :: rest =>
      match analysis.process components { solver with queue := rest } id with
      | .error breach => some (.error breach)
      | .ok next => solve analysis components rounds next
    | [] =>
      match solver.waiting.toList with
      | [] => some (.ok solver)
      | index :: _ =>
        solve analysis components rounds
          { solver with
            waiting := solver.waiting.erase index
            current := index
            queue := components.nodesOf index }

/-- Solve a forward analysis over a flow graph. -/
def run [DecidableEq φ] (analysis : ForwardAnalysis φ) (cfg : FlowGraph) (rounds : Nat) :
    Option (Except Breach (Solver φ)) :=
  let components := cfg.components
  analysis.solve components rounds { waiting := {components.start} }

/-- The facts that a forward analysis finds, if it is done within a number of rounds. -/
def facts? [DecidableEq φ] (analysis : ForwardAnalysis φ) (cfg : FlowGraph) (rounds : Nat) :
    Option (Except Breach (ForwardFacts φ)) :=
  (analysis.run cfg rounds).map fun outcome => outcome.map (·.facts)

end ForwardAnalysis

end Flowgraph

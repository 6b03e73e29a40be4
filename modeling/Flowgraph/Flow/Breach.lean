import Flowgraph.Flow.Violation

/-!
# Breaches of contract

Some operations may only be called on graphs that meet a condition. A call that breaks it has no
result and no effect. An error, in contrast, is an answer about the input.
-/

namespace Flowgraph

/-- The conditions that a call can break. -/
inductive Breach where
  | removesStart
  | stubInRenaming
  | noTransfer (kind : Kind) (id : NodeId)
  | blockChild (id : NodeId) (kind : Kind)
  | factCount
  | malformed (violations : List Violation)
  | labelsExhausted
  | noComponent (count index : Nat)
  deriving DecidableEq

namespace Breach

/-- The text that tells a reader what was broken. -/
def message : Breach → String
  | removesStart => "assertion `left != right` failed: removing the start node"
  | stubInRenaming => "stub reached ssa renaming"
  | noTransfer kind id =>
    kind.name ++ " node " ++ id.render ++
      " reached the dataflow engine; phi blocks and stubs have no transfer function"
  | blockChild id kind => "block " ++ id.render ++ " holds a " ++ kind.name ++ " node"
  | factCount => "assertion `left == right` failed"
  | malformed violations =>
    "malformed cfg:\n  " ++ "\n  ".intercalate (violations.map Violation.message)
  | labelsExhausted => "attempt to add with overflow"
  | noComponent count index =>
    "index out of bounds: the len is " ++ toString count ++ " but the index is " ++ toString index

end Breach

namespace FlowGraph

/-- Remove a live node that is not the start. The answer holds the node. -/
def remove (cfg : FlowGraph) (id : NodeId) :
    Except Breach (Except GraphError (Node × FlowGraph)) :=
  if id = cfg.start then
    .error .removesStart
  else
    .ok ((cfg.toGraph.remove id).map fun (node, graph) => (node, cfg.withGraph graph))

/-- Insist that a flow graph is well formed. -/
def assertWellFormed (cfg : FlowGraph) : Except Breach Unit :=
  if cfg.violations.isEmpty then .ok () else .error (.malformed cfg.violations)

end FlowGraph

end Flowgraph

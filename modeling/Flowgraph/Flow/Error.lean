import Flowgraph.Graph.Basic
import Flowgraph.Node.Basic

/-!
# Errors of the passes over flow graphs
-/

namespace Flowgraph

/-- The reasons for which a pass over a flow graph does not go through. -/
inductive FlowError where
  | graph (error : GraphError)
  | undefinedLabel (label : String)
  | nestedSequence
  | invalidMoveTarget (target : Expr)
  | unexpectedNode (id : NodeId) (kind : Kind)
  | malformedPhi (id : NodeId)
  deriving DecidableEq

namespace FlowError

/-- The text that tells a reader what went wrong. -/
def message : FlowError → String
  | graph error => error.message
  | undefinedLabel label => "jump to undefined label `" ++ label ++ "`"
  | nestedSequence => "statement sequence nested inside the function body"
  | invalidMoveTarget target =>
    "move target `" ++ target.render ++ "` is neither a temp nor a memory location"
  | unexpectedNode id kind => kind.name ++ " node " ++ id.render ++ " cannot be flattened"
  | malformedPhi id => "phi block " ++ id.render ++ " must have exactly one successor"

end FlowError

end Flowgraph

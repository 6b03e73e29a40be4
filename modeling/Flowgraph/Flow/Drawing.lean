import Flowgraph.Flow.Basic

/-!
# Drawings of flow graphs

A flow graph is drawn in the DOT language, with one line for each node and one for each edge.
Quotes, backslashes and line ends in a text are escaped.
-/

namespace Flowgraph

namespace Drawing

/-- How one character is written inside a quoted label. -/
def escapeChar : Char → List Char
  | '"' => ['\\', '"']
  | '\\' => ['\\', '\\']
  | '\n' => ['\\', 'n']
  | c => [c]

/-- A text as it is written inside a quoted label. -/
def escape (text : String) : String :=
  .ofList (text.toList.flatMap escapeChar)

/-- The line of a node. -/
def nodeLine (cfg : FlowGraph) (id : NodeId) : String :=
  let text := ((cfg.node? id).map Node.render).getD ""
  "    " ++ id.render ++ " [label=\"" ++ escape text ++ "\"];\n"

/-- The line of an edge. -/
def edgeLine (edge : Edge) : String :=
  let label :=
    match edge.label with
    | none => ""
    | some value => " [label=\"  " ++ (if value then "true" else "false") ++ "\"]"
  "    " ++ edge.source.render ++ " -> " ++ edge.target.render ++ label ++ ";\n"

end Drawing

namespace FlowGraph

/-- The drawing of a flow graph. -/
def draw (cfg : FlowGraph) : String :=
  "digraph nfa \x7b\n    node [shape=rectangle]\n" ++
    String.join (cfg.nodes.map (Drawing.nodeLine cfg)) ++
    String.join (cfg.edges.map Drawing.edgeLine) ++ "\x7d\n"

end FlowGraph

end Flowgraph

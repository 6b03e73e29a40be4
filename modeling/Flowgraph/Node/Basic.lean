import Flowgraph.Code.Stmt
import Flowgraph.Node.Phi

/-!
# Nodes of a flow graph

Assignments, stores and calls act on the program's state, a block does so with several nodes in a
row, and the other kinds only direct control. A stub holds the place of an unknown label.
-/

namespace Flowgraph

/-- The kinds of nodes. -/
inductive Kind where
  | start | ret | assign | store | call | branch | spin | block | phi | stub
  deriving DecidableEq, Inhabited

namespace Kind

/-- The name of a kind in messages. -/
def name : Kind → String
  | start => "start"
  | ret => "return"
  | assign => "var-assign"
  | store => "mem-assign"
  | call => "call"
  | branch => "if"
  | spin => "self-loop"
  | block => "block"
  | phi => "phi"
  | stub => "stub"

end Kind

/-- A node with its source position. A `spin` is an endless loop that does nothing. -/
inductive Node where
  | start (span : Span)
  | ret (span : Span)
  | assign (target : String) (value : Expr) (span : Span)
  | store (address value : Expr) (span : Span)
  | call (collectors : List String) (callee : String) (args : List Expr) (span : Span)
  | branch (cond : Expr) (span : Span)
  | spin (span : Span)
  | block (children : List Node) (span : Span)
  | phi (mappings : Phi) (span : Span)
  | stub (span : Span)
  deriving Inhabited

namespace Node

/-- The kind of a node. -/
def kind : Node → Kind
  | start _ => .start
  | ret _ => .ret
  | assign _ _ _ => .assign
  | store _ _ _ => .store
  | call _ _ _ _ => .call
  | branch _ _ => .branch
  | spin _ => .spin
  | block _ _ => .block
  | phi _ _ => .phi
  | stub _ => .stub

/-- The source position of a node. -/
def span : Node → Span
  | start span => span
  | ret span => span
  | assign _ _ span => span
  | store _ _ span => span
  | call _ _ _ span => span
  | branch _ span => span
  | spin span => span
  | block _ span => span
  | phi _ span => span
  | stub span => span

/-- The phi block of a phi node. -/
def phi? : Node → Option Phi
  | phi mappings _ => some mappings
  | _ => none

mutual

/-- Text of a node. -/
def render : Node → String
  | start _ => "start"
  | ret _ => "return"
  | assign target value _ => target ++ " := " ++ value.render
  | store address value _ => "MEM[" ++ address.render ++ "] := " ++ value.render
  | call collectors callee args _ => Instr.renderCall collectors callee args
  | branch cond _ => "if " ++ cond.render
  | spin _ => "self-loop"
  | block children _ => "; ".intercalate (renderList children)
  | phi mappings _ => mappings.render
  | stub _ => "stub"

/-- Texts of several nodes. -/
def renderList : List Node → List String
  | [] => []
  | node :: rest => node.render :: renderList rest

end

end Node

end Flowgraph

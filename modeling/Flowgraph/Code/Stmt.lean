import Flowgraph.Code.Expr
import Flowgraph.Code.Span

/-!
# Statements

A statement is an instruction with its source position, or a sequence of statements. Sequences only
group: running a statement runs its instructions in order, and `code` lists them.
-/

namespace Flowgraph

/-- One instruction of linear code. A branch goes to its label if the condition is not zero and
falls through otherwise. -/
inductive Instr where
  | move (target source : Expr)
  | call (collectors : List String) (callee : String) (args : List Expr)
  | jump (label : String)
  | branch (cond : Expr) (label : String)
  | label (name : String)
  | ret
  deriving DecidableEq, Inhabited

namespace Instr

/-- The label that an instruction defines or goes to. -/
def label? : Instr → Option String
  | jump name => some name
  | branch _ name => some name
  | label name => some name
  | _ => none

/-- Program text of a call. -/
def renderCall (collectors : List String) (callee : String) (args : List Expr) : String :=
  let received := if collectors.isEmpty then "" else ", ".intercalate collectors ++ " := "
  received ++ "call " ++ callee ++ "(" ++ ", ".intercalate (args.map Expr.render) ++ ")"

/-- Program text of an instruction, as a line of its own. Labels stand at the margin, all else is
indented. -/
def render : Instr → String
  | move target source => "    " ++ target.render ++ " := " ++ source.render ++ "\n"
  | call collectors callee args => "    " ++ renderCall collectors callee args ++ "\n"
  | jump name => "    jump " ++ name ++ "\n"
  | branch cond name => "    cjump " ++ cond.render ++ " -> " ++ name ++ "\n"
  | label name => name ++ ":\n"
  | ret => "    return\n"

end Instr

/-- A statement with its source position. -/
inductive Stmt where
  | instr (instr : Instr) (span : Span)
  | seq (body : List Stmt) (span : Span)
  deriving Inhabited

namespace Stmt

/-- The source position of a statement. -/
def span : Stmt → Span
  | instr _ span => span
  | seq _ span => span

mutual

/-- The instructions of a statement in the order in which they stand. -/
def code : Stmt → List Instr
  | instr i _ => [i]
  | seq body _ => codeList body

/-- The instructions of several statements. -/
def codeList : List Stmt → List Instr
  | [] => []
  | stmt :: rest => stmt.code ++ codeList rest

end

/-- The labels that a statement defines or goes to, in order and with repetitions. -/
def labels (stmt : Stmt) : List String :=
  stmt.code.filterMap Instr.label?

/-- Program text of a statement: one line per instruction. -/
def render (stmt : Stmt) : String :=
  String.join (stmt.code.map Instr.render)

/-- The statements of a function body: those of a sequence, or the single statement itself. -/
def topLevel : Stmt → List Stmt
  | seq body _ => body
  | stmt => [stmt]

end Stmt

end Flowgraph

import Flowgraph.Dataflow.Backward
import Flowgraph.Dataflow.Forward
import Flowgraph.Node.Effects

/-!
# Some dataflow analyses

What may hold is a set, met by union, with the empty set on top. What must hold is a set or nothing,
which stands for the set of everything and is on top; two sets meet in their intersection.

Each analysis says which transfer functions it defines itself, and `log` lists the calls of these.
-/

namespace Flowgraph

/-- The transfer functions of an analysis. -/
inductive Hook where
  | statement | branch | start | ret | spin
  deriving DecidableEq

namespace Hook

/-- The name of a transfer function in a log. -/
def name : Hook → String
  | statement => "statement"
  | branch => "branch"
  | start => "start"
  | ret => "ret"
  | spin => "self_loop"

/-- The transfer function that is called on a node outside blocks. -/
def ofKind? : Kind → Option Hook
  | .start => some start
  | .ret => some ret
  | .assign | .store | .call => some statement
  | .branch => some branch
  | .spin => some spin
  | _ => none

/-- The line that a call adds to a log. -/
def line (hook : Hook) (node : Node) : String :=
  hook.name ++ ": " ++ node.render

/-- The lines that processing a node adds to the log of an analysis that defines some of the
functions. The children of a block are listed in the order given by `arrange`. -/
def lines (defined : List Hook) (arrange : List Node → List Node) (node : Node) : List String :=
  match node with
  | .block children _ => (arrange children).map (line statement)
  | _ =>
    match ofKind? node.kind with
    | none => []
    | some hook => if defined.contains hook then [hook.line node] else []

end Hook

/-- More rounds than the analyses below take on any graph that can be held in memory. -/
def roundLimit : Nat := 1000000000000

/-- What must hold: a set, or nothing for everything. -/
abbrev MustSet := Option NameSet

namespace MustSet

/-- The intersection of two facts. -/
def meet : MustSet → MustSet → MustSet
  | none, fact => fact
  | fact, none => fact
  | some a, some b => some (a ∩ b)

end MustSet

namespace ForwardAnalysis

/-- A forward analysis with the transfer functions that it defines. -/
structure Client (φ : Type) where
  analysis : ForwardAnalysis φ
  defined : List Hook

namespace Client

variable {φ : Type}

/-- The log of a run over a flow graph in which the nodes were processed in the given order. -/
def log (client : Client φ) (cfg : FlowGraph) (visits : List NodeId) : List String :=
  (visits.filterMap cfg.node?).flatMap (Hook.lines client.defined id)

/-- The variables that some way from the start may have defined. -/
def mayDefine : Client NameSet :=
  { analysis :=
      { top := ∅
        meet := (· ∪ ·)
        statement := fun node fact => fact ∪ node.defs }
    defined := [.statement] }

/-- The definition of a variable by a node. -/
def definition (var : String) (node : Node) : String :=
  var ++ "@" ++ node.render

/-- Whether a fact is a definition of a variable. -/
def isDefinitionOf (var fact : String) : Bool :=
  (var ++ "@").toList.isPrefixOf fact.toList

/-- The definitions that may reach a node. The start adds a fact of its own, and so does a spin. -/
def reaching : Client NameSet :=
  { analysis :=
      { top := ∅
        meet := (· ∪ ·)
        statement := fun node fact =>
          let killed := node.kills.toList
          (fact.filter fun item => !killed.any (isDefinitionOf · item)) ∪
            .ofList (node.defs.toList.map (definition · node))
        start := fun _ fact => fact.insert "entry"
        spin := fun _ fact => fact.insert "spin" }
    defined := [.statement, .start, .spin] }

/-- The variables that every way from the start has defined. -/
def assigned : Client MustSet :=
  { analysis :=
      { top := none
        meet := MustSet.meet
        statement := fun node fact => fact.map (· ∪ node.defs)
        start := fun _ _ => some ∅ }
    defined := [.statement, .start] }

/-- The conditions whose outcome is known, marked if the outcome was false. -/
def known : Client MustSet :=
  { analysis :=
      { top := none
        meet := MustSet.meet
        statement := fun _ fact => fact
        branch := fun node fact =>
          (fact.map (·.insert node.render), fact.map (·.insert ("!" ++ node.render)))
        start := fun _ _ => some ∅ }
    defined := [.statement, .branch, .start] }

/-- The copies that agree in two facts. -/
def meetCopies : Option (NameMap String) → Option (NameMap String) → Option (NameMap String)
  | none, fact => fact
  | fact, none => fact
  | some a, some b => some (a.filter fun target source => b[target]? == some source)

/-- The copies that hold on every way from the start. -/
def copies : Client (Option (NameMap String)) :=
  { analysis :=
      { top := none
        meet := meetCopies
        statement := fun node fact =>
          fact.map fun held => Node.addCopies (Node.surviving node.kills held) node.gens
        start := fun _ _ => some ∅ }
    defined := [.statement, .start] }

end Client

end ForwardAnalysis

namespace BackwardAnalysis

/-- A backward analysis with the transfer functions that it defines. If it leaves branches to
`statement`, their calls are logged as such. -/
structure Client (φ : Type) where
  analysis : BackwardAnalysis φ
  defined : List Hook

namespace Client

variable {φ : Type}

/-- The lines that processing a node adds to the log. -/
def lines (client : Client φ) (node : Node) : List String :=
  if node.kind = .branch && !client.defined.contains .branch then
    [Hook.line .statement node]
  else
    Hook.lines client.defined List.reverse node

/-- The log of a run over a flow graph in which the nodes were processed in the given order. -/
def log (client : Client φ) (cfg : FlowGraph) (visits : List NodeId) : List String :=
  (visits.filterMap cfg.node?).flatMap client.lines

/-- The temporaries whose value may still be used. -/
def liveness : Client NameSet :=
  { analysis :=
      { top := ∅
        meet := (· ∪ ·)
        statement := fun node fact => (fact \ node.defs) ∪ node.uses }
    defined := [.statement] }

/-- The conditions and the ends that control may still come to. -/
def exits : Client NameSet :=
  { analysis :=
      { top := ∅
        meet := (· ∪ ·)
        statement := fun _ fact => fact
        branch := fun node fact => fact.insert node.render
        ret := fun node fact => fact.insert ("return@" ++ node.span.render)
        spin := fun node fact => fact.insert ("spin@" ++ node.span.render) }
    defined := [.statement, .branch, .ret, .spin] }

end Client

end BackwardAnalysis

end Flowgraph

import Flowgraph.Flow.Breach

/-!
# What both directions of dataflow analysis share

A block stands for its children, which have to be single statements. Facts that come to a node from
several sides are met from left to right.
-/

namespace Flowgraph

namespace Kind

/-- Whether a node of this kind acts on the program's state by a single instruction. -/
def isStatement : Kind → Bool
  | assign | store | call => true
  | _ => false

end Kind

/-- The first of several nodes that is no statement breaks the contract of the block they are in. -/
def Node.checkStatements (id : NodeId) (children : List Node) : Except Breach Unit :=
  match children.find? fun child => !child.kind.isStatement with
  | some child => .error (.blockChild id child.kind)
  | none => .ok ()

/-- The meet of a list of facts from left to right, and `top` for an empty list. -/
def meetAll {φ : Type} (top : φ) (meet : φ → φ → φ) : List φ → φ
  | [] => top
  | fact :: rest => rest.foldl meet fact

end Flowgraph

import Flowgraph.Names

/-!
# Phi blocks

A phi block assigns to each of its targets the argument in the slot of the edge by which it was
entered. All targets have as many arguments as the block has slots.
-/

namespace Flowgraph

/-- A phi block: the number of its slots, and the arguments of each target. -/
structure Phi where
  arity : Nat
  mappings : NameMap (List String) := ∅

namespace Phi

/-- The phi block that assigns each variable to itself. -/
def ofVars (arity : Nat) (vars : List String) : Phi :=
  ⟨arity, vars.foldl (fun mappings var => mappings.insert var (List.replicate arity var)) ∅⟩

/-- The targets by increasing name. -/
def targets (phi : Phi) : List String :=
  phi.mappings.toList.map (·.1)

/-- The arguments of a target. -/
def args? (phi : Phi) (target : String) : Option (List String) :=
  phi.mappings[target]?

/-- The number of targets. -/
def size (phi : Phi) : Nat :=
  phi.mappings.size

/-- Give a target another name. The arguments of a target that had this name are lost. -/
def renameTarget (phi : Phi) (old new : String) : Phi :=
  match phi.mappings[old]? with
  | none => phi
  | some args => { phi with mappings := (phi.mappings.erase old).insert new args }

/-- Change the argument in one slot of every target. -/
def fillSlot (phi : Phi) (slot : Nat) (change : String → String) : Phi :=
  { phi with mappings := phi.mappings.map fun _ args => args.modify slot change }

/-- Text of a phi block: one assignment for each target. -/
def render (phi : Phi) : String :=
  "; ".intercalate (phi.mappings.toList.map fun entry =>
    entry.1 ++ " := phi(" ++ ", ".intercalate entry.2 ++ ")")

end Phi

end Flowgraph

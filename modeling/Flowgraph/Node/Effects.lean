import Flowgraph.Code.Slot
import Flowgraph.Node.Basic

/-!
# What nodes read and write

Four descriptions of a node, read off its text:

* `kills`: the temporaries that it writes,
* `defs`: those of them that count as variables, without a result slot that an assignment writes,
* `uses`: the temporaries whose value at entry it reads, without an argument slot that an assignment
  only copies,
* `gens`: pairs of temporaries that are equal after it, because it copies one to the other.

A block does not use what an earlier child defines, and a pair holds at its end only if no later
child writes one of its sides.
-/

namespace Flowgraph.Node

mutual

/-- The variables that a node defines. -/
def defs : Node → NameSet
  | assign target _ _ => if Slot.isResult target then ∅ else {target}
  | call collectors _ _ _ => .ofList collectors
  | block children _ => defsList children
  | phi mappings _ => .ofList mappings.targets
  | _ => ∅

/-- The variables that one of several nodes defines. -/
def defsList : List Node → NameSet
  | [] => ∅
  | node :: rest => node.defs ∪ defsList rest

end

mutual

/-- The temporaries that a node writes. -/
def kills : Node → NameSet
  | assign target _ _ => {target}
  | call collectors _ _ _ => .ofList collectors
  | block children _ => killsList children
  | phi mappings _ => .ofList mappings.targets
  | _ => ∅

/-- The temporaries that one of several nodes writes. -/
def killsList : List Node → NameSet
  | [] => ∅
  | node :: rest => node.kills ∪ killsList rest

end

/-- The temporaries that an assigned value counts as using. -/
def valueUses (value : Expr) : NameSet :=
  match value.asTemp? with
  | some name => if Slot.isArgument name then ∅ else value.freeVars
  | none => value.freeVars

/-- An assigned value reads what it counts as using, and argument slots. -/
theorem mem_valueUses {value : Expr} {name : String} (hname : name ∈ value.freeVars) :
    name ∈ valueUses value ∨ Slot.isArgument name := by
  unfold valueUses
  split
  · next source hsource =>
    obtain rfl : value = .temp source := by
      cases value <;> simp_all [Expr.asTemp?]
    obtain rfl : source = name := by simpa [Expr.freeVars] using hname
    split
    · next hslot => exact .inr hslot
    · exact .inl hname
  · exact .inl hname

mutual

/-- The temporaries whose value at entry a node uses. -/
def uses : Node → NameSet
  | assign _ value _ => valueUses value
  | store address value _ => address.freeVars ∪ value.freeVars
  | call _ _ args _ => NameSet.unions (args.map Expr.freeVars)
  | branch cond _ => cond.freeVars
  | block children _ => usesList children
  | phi ⟨_, mappings⟩ _ => .ofList (mappings.toList.flatMap (·.2))
  | _ => ∅

/-- The temporaries whose value at entry several nodes in a row use. -/
def usesList : List Node → NameSet
  | [] => ∅
  | node :: rest => (usesList rest \ node.defs) ∪ node.uses

end

/-- The copies that survive when some temporaries are written. -/
def surviving (killed : NameSet) (copies : NameMap String) : NameMap String :=
  copies.filter fun target source => !killed.contains target && !killed.contains source

/-- Add copies to others, which they replace at the same target. -/
def addCopies (copies new : NameMap String) : NameMap String :=
  copies.insertMany new.toList

/-- The copy that an assignment makes: from a temporary that is no argument slot to another. -/
def copyOf (target : String) (value : Expr) : NameMap String :=
  match value.asTemp? with
  | some source =>
    if !Slot.isArgument source && source != target then
      (∅ : NameMap String).insert target source
    else
      ∅
  | none => ∅

mutual

/-- The copies that hold after a node, by target. -/
def gens : Node → NameMap String
  | assign target value _ => copyOf target value
  | block children _ => gensList ∅ children
  | _ => ∅

/-- The copies that hold after several nodes in a row if some hold before. -/
def gensList (copies : NameMap String) : List Node → NameMap String
  | [] => copies
  | node :: rest => gensList (addCopies (surviving node.kills copies) node.gens) rest

end

end Flowgraph.Node

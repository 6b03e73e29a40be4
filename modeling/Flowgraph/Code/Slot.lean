/-!
# Calling-convention slots

A caller leaves arguments in the argument slots of the callee's frame and takes results from its
result slots. Any name with the reserved beginning counts as a slot, whatever follows.
-/

namespace Flowgraph.Slot

/-- The beginning of the names of argument slots. -/
def argumentStem : String := "_ARG"

/-- The beginning of the names of result slots. -/
def resultStem : String := "_RET"

/-- The slot of an argument, counted from zero. -/
def argument (index : Nat) : String :=
  argumentStem ++ toString index

/-- The slot of a result, counted from zero. -/
def result (index : Nat) : String :=
  resultStem ++ toString index

/-- Whether a name begins like an argument slot. -/
def isArgument (name : String) : Bool :=
  argumentStem.toList.isPrefixOf name.toList

/-- Whether a name begins like a result slot. -/
def isResult (name : String) : Bool :=
  resultStem.toList.isPrefixOf name.toList

end Flowgraph.Slot

import Flowgraph.Code.Stmt

/-!
# Functions and compilation units

A unit holds functions under keys, by increasing key. The key is the function's name unless it is
given otherwise.
-/

namespace Flowgraph

/-- A function: its name and its body. -/
structure Function where
  name : String
  body : Stmt
  deriving Inhabited

namespace Function

/-- Program text of a function. -/
def render (function : Function) : String :=
  "func " ++ function.name ++ ":\n" ++ function.body.render

end Function

/-- A compilation unit: functions by key. -/
structure CodeUnit where
  name : String
  functions : NameMap Function := ∅
  deriving Inhabited

namespace CodeUnit

/-- Add a function under a key, in place of one that was there. -/
def insert (unit : CodeUnit) (key : String) (function : Function) : CodeUnit :=
  { unit with functions := unit.functions.insert key function }

/-- Add a function under its own name. -/
def add (unit : CodeUnit) (function : Function) : CodeUnit :=
  unit.insert function.name function

/-- The function under a key. -/
def function? (unit : CodeUnit) (key : String) : Option Function :=
  unit.functions[key]?

/-- The functions of a unit by increasing key. -/
def functionList (unit : CodeUnit) : List Function :=
  unit.functions.toList.map (·.2)

/-- Exactly the functions under some key are listed. -/
theorem mem_functionList {unit : CodeUnit} {function : Function} :
    function ∈ unit.functionList ↔ ∃ key : String, unit.functions[key]? = some function := by
  simp [functionList, Std.ExtTreeMap.mem_toList_iff_getElem?_eq_some]

/-- Program text of a unit. -/
def render (unit : CodeUnit) : String :=
  "unit " ++ unit.name ++ "\n" ++
    String.join (unit.functionList.map fun function => "\n" ++ function.render)

end CodeUnit

end Flowgraph

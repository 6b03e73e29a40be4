import Flowgraph.Code.Memory
import Flowgraph.Code.Unit

/-!
# The reference machine

A state is the running function, the functions that wait for it, and the world they share: the heap
and the words printed. `step` executes one instruction, labels included, for one unit of fuel.
Reaching the end of the code costs nothing. Heap, output and fuel carry over from one `Machine.call`
to the next, also after a failed one.
-/

namespace Flowgraph

/-- The reasons for which a call has no result. -/
inductive EvalError where
  | unknownFunction (name : String)
  | undefinedLabel (function label : String)
  | divisionByZero (function : String)
  | missingReturn (function : String) (index : Nat)
  | invalidMoveTarget (target : Expr)
  | symbolAsValue (name : String)
  | outOfFuel
  deriving DecidableEq

namespace EvalError

/-- The text that tells a reader what went wrong. -/
def message : EvalError → String
  | unknownFunction name => "call to unknown function `" ++ name ++ "`"
  | undefinedLabel function label =>
    "jump to undefined label `" ++ label ++ "` in `" ++ function ++ "`"
  | divisionByZero function => "division by zero in `" ++ function ++ "`"
  | missingReturn function index =>
    "`" ++ function ++ "` returned no value for collector " ++ toString index
  | invalidMoveTarget target => "invalid move target `" ++ target.render ++ "`"
  | symbolAsValue name => "symbolic name `" ++ name ++ "` used as a value"
  | outOfFuel => "evaluation ran out of fuel"

/-- The failure of an expression inside a function. -/
def ofFailure (function : String) : Expr.Failure → EvalError
  | .divisionByZero => divisionByZero function
  | .symbolAsValue name => symbolAsValue name

end EvalError

/-- Code ready to run: the instructions of a body, and the position of each label. -/
structure Code where
  instrs : Array Instr
  targets : NameMap Nat

namespace Code

/-- Record the positions of the labels in a list of instructions that starts at `index`. Of two
definitions of a label the later one counts. -/
def labelPositions : Nat → List Instr → NameMap Nat → NameMap Nat
  | _, [], targets => targets
  | index, .label name :: rest, targets =>
    labelPositions (index + 1) rest (targets.insert name index)
  | index, _ :: rest, targets => labelPositions (index + 1) rest targets

/-- Prepare a body for running. -/
def ofBody (body : Stmt) : Code :=
  ⟨body.code.toArray, labelPositions 0 body.code ∅⟩

end Code

/-- The code of all functions by name. -/
abbrev CodeTable := NameMap Code

/-- The code of a unit. Of two functions with one name that with the larger key counts. -/
def CodeUnit.codeTable (unit : CodeUnit) : CodeTable :=
  unit.functionList.foldl (fun table function =>
    table.insert function.name (Code.ofBody function.body)) ∅

/-- What running functions share: the heap and the printed words. -/
structure World where
  heap : Heap := {}
  output : Array Word := #[]

/-- A function in the middle of its run: `pc` is the position of its next instruction. -/
structure Activation where
  function : String
  code : Code
  pc : Nat
  frame : Frame

/-- A function that waits for a call to return, with the temporaries that receive the results. -/
structure Caller where
  activation : Activation
  collectors : List String

/-- A state of the machine, with the innermost caller first. -/
structure State where
  active : Activation
  callers : List Caller
  world : World

/-- What one instruction leads to. -/
inductive Progress where
  | running (state : State)
  | finished (results : List Word) (world : World)
  | failed (error : EvalError) (world : World)

/-- Hand results to collectors from left to right. A surplus of results is dropped; the first
collector without one is an error. -/
def Frame.collect (callee : String) : Nat → List String → List Word → Frame →
    Except EvalError Frame
  | _, [], _, frame => .ok frame
  | index, _ :: _, [], _ => .error (.missingReturn callee index)
  | index, name :: names, value :: values, frame =>
    Frame.collect callee (index + 1) names values (frame.write name value)

namespace Machine

/-- The name of the built-in function that prints its arguments. -/
def printName : String := "print"

/-- Return results to the waiting functions. A caller whose code ends with the call returns in its
turn. -/
def deliver (callee : String) (results : List Word) (world : World) : List Caller → Progress
  | [] => .finished results world
  | caller :: rest =>
    match caller.activation.frame.collect callee 0 caller.collectors results with
    | .error error => .failed error world
    | .ok frame =>
      if caller.activation.pc < caller.activation.code.instrs.size then
        .running ⟨{ caller.activation with frame }, rest, world⟩
      else
        deliver caller.activation.function frame.results world rest

/-- Go on with a function, which returns if it has no instruction left. -/
def proceed (active : Activation) (callers : List Caller) (world : World) : Progress :=
  if active.pc < active.code.instrs.size then
    .running ⟨active, callers, world⟩
  else
    deliver active.function active.frame.results world callers

/-- Call a function. Printing comes first, so that no function can take its name. -/
def enter (table : CodeTable) (name : String) (args : List Word) (callers : List Caller)
    (world : World) : Progress :=
  if name = printName then
    deliver name [] { world with output := world.output ++ args.toArray } callers
  else
    match table[name]? with
    | none => .failed (.unknownFunction name) world
    | some code => proceed ⟨name, code, 0, Frame.ofArguments args⟩ callers world

/-- Go on at a label of the running function. -/
def jumpTo (state : State) (active : Activation) (label : String) : Progress :=
  match active.code.targets[label]? with
  | none => .failed (.undefinedLabel active.function label) state.world
  | some pc => proceed { active with pc } state.callers state.world

/-- Execute one instruction of the running function, which already points behind it. -/
def execute (table : CodeTable) (state : State) (active : Activation) : Instr → Progress
  | .move target source =>
    match source.eval active.frame.read state.world.heap.read with
    | .error failure => .failed (.ofFailure active.function failure) state.world
    | .ok value =>
      match target with
      | .temp name =>
        proceed { active with frame := active.frame.write name value } state.callers state.world
      | .mem address =>
        match address.eval active.frame.read state.world.heap.read with
        | .error failure => .failed (.ofFailure active.function failure) state.world
        | .ok place =>
          proceed active state.callers
            { state.world with heap := state.world.heap.write place value }
      | other => .failed (.invalidMoveTarget other) state.world
  | .call collectors callee args =>
    match Expr.evalAll active.frame.read state.world.heap.read args with
    | .error failure => .failed (.ofFailure active.function failure) state.world
    | .ok values => enter table callee values (⟨active, collectors⟩ :: state.callers) state.world
  | .jump label => jumpTo state active label
  | .branch cond label =>
    match cond.eval active.frame.read state.world.heap.read with
    | .error failure => .failed (.ofFailure active.function failure) state.world
    | .ok value =>
      if value = 0 then proceed active state.callers state.world else jumpTo state active label
  | .label _ => proceed active state.callers state.world
  | .ret => deliver active.function active.frame.results state.world state.callers

/-- Execute the next instruction of a state. -/
def step (table : CodeTable) (state : State) : Progress :=
  match state.active.code.instrs[state.active.pc]? with
  | none => deliver state.active.function state.active.frame.results state.world state.callers
  | some instr =>
    execute table state { state.active with pc := state.active.pc + 1 } instr

/-- Run a state to its end with a supply of fuel. The answer holds the outcome, the final world and
the fuel that is left. -/
def run (table : CodeTable) : Nat → State → Except EvalError (List Word) × World × Nat
  | 0, state => (.error .outOfFuel, state.world, 0)
  | fuel + 1, state =>
    match step table state with
    | .running next => run table fuel next
    | .finished results world => (.ok results, world, fuel)
    | .failed error world => (.error error, world, fuel)

end Machine

/-- The machine between two calls. -/
structure Machine where
  table : CodeTable
  world : World := {}
  fuel : Nat := 1000000

namespace Machine

/-- The machine for the functions of a unit. -/
def ofUnit (unit : CodeUnit) : Machine :=
  { table := unit.codeTable }

/-- Call a function with arguments. -/
def call (machine : Machine) (name : String) (args : List Word) :
    Except EvalError (List Word) × Machine :=
  match enter machine.table name args [] machine.world with
  | .finished results world => (.ok results, { machine with world })
  | .failed error world => (.error error, { machine with world })
  | .running state =>
    let (outcome, world, fuel) := run machine.table machine.fuel state
    (outcome, { machine with world, fuel })

end Machine

end Flowgraph

import Flowgraph.Proofs.Semantics.Observation

/-!
# Fuel

A run that ends is not changed by more fuel, which is then left over (`Machine.resume_add`), and a
run that is stopped has printed the beginning of what it prints with more
(`Machine.extends_resume_add`). A call on top of waiting functions is the call on its own, followed
by the return to the function that waits (`Machine.resume_enter`).
-/

namespace Flowgraph

/-- The world in which a run stands. -/
def Progress.world : Progress → World
  | .running state => state.world
  | .finished _ world => world
  | .failed _ world => world

/-- One world has printed what another has, and perhaps more. -/
def World.Extends (after before : World) : Prop :=
  before.output.toList <+: after.output.toList

/-- No output is written. -/
theorem World.Extends.refl (world : World) : world.Extends world :=
  List.prefix_refl _

/-- The output stays the same. -/
theorem World.Extends.of_output_eq {after before : World} (h : after.output = before.output) :
    after.Extends before :=
  ⟨[], by rw [List.append_nil, h]⟩

/-- Outputs grow in turn. -/
theorem World.Extends.trans {first second third : World} (h : third.Extends second)
    (h' : second.Extends first) : third.Extends first :=
  List.IsPrefix.trans h' h

/-- Expressions do not run out of fuel. -/
theorem EvalError.ofFailure_ne_outOfFuel (function : String) (failure : Expr.Failure) :
    ofFailure function failure ≠ .outOfFuel := by
  cases failure <;> simp [ofFailure]

variable {name : String} {frame : Frame} {world : World}

/-! ### What code does by itself -/

/-- An action that prints nothing and does not run out of fuel: only calls print, and only the
machine runs out. -/
def Action.Local {Control : Type} (world : World) : Action Control → Prop
  | .go _ _ world' => world'.output = world.output
  | .fail error => error ≠ .outOfFuel
  | .call _ _ _ _ | .done _ => True

section Local

variable {Control : Type}

/-- Choices stay local. -/
theorem Action.local_choose {cond : Expr} {onTrue onFalse : Action Control}
    (htrue : onTrue.Local world)
    (hfalse : onFalse.Local world) : (Action.choose name frame world cond onTrue onFalse).Local
      world := by
  rw [choose]
  cases cond.eval frame.read world.heap.read with
  | error failure => exact EvalError.ofFailure_ne_outOfFuel name failure
  | ok value =>
    dsimp only
    split
    · exact hfalse
    · exact htrue

/-- Effects stay local. -/
theorem Instr.local_effect (instr : Instr) (resume : Control) :
    ((instr.effect name frame world).action resume).Local world := by
  cases instr with
  | move target source =>
    rw [effect]
    cases source.eval frame.read world.heap.read with
    | error failure => exact EvalError.ofFailure_ne_outOfFuel name failure
    | ok value =>
      cases target with
      | temp temp => rfl
      | mem address =>
        dsimp only
        cases address.eval frame.read world.heap.read with
        | error failure => exact EvalError.ofFailure_ne_outOfFuel name failure
        | ok place => rfl
      | const | binary | symbol => exact EvalError.noConfusion
  | call collectors callee args =>
    rw [effect]
    cases Expr.evalAll frame.read world.heap.read args with
    | error failure => exact EvalError.ofFailure_ne_outOfFuel name failure
    | ok values => trivial
  | jump | branch | label | ret => rfl

/-- Jumps stay local. -/
theorem Code.local_goto (code : Code) (label : String) :
    (code.goto name label frame world).Local world := by
  rw [goto]
  cases code.targets[label]? with
  | none => exact EvalError.noConfusion
  | some pc => rfl

/-- Every step stays local. -/
theorem Code.local_next (code : Code) (pc : Nat) : (code.next name pc frame world).Local world := by
  rw [next]
  cases code.instrs[pc]? with
  | none => trivial
  | some instr =>
    cases instr with
    | ret => trivial
    | label => rfl
    | jump label => exact local_goto code label
    | branch cond label => exact Action.local_choose (local_goto code label) rfl
    | move | call => exact Instr.local_effect _ (pc + 1)

end Local

namespace Machine

variable {table : CodeTable} {progress : Progress}

/-- Run to the end with a supply of fuel, from any progress on. -/
def resume (table : CodeTable) (fuel : Nat) : Progress → Result × World × Nat
  | .running state => run table fuel state
  | .finished results world => (.ok results, world, fuel)
  | .failed error world => (.error error, world, fuel)

/-- A unit of fuel pays for one step. -/
theorem resume_succ (fuel : Nat) (state : State) :
    resume table (fuel + 1) (.running state) = resume table fuel (step table state) := by
  rw [resume, run]
  cases step table state <;> rfl

/-- A call enters the function and runs to the end. -/
theorem call_eq_resume (machine : Machine) (name : String) (args : List Word) :
    machine.call name args =
      ((resume machine.table machine.fuel (enter machine.table name args [] machine.world)).1,
        { machine with
          world := (resume machine.table machine.fuel
            (enter machine.table name args [] machine.world)).2.1
          fuel := (resume machine.table machine.fuel
            (enter machine.table name args [] machine.world)).2.2 }) := by
  rw [call]
  cases enter machine.table name args [] machine.world <;> rfl

/-! ### More fuel -/

/-- A run that ends keeps the fuel that it does not need. -/
theorem resume_add {fuel : Nat} (h : (resume table fuel progress).1 ≠ .error .outOfFuel)
    (more : Nat) : resume table (fuel + more) progress =
      ((resume table fuel progress).1, (resume table fuel progress).2.1,
        (resume table fuel progress).2.2 + more) := by
  induction fuel generalizing progress with
  | zero =>
    cases progress with
    | running state => exact absurd rfl h
    | finished results world => rfl
    | failed error world => rfl
  | succ fuel ih =>
    cases progress with
    | running state =>
      rw [resume_succ] at h ⊢
      rw [Nat.add_right_comm, resume_succ]
      exact ih h
    | finished results world => rfl
    | failed error world => rfl

/-- A return does not touch the world. -/
theorem world_deliver (callee : String) (results : List Word) (world : World)
    (callers : List Caller) : (deliver callee results world callers).world = world := by
  induction callers generalizing callee results with
  | nil => rfl
  | cons caller rest ih =>
    rw [deliver]
    cases caller.activation.frame.collect callee 0 caller.collectors results with
    | error error => rfl
    | ok frame =>
      dsimp only
      split
      · rfl
      · exact ih _ _

/-- Going on keeps the world. -/
theorem world_proceed (active : Activation) (callers : List Caller) (world : World) :
    (proceed active callers world).world = world := by
  rw [proceed]
  split
  · rfl
  · exact world_deliver _ _ _ _

/-- A call prints its arguments or nothing. -/
theorem extends_enter (name : String) (args : List Word) (callers : List Caller) (world : World) :
    (enter table name args callers world).world.Extends world := by
  rw [enter]
  split
  · rw [world_deliver]
    exact ⟨args, by simp⟩
  · cases table[name]? with
    | none => exact .refl world
    | some code =>
      show (proceed _ _ _).world.Extends world
      rw [world_proceed]
      exact .refl world

/-- A step takes back nothing that was printed. -/
theorem extends_step (state : State) : (step table state).world.Extends state.world := by
  obtain ⟨⟨name, code, pc, frame⟩, callers, world⟩ := state
  rw [step_eq]
  cases hnext : code.next name pc frame world with
  | go pc' frame' world' =>
    have hlocal : (Action.go pc' frame' world').Local world := hnext ▸ Code.local_next code pc
    show (proceed _ _ _).world.Extends world
    rw [world_proceed]
    exact .of_output_eq hlocal
  | call callee args collectors resume => exact extends_enter _ _ _ _
  | done results =>
    show (deliver _ _ _ _).world.Extends world
    rw [world_deliver]
    exact .refl world
  | fail error => exact .refl world

/-- A run takes back nothing that was printed. -/
theorem extends_resume (fuel : Nat) (progress : Progress) :
    (resume table fuel progress).2.1.Extends progress.world := by
  induction fuel generalizing progress with
  | zero => cases progress <;> exact .refl _
  | succ fuel ih =>
    cases progress with
    | running state =>
      rw [resume_succ]
      exact (ih (step table state)).trans (extends_step state)
    | finished results world => exact .refl _
    | failed error world => exact .refl _

/-- What is printed with less fuel is printed first with more. -/
theorem extends_resume_add (fuel more : Nat) (progress : Progress) :
    (resume table (fuel + more) progress).2.1.Extends (resume table fuel progress).2.1 := by
  induction fuel generalizing progress with
  | zero =>
    cases progress with
    | running state => exact extends_resume _ _
    | finished results world => exact .refl _
    | failed error world => exact .refl _
  | succ fuel ih =>
    cases progress with
    | running state =>
      rw [Nat.add_right_comm, resume_succ, resume_succ]
      exact ih _
    | finished results world => exact .refl _
    | failed error world => exact .refl _

/-- More fuel only extends a run. A call that ends has the same result and leaves the same world,
with all the fuel that was added, and a call that does not has printed the beginning of what it
prints then. -/
theorem call_more_fuel (machine : Machine) (name : String) (args : List Word) {fuel fuel' : Nat}
    (hfuel : fuel ≤ fuel') :
    let short := { machine with fuel }.call name args
    let long := { machine with fuel := fuel' }.call name args
    (short.1 ≠ .error .outOfFuel →
      long.1 = short.1 ∧ long.2.world.heap = short.2.world.heap ∧
        long.2.world.output = short.2.world.output ∧
        long.2.fuel = short.2.fuel + (fuel' - fuel)) ∧
      short.2.world.output.toList <+: long.2.world.output.toList := by
  obtain ⟨more, rfl⟩ := Nat.exists_eq_add_of_le hfuel
  intro short long
  simp only [short, long, call_eq_resume, Nat.add_sub_cancel_left]
  refine ⟨fun hended => ?_, extends_resume_add fuel more _⟩
  rw [resume_add hended more]
  exact ⟨rfl, rfl, rfl, rfl⟩

/-- Two functions that call each other, print what they are given and store it. -/
def alternating : CodeUnit :=
  let body (other : String) : List Instr :=
    [.call [] printName [.temp "_ARG0"], .move (.mem (.temp "_ARG0")) (.temp "_ARG0"),
      .branch (.temp "_ARG0") "more", .move (.temp "_RET0") (.const 7), .ret, .label "more",
      .call ["_RET0"] other [.binary .sub (.temp "_ARG0") (.const 1)]]
  let function (name other : String) : Function :=
    ⟨name, .seq ((body other).map (.instr · .dummy)) .dummy⟩
  (CodeUnit.add { name := "test" } (function "tick" "tock")).add (function "tock" "tick")

/-- Fifteen statements lead from two to zero; with seven the run stops inside the second call. -/
theorem call_more_fuel_alternating :
    let machine := Machine.ofUnit alternating
    let stopped := { machine with fuel := 7 }.call "tick" [2]
    let short := { machine with fuel := 15 }.call "tick" [2]
    let long := { machine with fuel := 40 }.call "tick" [2]
    (7 ≤ 40 ∧ stopped.1 = .error .outOfFuel ∧
      stopped.2.world.output.toList <+: long.2.world.output.toList) ∧
    15 ≤ 40 ∧ short.1 = .ok [7] ∧ long.1 = .ok [7] ∧
      long.2.world.output = short.2.world.output ∧ long.2.fuel = short.2.fuel + 25 := by
  intro machine stopped short long
  have hstopped : stopped.1 = .error .outOfFuel := by decide +kernel
  have hshort : short.1 = .ok [7] := by decide +kernel
  have hextends := (call_more_fuel machine "tick" [2] (show 7 ≤ 40 by decide)).2
  obtain ⟨hresult, -, houtput, hrest⟩ :=
    (call_more_fuel machine "tick" [2] (show 15 ≤ 40 by decide)).1 (by rw [hshort]; simp)
  exact ⟨⟨by decide, hstopped, hextends⟩, by decide, hshort, hresult.trans hshort, houtput, hrest⟩

/-! ### Function by function -/

/-- After a function, a failure is the end, and results are handed on. -/
def handOn (table : CodeTable) (name : String) (callers : List Caller) :
    Result × World × Nat → Result × World × Nat
  | (.ok results, world, fuel) => resume table fuel (deliver name results world callers)
  | (.error error, world, fuel) => (.error error, world, fuel)

/-- A run on top of waiting functions is the run alone, then the return. -/
theorem resume_stacked {outer : String} {below : List Caller} {progress' : Progress}
    (h : Stacked outer below progress progress') (fuel : Nat) :
    resume table fuel progress' = handOn table outer below (resume table fuel progress) := by
  induction fuel generalizing progress progress' with
  | zero =>
    obtain ⟨rfl, -⟩ := h
    cases progress <;> rfl
  | succ fuel ih =>
    obtain ⟨rfl, houter⟩ := h
    cases progress with
    | running state =>
      rw [resume_succ]
      show resume table (fuel + 1) (.running { state with callers := state.callers ++ below }) = _
      rw [resume_succ]
      exact ih (.step (houter state rfl))
    | finished results world => rfl
    | failed error world => rfl

/-- A call is the same whichever functions wait for it. -/
theorem resume_enter (fuel : Nat) (name : String) (args : List Word) (callers : List Caller)
    (world : World) :
    resume table fuel (enter table name args callers world) =
      handOn table name callers (resume table fuel (enter table name args [] world)) :=
  resume_stacked (stacked_enter [] rfl args world) fuel

section Proceed

variable {code : Code} {pc : Nat} {callers : List Caller} {instr : Instr}

/-- The end of the code is a return, which is free. -/
theorem resume_proceed_none (h : code.instrs[pc]? = none) (fuel : Nat) :
    resume table fuel (proceed ⟨name, code, pc, frame⟩ callers world) =
      resume table fuel (deliver name frame.results world callers) := by
  rw [proceed, if_neg (Nat.not_lt.mpr (Array.getElem?_eq_none_iff.mp h))]

variable (h : code.instrs[pc]? = some instr)
include h

/-- An instruction is left to run. -/
theorem proceed_of_instr :
    proceed ⟨name, code, pc, frame⟩ callers world =
      .running ⟨⟨name, code, pc, frame⟩, callers, world⟩ :=
  if_pos (Array.getElem?_eq_some_iff.mp h).1

/-- No fuel is left. -/
theorem resume_proceed_zero :
    resume table 0 (proceed ⟨name, code, pc, frame⟩ callers world) =
      (.error .outOfFuel, world, 0) := by
  rw [proceed_of_instr h]
  rfl

/-- An instruction costs a unit of fuel, and the run goes on behind it. -/
theorem resume_proceed_succ (fuel : Nat) :
    resume table (fuel + 1) (proceed ⟨name, code, pc, frame⟩ callers world) =
      resume table fuel (follow table name code frame callers world
        (code.next name pc frame world)) := by
  rw [proceed_of_instr h, resume_succ, step_eq]

end Proceed

end Machine

end Flowgraph

import Flowgraph.Proofs.Semantics.Program

/-!
# The machine and evaluation

The machine spends fuel and keeps waiting callers on a stack; `Eval` does neither. `Machine.step_eq`
says once what a step does. An evaluation becomes a run on top of any stack (`Halts.of_eval`), and a
run that halts splits into the evaluation of the running function and the rest
(`eval_of_halts_proceed`). With enough fuel both give the same answers (`Machine.answers_iff`).
-/

namespace Flowgraph

open List

variable {name : String} {pc : Nat} {frame : Frame}

variable {world : World} {calls : List (String × List Word)} {expected : List (Result × World)}

/-! ### Code as a body -/

/-- What an instruction does to the frame and the world, or its call. -/
inductive Effect where
  | proceed (frame : Frame) (world : World)
  | call (callee : String) (args : List Word) (collectors : List String)
  | fail (error : EvalError)

/-- Go on at a point of a body after an effect. -/
def Effect.action {Control : Type} (resume : Control) : Effect → Action Control
  | .proceed frame world => .go resume frame world
  | .call callee args collectors => .call callee args collectors resume
  | .fail error => .fail error

/-- The effect of an instruction. Those that only direct control have none. -/
def Instr.effect (name : String) (frame : Frame) (world : World) : Instr → Effect
  | .move target source =>
    match source.eval frame.read world.heap.read with
    | .error failure => .fail (.ofFailure name failure)
    | .ok value =>
      match target with
      | .temp temp => .proceed (frame.write temp value) world
      | .mem address =>
        match address.eval frame.read world.heap.read with
        | .error failure => .fail (.ofFailure name failure)
        | .ok place => .proceed frame { world with heap := world.heap.write place value }
      | other => .fail (.invalidMoveTarget other)
  | .call collectors callee args =>
    match Expr.evalAll frame.read world.heap.read args with
    | .error failure => .fail (.ofFailure name failure)
    | .ok values => .call callee values collectors
  | _ => .proceed frame world

/-- Whether an instruction acts and then goes on behind itself. -/
def Instr.acts : Instr → Bool
  | .move _ _ => true
  | .call _ _ _ => true
  | _ => false

/-- Take one of two ways, as the value of a condition says. -/
def Action.choose {Control : Type} (name : String) (frame : Frame) (world : World) (cond : Expr)
    (onTrue onFalse : Action Control) : Action Control :=
  match cond.eval frame.read world.heap.read with
  | .error failure => .fail (.ofFailure name failure)
  | .ok value => if value = 0 then onFalse else onTrue

namespace Code

variable {label : String}

/-- Go on at a label. -/
def goto (code : Code) (name label : String) (frame : Frame) (world : World) : Action Nat :=
  match code.targets[label]? with
  | none => .fail (.undefinedLabel name label)
  | some pc => .go pc frame world

/-- What code does next at a position. -/
def next (code : Code) (name : String) (pc : Nat) (frame : Frame) (world : World) : Action Nat :=
  match code.instrs[pc]? with
  | none => .done frame.results
  | some .ret => .done frame.results
  | some (.label _) => .go (pc + 1) frame world
  | some (.jump label) => code.goto name label frame world
  | some (.branch cond label) =>
    .choose name frame world cond (code.goto name label frame world) (.go (pc + 1) frame world)
  | some instr => (instr.effect name frame world).action (pc + 1)

/-- The code of a list of instructions. -/
def ofInstrs (instrs : List Instr) : Code :=
  ⟨instrs.toArray, labelPositions 0 instrs ∅⟩

/-- The code of a body. -/
theorem ofBody_eq (body : Stmt) : ofBody body = ofInstrs body.code := rfl

section Next

variable {instrs : List Instr}

/-- Past the end, the code returns. -/
theorem next_of_length_le (h : instrs.length ≤ pc) :
    (ofInstrs instrs).next name pc frame world = .done frame.results := by
  simp [next, ofInstrs, h]

/-- Returns hand over the results. -/
theorem next_ret (h : instrs[pc]? = some .ret) :
    (ofInstrs instrs).next name pc frame world = .done frame.results := by
  simp [next, ofInstrs, h]

/-- Labels do nothing. -/
theorem next_label (h : instrs[pc]? = some (.label label)) :
    (ofInstrs instrs).next name pc frame world = .go (pc + 1) frame world := by
  simp [next, ofInstrs, h]

/-- Jumps go to their label. -/
theorem next_jump (h : instrs[pc]? = some (.jump label)) :
    (ofInstrs instrs).next name pc frame world =
      (ofInstrs instrs).goto name label frame world := by
  simp [next, ofInstrs, h]

/-- Branches choose. -/
theorem next_branch {cond : Expr} (h : instrs[pc]? = some (.branch cond label)) :
    (ofInstrs instrs).next name pc frame world =
      .choose name frame world cond ((ofInstrs instrs).goto name label frame world)
        (.go (pc + 1) frame world) := by
  simp [next, ofInstrs, h]

/-- Other instructions have their effect. -/
theorem next_of_acts {instr : Instr} (h : instrs[pc]? = some instr) (hacts : instr.acts) :
    (ofInstrs instrs).next name pc frame world =
      (instr.effect name frame world).action (pc + 1) := by
  cases instr <;> simp_all [next, ofInstrs, Instr.acts]

/-- Jumps to a known label. -/
theorem goto_of_target {target : Nat} (h : (labelPositions 0 instrs ∅)[label]? = some target) :
    (ofInstrs instrs).goto name label frame world = .go target frame world := by
  simp [goto, ofInstrs, h]

end Next

/-! ### Positions of labels -/

/-- Other labels do not matter. -/
theorem labelPositions_of_not_mem {instrs : List Instr} (h : .label label ∉ instrs) (index : Nat)
    (targets : NameMap Nat) : (labelPositions index instrs targets)[label]? = targets[label]? := by
  induction instrs generalizing index targets with
  | nil => rfl
  | cons instr rest ih =>
    simp only [mem_cons, not_or] at h
    cases instr with
    | label other =>
      have hne : other ≠ label := fun heq => h.1 (heq ▸ rfl)
      rw [labelPositions, ih h.2, Std.ExtTreeMap.getElem?_insert]
      simp [hne]
    | move | call | jump | branch | ret => exact ih h.2 ..

/-- The last definition of a label gives its position. -/
theorem labelPositions_append {front back : List Instr} (h : .label label ∉ back) (index : Nat)
    (targets : NameMap Nat) :
    (labelPositions index (front ++ .label label :: back) targets)[label]? =
      some (index + front.length) := by
  induction front generalizing index targets with
  | nil =>
    rw [nil_append, labelPositions, labelPositions_of_not_mem h]
    simp
  | cons instr rest ih =>
    have hlength : index + (instr :: rest).length = index + 1 + rest.length := by
      simp only [length_cons]
      omega
    rw [cons_append, hlength]
    cases instr <;> exact ih ..

end Code

/-- The code of a function as a body. -/
def Body.ofCode (name : String) (code : Code) : Body :=
  ⟨Nat, 0, code.next name⟩

/-- The functions of a table as a program. -/
def Program.ofTable (table : CodeTable) : Program := fun name =>
  table[name]?.map (Body.ofCode name)

/-! ### One step of the machine -/

namespace Machine

variable {table : CodeTable} {steps : Nat} {result : Result} {callers : List Caller} {final : World}
  {args : List Word} {state : State} {fuel : Nat} {code : Code} {task : Task}

/-- What the machine makes of the next action. -/
def follow (table : CodeTable) (name : String) (code : Code) (frame : Frame)
    (callers : List Caller) (world : World) : Action Nat → Progress
  | .go pc after world' => proceed ⟨name, code, pc, after⟩ callers world'
  | .call callee args collectors resume =>
    enter table callee args (⟨⟨name, code, resume, frame⟩, collectors⟩ :: callers) world
  | .done results => deliver name results world callers
  | .fail error => .failed error world

/-- Jumps of the machine. -/
theorem jumpTo_eq (state : State) (name : String) (code : Code) (pc : Nat) (frame : Frame)
    (label : String) :
    jumpTo state ⟨name, code, pc, frame⟩ label =
      follow table name code frame state.callers state.world
        (code.goto name label frame state.world) := by
  rw [jumpTo, Code.goto]
  cases code.targets[label]? <;> rfl

/-- A step of the machine follows the next action. -/
theorem step_eq (name : String) (code : Code) (pc : Nat) (frame : Frame) (callers : List Caller)
    (world : World) :
    step table ⟨⟨name, code, pc, frame⟩, callers, world⟩ =
      follow table name code frame callers world (code.next name pc frame world) := by
  unfold step Code.next
  cases hinstr : code.instrs[pc]? with
  | none => rfl
  | some instr =>
    cases instr with
    | ret => rfl
    | label => rfl
    | jump label => exact jumpTo_eq ..
    | branch cond label =>
      simp only [execute, Action.choose]
      cases cond.eval frame.read world.heap.read with
      | error failure => rfl
      | ok value =>
        simp only
        split
        · rfl
        · exact jumpTo_eq ..
    | call collectors callee args =>
      simp only [execute, Instr.effect]
      cases Expr.evalAll frame.read world.heap.read args <;> rfl
    | move target source =>
      simp only [execute, Instr.effect]
      cases source.eval frame.read world.heap.read with
      | error failure => rfl
      | ok value =>
        cases target with
        | mem address =>
          simp only
          cases address.eval frame.read world.heap.read <;> rfl
        | temp | const | binary | symbol => rfl

/-- Returning to a caller is going on, if it can collect the results. -/
theorem deliver_cons (callee : String) (results : List Word) (world : World) (caller : Caller)
    (rest : List Caller) :
    deliver callee results world (caller :: rest) =
      match caller.activation.frame.collect callee 0 caller.collectors results with
      | .error error => .failed error world
      | .ok frame => proceed { caller.activation with frame } rest world := by
  rw [deliver]
  cases caller.activation.frame.collect callee 0 caller.collectors results <;> rfl

/-! ### Runs that halt -/

/-- A run comes to its end in a number of steps. -/
inductive Halts (table : CodeTable) : Progress → Nat → Result → World → Prop where
  | finished {results : List Word} {world : World} :
      Halts table (.finished results world) 0 (.ok results) world
  | failed {error : EvalError} {world : World} :
      Halts table (.failed error world) 0 (.error error) world
  | running {state : State} {steps : Nat} {result : Result} {world : World} :
      Halts table (step table state) steps result world →
      Halts table (.running state) (steps + 1) result world

/-- With fuel to spare, the machine stops with the rest of its fuel. -/
theorem Halts.run_eq (h : Halts table (.running state) steps result world) (more : Nat) :
    run table (steps + more) state = (result, world, more) := by
  generalize hprogress : Progress.running state = progress at h
  induction h generalizing state with
  | finished => cases hprogress
  | failed => cases hprogress
  | @running _ steps _ _ hrest ih =>
    obtain rfl := Progress.running.inj hprogress
    rw [Nat.add_right_comm, run]
    cases hnext : step table state with
    | running next => exact ih hnext.symm
    | finished results world =>
      rw [hnext] at hrest
      cases hrest
      simp
    | failed error world =>
      rw [hnext] at hrest
      cases hrest
      simp

/-- A run that did not stop for want of fuel has come to its end. -/
theorem Halts.of_run {rest : Nat} (h : run table fuel state = (result, world, rest))
    (hfuel : result ≠ .error .outOfFuel) :
    ∃ steps, Halts table (.running state) steps result world := by
  induction fuel generalizing state with
  | zero =>
    simp only [run, Prod.mk.injEq] at h
    exact absurd h.1.symm hfuel
  | succ fuel ih =>
    rw [run] at h
    cases hnext : step table state with
    | running next =>
      rw [hnext] at h
      obtain ⟨steps, hsteps⟩ := ih h
      exact ⟨steps + 1, .running (hnext ▸ hsteps)⟩
    | finished results final =>
      simp only [hnext, Prod.mk.injEq] at h
      obtain ⟨rfl, rfl, -⟩ := h
      exact ⟨1, .running (hnext ▸ .finished)⟩
    | failed error final =>
      simp only [hnext, Prod.mk.injEq] at h
      obtain ⟨rfl, rfl, -⟩ := h
      exact ⟨1, .running (hnext ▸ .failed)⟩

/-- A run halts from a point if it halts after the next action. -/
theorem Halts.proceed
    (h : Halts table (follow table name code frame callers world (code.next name pc frame world))
      steps result final) :
    ∃ steps, Halts table (proceed ⟨name, code, pc, frame⟩ callers world) steps result final := by
  rw [Machine.proceed]
  split
  · exact ⟨_, .running (step_eq name code pc frame callers world ▸ h)⟩
  · next hend =>
    refine ⟨steps, ?_⟩
    simpa [Code.next, Array.getElem?_eq_none (Nat.le_of_not_lt hend), follow] using h

/-- What the result of a function means for runs on top of waiting callers: a failure is the end,
and results are handed on. -/
def Executed (table : CodeTable) (callers : List Caller) (name : String) (start : Progress)
    (result : Result) (final : World) : Prop :=
  match result with
  | .error error => ∃ steps, Halts table start steps (.error error) final
  | .ok results => ∀ steps answer last,
      Halts table (deliver name results final callers) steps answer last →
      ∃ steps, Halts table start steps answer last

/-- What the evaluation of a task means for the machine. -/
def Launched (table : CodeTable) (world : World) (result : Result) (final : World) : Task → Prop
  | .call callee args => ∀ callers,
      Executed table callers callee (enter table callee args callers world) result final
  | .resume body control frame => ∀ name code (pc : Nat), body = Body.ofCode name code →
      HEq control pc → ∀ callers,
      Executed table callers name (Machine.proceed ⟨name, code, pc, frame⟩ callers world)
        result final

/-- The run from a point has the result of the run after the next action. -/
theorem Executed.of_follow {other : String} {action : Action Nat}
    (hnext : code.next name pc frame world = action)
    (h : Executed table callers other (follow table name code frame callers world action) result
      final) :
    Executed table callers other (Machine.proceed ⟨name, code, pc, frame⟩ callers world) result
      final := by
  subst hnext
  cases result with
  | error error =>
    obtain ⟨steps, hsteps⟩ := h
    exact hsteps.proceed
  | ok results =>
    intro steps answer last hdeliver
    obtain ⟨steps', hsteps⟩ := h steps answer last hdeliver
    exact hsteps.proceed

/-- Evaluations are runs of the machine. -/
theorem launched_of_eval (h : Eval (.ofTable table) task world result final) :
    Launched table world result final task := by
  induction h with
  | print =>
    intro callers steps answer last hdeliver
    exact ⟨steps, by simpa [enter] using hdeliver⟩
  | @unknown name _ _ hname hnone =>
    intro callers
    have hlookup : table[name]? = none := by simpa [Program.ofTable] using hnone
    refine ⟨0, ?_⟩
    rw [enter, if_neg hname, hlookup]
    exact .failed
  | @enter name args body world final result hname hbody _ ih =>
    intro callers
    obtain ⟨code, hlookup, rfl⟩ : ∃ code, table[name]? = some code ∧
        Body.ofCode name code = body := by
      simpa [Program.ofTable] using hbody
    have hrun := ih name code 0 rfl HEq.rfl callers
    rwa [enter, if_neg hname, hlookup]
  | go hnext _ ih =>
    rintro name code pc rfl hpc callers
    obtain rfl := eq_of_heq hpc
    exact .of_follow hnext (ih name code _ rfl HEq.rfl callers)
  | done hnext =>
    rintro name code pc rfl hpc callers
    obtain rfl := eq_of_heq hpc
    exact .of_follow hnext fun steps _ _ hdeliver => ⟨steps, hdeliver⟩
  | fail hnext =>
    rintro name code pc rfl hpc callers
    obtain rfl := eq_of_heq hpc
    exact .of_follow hnext ⟨0, .failed⟩
  | @callFailed _ _ resume frame _ _ _ _ collectors _ hnext _ ih =>
    rintro name code pc rfl hpc callers
    obtain rfl := eq_of_heq hpc
    exact .of_follow hnext (ih (⟨⟨name, code, resume, frame⟩, collectors⟩ :: callers))
  | @callShort _ _ resume frame _ _ _ _ _ collectors _ hnext _ hcollect ih =>
    rintro name code pc rfl hpc callers
    obtain rfl := eq_of_heq hpc
    refine .of_follow hnext (ih (⟨⟨name, code, resume, frame⟩, collectors⟩ :: callers) 0 _ _ ?_)
    rw [deliver_cons]
    simp only [hcollect]
    exact .failed
  | @callReturned _ _ resume frame _ _ _ _ _ _ _ collectors result hnext _ hcollect _ ihcall
      ihrest =>
      rintro name code pc rfl hpc callers
      obtain rfl := eq_of_heq hpc
      have hreturn := ihcall (⟨⟨name, code, resume, frame⟩, collectors⟩ :: callers)
      have hrest := ihrest name code resume rfl HEq.rfl callers
      simp only [Executed, deliver_cons, hcollect] at hreturn
      refine .of_follow hnext ?_
      cases result with
      | error error =>
        obtain ⟨steps, hsteps⟩ := hrest
        exact hreturn _ _ _ hsteps
      | ok results =>
        intro steps answer last hdeliver
        obtain ⟨steps', hsteps⟩ := hrest steps answer last hdeliver
        exact hreturn _ _ _ hsteps

/-! ### From runs to evaluations -/

/-- A run that halts evaluates its first function, which fails, or returns to the callers. -/
def Split (table : CodeTable) (task : Task) (world : World) (name : String) (callers : List Caller)
    (steps : Nat) (result : Result) (final : World) : Prop :=
  (∃ error, result = .error error ∧ Eval (.ofTable table) task world (.error error) final) ∨
    ∃ results middle rest, rest ≤ steps ∧
      Eval (.ofTable table) task world (.ok results) middle ∧
      Halts table (deliver name results middle callers) rest result final

/-- Splits are passed on. -/
theorem Split.imp {task' : Task} {world' : World} {steps' : Nat}
    (h : Split table task world name callers steps result final) (hsteps : steps ≤ steps')
    (heval : ∀ {result final}, Eval (.ofTable table) task world result final →
      Eval (.ofTable table) task' world' result final) :
    Split table task' world' name callers steps' result final := by
  rcases h with ⟨error, rfl, hfailed⟩ | ⟨results, middle, rest, hrest, hdone, hhalts⟩
  · exact .inl ⟨error, rfl, heval hfailed⟩
  · exact .inr ⟨results, middle, rest, Nat.le_trans hrest hsteps, heval hdone, hhalts⟩

/-- A call splits at its entry. -/
theorem Split.enter {name : String} {args : List Word} {callers : List Caller}
    {world final : World} {steps : Nat} {result : Result}
    (h : Halts table (Machine.enter table name args callers world) steps result final)
    (hproceed : ∀ code, Halts table
      (Machine.proceed ⟨name, code, 0, Frame.ofArguments args⟩ callers world) steps result final →
      Split table (.resume (.ofCode name code) (0 : Nat) (.ofArguments args)) world name callers
        steps result final) :
    Split table (.call name args) world name callers steps result final := by
  by_cases hname : name = printName
  · subst hname
    rw [Machine.enter, if_pos rfl] at h
    exact .inr ⟨[], _, steps, Nat.le_refl _, .print, h⟩
  rw [Machine.enter, if_neg hname] at h
  cases hcode : table[name]? with
  | none =>
    rw [hcode] at h
    cases h
    exact .inl ⟨_, rfl, .unknown hname (by simp [Program.ofTable, hcode])⟩
  | some code =>
    rw [hcode] at h
    exact (hproceed code h).imp (Nat.le_refl _)
      (.enter hname (by simp [Program.ofTable, hcode]))

/-- A run from a point evaluates the rest of the function. -/
theorem Split.proceed {steps : Nat} : ∀ {name : String} {code : Code} {pc : Nat} {frame : Frame}
    {callers : List Caller} {world final : World} {result : Result},
    Halts table (Machine.proceed ⟨name, code, pc, frame⟩ callers world) steps result final →
    Split table (.resume (.ofCode name code) pc frame) world name callers steps result final := by
  induction steps using Nat.strongRecOn with
  | ind steps ih =>
    intro name code pc frame callers world final result h
    rw [Machine.proceed] at h
    split at h
    · obtain _ | _ | @⟨_, steps, _, _, hstep⟩ := h
      rw [step_eq] at hstep
      cases hnext : code.next name pc frame world with
      | go pc' frame' world' =>
        rw [hnext] at hstep
        exact (ih steps (Nat.lt_succ_self _) hstep).imp (Nat.le_succ _) (.go hnext)
      | done results =>
        rw [hnext] at hstep
        exact .inr ⟨results, world, steps, Nat.le_succ _, .done hnext, hstep⟩
      | fail error =>
        rw [hnext] at hstep
        cases hstep
        exact .inl ⟨error, rfl, .fail hnext⟩
      | call callee args collectors resume =>
        rw [hnext] at hstep
        have hcall := Split.enter hstep fun code' => ih steps (Nat.lt_succ_self _)
        rcases hcall with ⟨error, rfl, hfailed⟩ | ⟨results, middle, rest, hrest, hdone, hhalts⟩
        · exact .inl ⟨error, rfl, .callFailed hnext hfailed⟩
        rw [deliver_cons] at hhalts
        cases hcollect : frame.collect callee 0 collectors results with
        | error error =>
          simp only [hcollect] at hhalts
          cases hhalts
          exact .inl ⟨error, rfl, .callShort hnext hdone hcollect⟩
        | ok frame' =>
          simp only [hcollect] at hhalts
          exact (ih rest (Nat.lt_succ_of_le hrest) hhalts).imp (by omega)
            (.callReturned hnext hdone hcollect)
    · next hend =>
      refine .inr ⟨frame.results, world, steps, Nat.le_refl _, .done ?_, h⟩
      simp [Body.ofCode, Code.next, Array.getElem?_eq_none (Nat.le_of_not_lt hend)]

/-! ### Sequences of calls -/

deriving instance DecidableEq for Except, Heap, World

/-- The answers of a machine to calls in turn, each with the world after it. -/
def answers : Machine → List (String × List Word) → List (Result × World)
  | _, [] => []
  | machine, (name, args) :: rest =>
    ((machine.call name args).1, (machine.call name args).2.world) ::
      (machine.call name args).2.answers rest

/-- A machine that halts gives the result and keeps the rest of its fuel. -/
theorem call_of_halts (h : Halts table (enter table name args [] world) steps result final)
    (more : Nat) :
    (⟨table, world, steps + more⟩ : Machine).call name args = (result, ⟨table, final, more⟩) := by
  rw [call]
  cases hstart : enter table name args [] world with
  | running state =>
    rw [hstart] at h
    simp only [h.run_eq more]
  | finished results final =>
    rw [hstart] at h
    cases h
    simp
  | failed error final =>
    rw [hstart] at h
    cases h
    simp

/-- A call that did not run out of fuel has halted. -/
theorem halts_of_call
    (hfuel : ((⟨table, world, fuel⟩ : Machine).call name args).1 ≠ .error .outOfFuel) :
    ((⟨table, world, fuel⟩ : Machine).call name args).2.table = table ∧
      ∃ steps, Halts table (enter table name args [] world) steps
        ((⟨table, world, fuel⟩ : Machine).call name args).1
        ((⟨table, world, fuel⟩ : Machine).call name args).2.world := by
  revert hfuel
  rw [call]
  cases enter table name args [] world with
  | running state => exact fun hfuel => ⟨rfl, Halts.of_run rfl hfuel⟩
  | finished results final => exact fun _ => ⟨rfl, 0, .finished⟩
  | failed error final => exact fun _ => ⟨rfl, 0, .failed⟩

/-- A call halts exactly with the results of its evaluation. -/
theorem halts_iff_eval :
    (∃ steps, Halts table (enter table name args [] world) steps result final) ↔
      Eval (.ofTable table) (.call name args) world result final := by
  constructor
  · rintro ⟨steps, hsteps⟩
    rcases Split.enter hsteps fun _ => Split.proceed with
      ⟨error, rfl, hfailed⟩ | ⟨results, middle, rest, -, hdone, hhalts⟩
    · exact hfailed
    · cases hhalts
      exact hdone
  · intro heval
    have hlaunched := launched_of_eval heval []
    cases result with
    | error error => exact hlaunched
    | ok results => exact hlaunched 0 _ _ .finished

end Machine

/-- The answers of a program to calls made one after another. -/
inductive Program.Answers (program : Program) :
    World → List (String × List Word) → List (Result × World) → Prop where
  | nil {world : World} : program.Answers world [] []
  | cons {name : String} {args : List Word} {world middle : World} {result : Result}
      {calls : List (String × List Word)} {answers : List (Result × World)} :
      Eval program (.call name args) world result middle →
      program.Answers middle calls answers →
      program.Answers world ((name, args) :: calls) ((result, middle) :: answers)

/-- Refined programs give the answers. -/
theorem Program.Answers.refines {first second : Program} (h : first.Refines second)
    {answers : List (Result × World)} (hanswers : first.Answers world calls answers) :
    second.Answers world calls answers := by
  induction hanswers with
  | nil => exact .nil
  | cons heval _ ih => exact .cons (h _ _ _ _ _ heval) ih

/-- With enough fuel the machine answers calls as evaluation does. -/
theorem Machine.answers_iff {table : CodeTable}
    (hfuel : ∀ answer ∈ expected, answer.1 ≠ .error .outOfFuel) :
    (∃ fuel, (⟨table, world, fuel⟩ : Machine).answers calls = expected) ↔
      (Program.ofTable table).Answers world calls expected := by
  constructor
  · rintro ⟨fuel, rfl⟩
    induction calls generalizing world fuel with
    | nil => exact .nil
    | cons call rest ih =>
      obtain ⟨name, args⟩ := call
      simp only [answers, mem_cons, forall_eq_or_imp] at hfuel ⊢
      obtain ⟨htable, hhalts⟩ := halts_of_call hfuel.1
      refine .cons (halts_iff_eval.mp hhalts) ?_
      rcases hafter : ((⟨table, world, fuel⟩ : Machine).call name args).2 with
        ⟨table', world', fuel'⟩
      rw [hafter] at htable hfuel
      obtain rfl : table' = table := htable
      exact ih fuel' hfuel.2
  · intro hanswers
    induction hanswers with
    | nil => exact ⟨0, rfl⟩
    | @cons name args world middle result calls answers heval _ ih =>
      obtain ⟨steps, hsteps⟩ := halts_iff_eval.mpr heval
      obtain ⟨more, hmore⟩ := ih fun answer hanswer => hfuel answer (mem_cons_of_mem _ hanswer)
      refine ⟨steps + more, ?_⟩
      rw [Machine.answers, call_of_halts hsteps more, hmore]

/-- Programs that refine each other give the same answers. -/
theorem Machine.answers_congr {first second : CodeTable}
    (h : (Program.ofTable first).Refines (Program.ofTable second))
    (h' : (Program.ofTable second).Refines (Program.ofTable first))
    (hfuel : ∀ answer ∈ expected, answer.1 ≠ .error .outOfFuel) :
    (∃ fuel, (⟨first, world, fuel⟩ : Machine).answers calls = expected) ↔
      ∃ fuel, (⟨second, world, fuel⟩ : Machine).answers calls = expected := by
  rw [answers_iff hfuel, answers_iff hfuel]
  exact ⟨.refines h, .refines h'⟩

end Flowgraph

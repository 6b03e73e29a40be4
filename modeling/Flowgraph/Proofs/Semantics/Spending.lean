import Flowgraph.Proofs.Semantics.Fuel

/-!
# What a call executes

`Executes` lists the statements that a call executes, those of the functions that it calls among
them. Its rules know of no fuel, and an execution may be cut off before any statement. Every supply
of fuel allows an execution (`affordable_rest`), and the machine reports each that its fuel allows
(`Executes.answer_eq`). So there is only one, and it is the call (`Machine.call_executes`).
-/

namespace Flowgraph

open List Machine

/-- What is executed: a call, or the rest of a function. -/
inductive Job where
  | call (callee : String) (args : List Word)
  | rest (function : String) (code : Code) (pc : Nat) (frame : Frame)

variable {table : CodeTable} {job : Job} {world final : World} {statements : List Instr}

/-- An execution ends by itself, or is cut off before a statement. -/
inductive Stop where
  | ended (result : Result)
  | cutOff (next : Instr)

/-- What is reported of an execution that stops so. -/
def Stop.result : Stop → Result
  | .ended result => result
  | .cutOff _ => .error .outOfFuel

/-- A job executes statements in turn between two worlds, and stops. -/
inductive Executes (table : CodeTable) : Job → World → List Instr → Stop → World → Prop where
  | print {args : List Word} {world : World} :
      Executes table (.call printName args) world [] (.ended (.ok []))
        { world with output := world.output ++ args.toArray }
  | unknown {name : String} {args : List Word} {world : World} :
      name ≠ printName → table[name]? = none →
      Executes table (.call name args) world [] (.ended (.error (.unknownFunction name))) world
  | enter {name : String} {args : List Word} {code : Code} {world final : World}
      {statements : List Instr} {stop : Stop} :
      name ≠ printName → table[name]? = some code →
      Executes table (.rest name code 0 (.ofArguments args)) world statements stop final →
      Executes table (.call name args) world statements stop final
  | offEnd {name : String} {code : Code} {pc : Nat} {frame : Frame} {world : World} :
      code.instrs[pc]? = none →
      Executes table (.rest name code pc frame) world [] (.ended (.ok frame.results)) world
  | cut {name : String} {code : Code} {pc : Nat} {frame : Frame} {world : World} {instr : Instr} :
      code.instrs[pc]? = some instr →
      Executes table (.rest name code pc frame) world [] (.cutOff instr) world
  | go {name : String} {code : Code} {pc pc' : Nat} {frame frame' : Frame}
      {world world' final : World} {instr : Instr} {statements : List Instr} {stop : Stop} :
      code.instrs[pc]? = some instr → code.next name pc frame world = .go pc' frame' world' →
      Executes table (.rest name code pc' frame') world' statements stop final →
      Executes table (.rest name code pc frame) world (instr :: statements) stop final
  | done {name : String} {code : Code} {pc : Nat} {frame : Frame} {world : World} {instr : Instr}
      {results : List Word} :
      code.instrs[pc]? = some instr → code.next name pc frame world = .done results →
      Executes table (.rest name code pc frame) world [instr] (.ended (.ok results)) world
  | fail {name : String} {code : Code} {pc : Nat} {frame : Frame} {world : World} {instr : Instr}
      {error : EvalError} :
      code.instrs[pc]? = some instr → code.next name pc frame world = .fail error →
      Executes table (.rest name code pc frame) world [instr] (.ended (.error error)) world
  | callStopped {name : String} {code : Code} {pc resume : Nat} {frame : Frame}
      {world final : World}
      {instr : Instr} {callee : String} {args : List Word} {collectors : List String}
      {statements : List Instr} {stop : Stop} :
      code.instrs[pc]? = some instr →
      code.next name pc frame world = .call callee args collectors resume →
      Executes table (.call callee args) world statements stop final →
      (∀ results, stop ≠ .ended (.ok results)) →
      Executes table (.rest name code pc frame) world (instr :: statements) stop final
  | callShort {name : String} {code : Code} {pc resume : Nat} {frame : Frame} {world final : World}
      {instr : Instr} {callee : String} {args results : List Word} {collectors : List String}
      {statements : List Instr} {error : EvalError} :
      code.instrs[pc]? = some instr →
      code.next name pc frame world = .call callee args collectors resume →
      Executes table (.call callee args) world statements (.ended (.ok results)) final →
      frame.collect callee 0 collectors results = .error error →
      Executes table (.rest name code pc frame) world (instr :: statements)
        (.ended (.error error)) final
  | callReturned {name : String} {code : Code} {pc resume : Nat} {frame frame' : Frame}
      {world world' final : World} {instr : Instr} {callee : String} {args results : List Word}
      {collectors : List String} {statements more : List Instr} {stop : Stop} :
      code.instrs[pc]? = some instr →
      code.next name pc frame world = .call callee args collectors resume →
      Executes table (.call callee args) world statements (.ended (.ok results)) world' →
      frame.collect callee 0 collectors results = .ok frame' →
      Executes table (.rest name code resume frame') world' more stop final →
      Executes table (.rest name code pc frame) world (instr :: (statements ++ more)) stop final

/-- Collecting takes no fuel. -/
theorem Frame.collect_ne_outOfFuel (callee : String) (index : Nat) (names : List String)
    (values : List Word) (frame : Frame) :
    frame.collect callee index names values ≠ .error .outOfFuel := by
  induction names generalizing index values frame with
  | nil => simp [collect]
  | cons name names ih =>
    cases values with
    | nil => simp [collect]
    | cons value values => exact ih _ _ _

/-- Only a cut makes an execution run out of fuel. -/
theorem Executes.ended_ne_outOfFuel {result : Result}
    (h : Executes table job world statements (.ended result) final) :
    result ≠ .error .outOfFuel := by
  generalize hstop : Stop.ended result = stop at h
  induction h generalizing result with
  | print | offEnd | done =>
    obtain rfl := Stop.ended.inj hstop
    simp
  | unknown =>
    obtain rfl := Stop.ended.inj hstop
    simp
  | cut => cases hstop
  | enter _ _ _ ih => exact ih hstop
  | go _ _ _ ih => exact ih hstop
  | callStopped _ _ _ _ ih => exact ih hstop
  | callReturned _ _ _ _ _ _ ih => exact ih hstop
  | @fail name code pc frame world _ error _ hnext =>
    obtain rfl := Stop.ended.inj hstop
    have hlocal : (Action.fail error : Action Nat).Local world := hnext ▸ Code.local_next code pc
    exact fun heq => hlocal (Except.error.inj heq)
  | callShort _ _ _ hcollect =>
    obtain rfl := Stop.ended.inj hstop
    exact fun heq => Frame.collect_ne_outOfFuel _ _ _ _ _
      (hcollect.trans (by rw [Except.error.inj heq]))

namespace Machine

/-- The answer of the machine to a job. -/
def answer (table : CodeTable) (fuel : Nat) (world : World) : Job → Result × World × Nat
  | .call callee args => resume table fuel (enter table callee args [] world)
  | .rest function code pc frame => resume table fuel (proceed ⟨function, code, pc, frame⟩ [] world)

section Answer

variable {name callee : String} {code : Code} {pc next : Nat} {frame frame' : Frame}
  {world' : World} {instr : Instr} {args results : List Word} {collectors : List String}

section

variable (hinstr : code.instrs[pc]? = some instr)
include hinstr

/-- A step takes one unit of fuel. -/
theorem answer_go (hnext : code.next name pc frame world = .go next frame' world') (fuel : Nat) :
    answer table (fuel + 1) world (.rest name code pc frame) =
      answer table fuel world' (.rest name code next frame') := by
  rw [answer, resume_proceed_succ hinstr, hnext]
  rfl

/-- A return takes one unit of fuel. -/
theorem answer_done (hnext : code.next name pc frame world = .done results) (fuel : Nat) :
    answer table (fuel + 1) world (.rest name code pc frame) = (.ok results, world, fuel) := by
  rw [answer, resume_proceed_succ hinstr, hnext]
  rfl

/-- A failure takes one unit of fuel. -/
theorem answer_fail {error : EvalError} (hnext : code.next name pc frame world = .fail error)
    (fuel : Nat) :
    answer table (fuel + 1) world (.rest name code pc frame) = (.error error, world, fuel) := by
  rw [answer, resume_proceed_succ hinstr, hnext]
  rfl

/-- A call in the middle of a function is answered first. -/
theorem answer_call (hnext : code.next name pc frame world = .call callee args collectors next)
    (fuel : Nat) : answer table (fuel + 1) world (.rest name code pc frame) =
      handOn table callee [⟨⟨name, code, next, frame⟩, collectors⟩]
        (answer table fuel world (.call callee args)) := by
  show resume table (fuel + 1) (proceed ⟨name, code, pc, frame⟩ [] world) = _
  rw [resume_proceed_succ hinstr, hnext]
  exact resume_enter ..

end

/-- The waiting function goes on, if it can collect the results. -/
theorem handOn_ok (results : List Word) (fuel : Nat) :
    handOn table callee [⟨⟨name, code, next, frame⟩, collectors⟩] (.ok results, world, fuel) =
      match frame.collect callee 0 collectors results with
      | .error error => (.error error, world, fuel)
      | .ok received => answer table fuel world (.rest name code next received) := by
  rw [handOn, deliver_cons]
  cases frame.collect callee 0 collectors results <;> rfl

/-- Errors are handed on to the end. -/
theorem handOn_of_ne_ok {result : Result} (h : ∀ results, result ≠ .ok results)
    (callers : List Caller)
    (fuel : Nat) : handOn table callee callers (result, world, fuel) = (result, world, fuel) := by
  cases result with
  | error error => rfl
  | ok results => exact absurd rfl (h results)

/-- Printing takes no fuel. -/
theorem answer_print (args : List Word) (fuel : Nat) :
    answer table fuel world (.call printName args) =
      (.ok [], { world with output := world.output ++ args.toArray }, fuel) := by
  rw [answer, enter, if_pos rfl]
  rfl

/-- Unknown functions fail at once. -/
theorem answer_unknown (hname : name ≠ printName) (hnone : table[name]? = none) (args : List Word)
    (fuel : Nat) :
    answer table fuel world (.call name args) = (.error (.unknownFunction name), world, fuel) := by
  rw [answer, enter, if_neg hname, hnone]
  rfl

/-- Entering takes no fuel. -/
theorem answer_enter (hname : name ≠ printName) (hcode : table[name]? = some code)
    (args : List Word) (fuel : Nat) :
    answer table fuel world (.call name args) =
      answer table fuel world (.rest name code 0 (.ofArguments args)) := by
  rw [answer, enter, if_neg hname, hcode]
  rfl

/-- Running off the end takes no fuel. -/
theorem answer_offEnd (hinstr : code.instrs[pc]? = none) (fuel : Nat) :
    answer table fuel world (.rest name code pc frame) = (.ok frame.results, world, fuel) := by
  rw [answer, resume_proceed_none hinstr]
  rfl

end Answer

end Machine

/-- The machine reports every execution that its fuel allows. -/
theorem Executes.answer_eq {stop : Stop} (h : Executes table job world statements stop final)
    (rest : Nat) (hcut : ∀ next, stop = .cutOff next → rest = 0) :
    Machine.answer table (statements.length + rest) world job = (stop.result, final, rest) := by
  induction h generalizing rest with
  | print =>
    rw [length_nil, Nat.zero_add]
    exact answer_print _ _
  | unknown hname hnone =>
    rw [length_nil, Nat.zero_add]
    exact answer_unknown hname hnone _ _
  | enter hname hcode _ ih =>
    rw [answer_enter hname hcode]
    exact ih rest hcut
  | offEnd hinstr =>
    rw [length_nil, Nat.zero_add]
    exact answer_offEnd hinstr _
  | cut hinstr =>
    obtain rfl := hcut _ rfl
    exact resume_proceed_zero hinstr
  | go hinstr hnext _ ih =>
    rw [length_cons, Nat.add_right_comm, answer_go hinstr hnext]
    exact ih rest hcut
  | done hinstr hnext =>
    rw [length_singleton, Nat.add_comm]
    exact answer_done hinstr hnext _
  | fail hinstr hnext =>
    rw [length_singleton, Nat.add_comm]
    exact answer_fail hinstr hnext _
  | @callStopped _ _ _ _ _ _ _ _ _ _ _ _ stop hinstr hnext _ hstop ih =>
    rw [length_cons, Nat.add_right_comm, answer_call hinstr hnext, ih rest hcut]
    refine handOn_of_ne_ok (fun results => ?_) _ _
    cases stop with
    | ended result => exact fun heq => hstop results (congrArg Stop.ended heq)
    | cutOff next => exact fun heq => by cases heq
  | callShort hinstr hnext _ hcollect ih =>
    have hcall := ih rest fun next hnever => by cases hnever
    rw [length_cons, Nat.add_right_comm, answer_call hinstr hnext, hcall, Stop.result,
      handOn_ok, hcollect]
    rfl
  | @callReturned _ _ _ _ _ _ _ _ _ instr _ _ _ _ statements more _ hinstr hnext _ hcollect _ ihcall
      ihrest =>
    -- The call leaves the fuel for the statements behind it.
    have hcall := ihcall (more.length + rest) fun next hnever => by cases hnever
    have hlength : (instr :: (statements ++ more)).length + rest =
        statements.length + (more.length + rest) + 1 := by
      simp only [length_cons, length_append]
      omega
    rw [hlength, answer_call hinstr hnext, hcall, Stop.result, handOn_ok, hcollect]
    exact ihrest rest hcut

/-! ### The execution that a supply of fuel allows -/

/-- Fuel allows an execution: every statement costs a unit, and a cut comes only when nothing is
left. -/
structure Affords (table : CodeTable) (job : Job) (world : World) (fuel : Nat)
    (statements : List Instr) (stop : Stop) (final : World) (rest : Nat) : Prop where
  executes : Executes table job world statements stop final
  spent : fuel = statements.length + rest
  cutOff : ∀ next, stop = .cutOff next → rest = 0

/-- A supply of fuel allows some execution of a job. -/
def Affordable (table : CodeTable) (job : Job) (world : World) (fuel : Nat) : Prop :=
  ∃ statements stop final rest, Affords table job world fuel statements stop final rest

section Affordable

variable {fuel : Nat}

/-- An execution that ends by itself is allowed by enough fuel. -/
theorem Executes.affordable {result : Result}
    (h : Executes table job world statements (.ended result) final)
    (hfuel : statements.length ≤ fuel) :
    Affordable table job world fuel :=
  ⟨statements, .ended result, final, fuel - statements.length, h, (Nat.add_sub_of_le hfuel).symm,
    fun next hnever => by cases hnever⟩

/-- Some execution of a call is allowed if one of the function is. -/
theorem affordable_call (h : ∀ name code frame,
    Affordable table (.rest name code 0 frame) world fuel)
    (name : String) (args : List Word) : Affordable table (.call name args) world fuel := by
  by_cases hname : name = printName
  · subst hname
    exact Executes.print.affordable (Nat.zero_le fuel)
  cases hcode : table[name]? with
  | none => exact (Executes.unknown hname hcode).affordable (Nat.zero_le fuel)
  | some code =>
    obtain ⟨statements, stop, final, rest, haffords⟩ := h name code (.ofArguments args)
    exact ⟨statements, stop, final, rest, .enter hname hcode haffords.executes, haffords.spent,
      haffords.cutOff⟩

/-- A function goes on behind a call with the fuel that it leaves. -/
theorem affordable_of_call {name callee : String} {code : Code} {pc next : Nat} {frame : Frame}
    {instr : Instr} {args : List Word} {collectors : List String}
    (hinstr : code.instrs[pc]? = some instr)
    (hnext : code.next name pc frame world = .call callee args collectors next)
    (hcall : Affordable table (.call callee args) world fuel)
    (hrest : ∀ rest ≤ fuel, ∀ frame world,
      Affordable table (.rest name code next frame) world rest) :
    Affordable table (.rest name code pc frame) world (fuel + 1) := by
  obtain ⟨statements, stop, final, rest, hexecutes, hspent, hcut⟩ := hcall
  have hlength : fuel + 1 = (instr :: statements).length + rest := by
    simp only [length_cons]
    omega
  by_cases hreturned : ∃ results, stop = .ended (.ok results)
  · obtain ⟨results, rfl⟩ := hreturned
    cases hcollect : frame.collect callee 0 collectors results with
    | error error =>
      exact (Executes.callShort hinstr hnext hexecutes hcollect).affordable (by omega)
    | ok received =>
      obtain ⟨more, stop, last, left, hmore, hleft, hcut⟩ := hrest rest (by omega) received final
      refine ⟨_, stop, last, left, .callReturned hinstr hnext hexecutes hcollect hmore, ?_, hcut⟩
      simp only [length_cons, length_append]
      omega
  · exact ⟨_, stop, final, rest,
      .callStopped hinstr hnext hexecutes fun results heq => hreturned ⟨results, heq⟩,
      hlength, hcut⟩

/-- Every supply of fuel allows some execution. A statement takes a unit, and a call hands back at
most what is left, so that what comes behind has less. -/
theorem affordable_rest (fuel : Nat) : ∀ name code pc frame world,
    Affordable table (.rest name code pc frame) world fuel := by
  induction fuel using Nat.strongRecOn with
  | ind fuel ih =>
    intro name code pc frame world
    cases hinstr : code.instrs[pc]? with
    | none => exact (Executes.offEnd hinstr).affordable (Nat.zero_le fuel)
    | some instr =>
      cases fuel with
      | zero => exact ⟨[], .cutOff instr, world, 0, .cut hinstr, rfl, fun _ _ => rfl⟩
      | succ fuel =>
        have hless : fuel < fuel + 1 := Nat.lt_succ_self fuel
        cases hnext : code.next name pc frame world with
        | go pc' frame' world' =>
          obtain ⟨statements, stop, final, rest, hexecutes, hspent, hcut⟩ :=
            ih fuel hless name code pc' frame' world'
          refine ⟨_, stop, final, rest, .go hinstr hnext hexecutes, ?_, hcut⟩
          simp only [length_cons]
          omega
        | done results =>
          exact (Executes.done hinstr hnext).affordable (Nat.succ_le_succ (Nat.zero_le fuel))
        | fail error =>
          exact (Executes.fail hinstr hnext).affordable (Nat.succ_le_succ (Nat.zero_le fuel))
        | call callee args collectors next =>
          have hcall := affordable_call (fun name code frame =>
            ih fuel hless name code 0 frame world) callee args
          exact affordable_of_call hinstr hnext hcall fun rest hrest =>
            ih rest (Nat.lt_succ_of_le hrest) name code next

end Affordable

namespace Machine

/-- A call comes to what the fuel allows. -/
theorem call_of_affords {machine : Machine} {name : String} {args : List Word} {stop : Stop}
    {rest : Nat}
    (h : Affords machine.table (.call name args) machine.world machine.fuel statements stop
      final rest) :
    machine.call name args = (stop.result, { machine with world := final, fuel := rest }) := by
  have hanswer : resume machine.table machine.fuel
      (enter machine.table name args [] machine.world) = (stop.result, final, rest) := by
    rw [h.spent]
    exact h.executes.answer_eq rest h.cutOff
  rw [call_eq_resume, hanswer]

/-- A call is an execution, which is finite, and its statements, those of all nested calls among
them, are as many as the units of fuel that it takes. It runs out of fuel only if none is left and a
statement is still to be executed. No other execution that the fuel allows is longer or shorter or
ends in another way. -/
theorem call_executes (machine : Machine) (name : String) (args : List Word) :
    let answer := machine.call name args
    ∃ statements stop,
      Executes machine.table (.call name args) machine.world statements stop answer.2.world ∧
      answer.1 = stop.result ∧ machine.fuel = statements.length + answer.2.fuel ∧
      (answer.1 = .error .outOfFuel → answer.2.fuel = 0 ∧ ∃ next, stop = .cutOff next) ∧
      ∀ statements' stop' final rest,
        Affords machine.table (.call name args) machine.world machine.fuel statements' stop'
          final rest →
        statements'.length = statements.length ∧ stop'.result = answer.1 ∧
          final = answer.2.world := by
  obtain ⟨statements, stop, final, rest, haffords⟩ :
      Affordable machine.table (.call name args) machine.world machine.fuel :=
    affordable_call (fun name code frame => affordable_rest machine.fuel name code 0 frame
      machine.world) name args
  rw [call_of_affords haffords]
  refine ⟨statements, stop, haffords.executes, rfl, haffords.spent, fun hout => ?_, ?_⟩
  · cases stop with
    | ended result => exact absurd hout haffords.executes.ended_ne_outOfFuel
    | cutOff next => exact ⟨haffords.cutOff next rfl, next, rfl⟩
  · intro statements' stop' final' rest' haffords'
    have hsame := (call_of_affords haffords').symm.trans (call_of_affords haffords)
    obtain ⟨hresult, hmachine⟩ := Prod.mk.inj hsame
    obtain ⟨-, hfinal, hrest⟩ := Machine.mk.inj hmachine
    have hspent := haffords.spent
    have hspent' := haffords'.spent
    exact ⟨by omega, hresult, hfinal⟩

/-- Counting down from minus one has no end: all fifty units are spent, with a statement still to
come. -/
theorem call_executes_alternating :
    let machine := { Machine.ofUnit alternating with fuel := 50 }
    ∃ statements next final, statements.length = 50 ∧
      Executes machine.table (.call "tick" [-1]) machine.world statements (.cutOff next) final := by
  intro machine
  have hout : (machine.call "tick" [-1]).1 = .error .outOfFuel := by decide +kernel
  obtain ⟨statements, stop, hexecutes, -, hspent, hstop, -⟩ := call_executes machine "tick" [-1]
  obtain ⟨hrest, next, rfl⟩ := hstop hout
  rw [hrest] at hspent
  exact ⟨statements, next, _, hspent.symm, hexecutes⟩

end Machine

end Flowgraph

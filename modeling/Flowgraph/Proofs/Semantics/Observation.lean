import Flowgraph.Proofs.Semantics.Trace
import Mathlib.Logic.Function.Iterate

/-!
# What the machine executes

`Machine.observe` collects what the outermost function executes. It sees exactly the trails of the
function's code (`Machine.traced_point`, `Machine.ahead_of_trail`), which take calls as a whole:
what the machine does inside of a call does not depend on the functions that wait
(`Machine.Stacked`).
-/

namespace Flowgraph

open List

/-- What a state shows: what the outermost function executes next, if it runs. -/
def State.events (state : State) : List Observation :=
  if state.callers.isEmpty then
    state.active.code.events state.active.function state.active.pc state.active.frame state.world
  else
    []

namespace Progress

def events : Progress → List Observation
  | .running state => state.events
  | _ => []

/-- The progress of a run with a result. -/
def ofResult (world : World) : Result → Progress
  | .ok results => .finished results world
  | .error error => .failed error world

end Progress

namespace Machine

variable {table : CodeTable} {world final : World} {result result' : Result} {progress : Progress}
  {steps : Nat} {final' : World}

/-- One step, if there is one left. -/
def advance (table : CodeTable) : Progress → Progress
  | .running state => step table state
  | progress => progress

/-- What the outermost function executes in a number of steps. -/
def observe (table : CodeTable) : Nat → Progress → List Observation
  | 0, _ => []
  | steps + 1, progress => progress.events ++ observe table steps (advance table progress)

/-- Results tell ends apart. -/
theorem ofResult_inj {world' : World}
    (h : Progress.ofResult world result = .ofResult world' result') :
    result = result' ∧ world = world' := by
  cases result <;> cases result' <;> simp_all [Progress.ofResult]

/-- Running is not having ended. -/
theorem running_ne_ofResult {state : State} : Progress.running state ≠ .ofResult world result := by
  cases result <;> exact Progress.noConfusion

/-- Ends do not advance. -/
theorem advance_ofResult (world : World) (result : Result) :
    advance table (.ofResult world result) = .ofResult world result := by
  cases result <;> rfl

/-- Ends never advance. -/
theorem ahead_ofResult (steps : Nat) (world : World) (result : Result) :
    (advance table)^[steps] (.ofResult world result) = .ofResult world result :=
  Function.iterate_fixed (advance_ofResult world result) steps

/-- Nothing is observed after the end. -/
theorem observe_ofResult (steps : Nat) (world : World) (result : Result) :
    observe table steps (.ofResult world result) = [] := by
  induction steps with
  | zero => rfl
  | succ steps ih =>
    rw [observe, advance_ofResult, ih]
    cases result <;> rfl

/-- Observation can be split. -/
theorem observe_add (first second : Nat) (progress : Progress) :
    observe table (first + second) progress =
      observe table first progress ++ observe table second ((advance table)^[first] progress) := by
  induction first generalizing progress with
  | zero => simp [observe]
  | succ first ih =>
    rw [Nat.add_right_comm, observe, ih, observe, append_assoc, Function.iterate_succ_apply]

/-- A run is as many steps, and is out of fuel if they do not end it. -/
theorem run_eq_of_ahead (fuel : Nat) (state : State) :
    (∃ next, (advance table)^[fuel] (.running state) = .running next ∧
      run table fuel state = (.error .outOfFuel, next.world, 0)) ∨
    ∃ result world rest, (advance table)^[fuel] (.running state) = .ofResult world result ∧
      run table fuel state = (result, world, rest) := by
  induction fuel generalizing state with
  | zero => exact .inl ⟨state, rfl, rfl⟩
  | succ fuel ih =>
    rw [Function.iterate_succ_apply, run]
    show (∃ next, (advance table)^[fuel] (step table state) = _ ∧ _) ∨
      ∃ result world rest, (advance table)^[fuel] (step table state) = _ ∧ _
    cases step table state with
    | running next => exact ih next
    | finished results world =>
      exact .inr ⟨.ok results, world, fuel, ahead_ofResult fuel world (.ok results), rfl⟩
    | failed error world =>
      exact .inr ⟨.error error, world, fuel, ahead_ofResult fuel world (.error error), rfl⟩

/-! ### Functions that wait below -/

/-- The outermost of a function and those that wait for it. -/
def outermost (name : String) : List Caller → String
  | [] => name
  | caller :: rest => outermost caller.activation.function rest

/-- Progress on top of more waiting functions, to which the outermost one returns. -/
def onTop (outer : String) (below : List Caller) : Progress → Progress
  | .running state => .running { state with callers := state.callers ++ below }
  | .finished results world => deliver outer results world below
  | .failed error world => .failed error world

/-- The second progress is the first on top of more waiting functions. -/
def Stacked (outer : String) (below : List Caller) (progress progress' : Progress) : Prop :=
  progress' = onTop outer below progress ∧
    ∀ state, progress = .running state → outermost state.active.function state.callers = outer

section Stacked

variable {outer name : String} {below callers : List Caller}

/-- Results are delivered alike. -/
theorem stacked_deliver (h : outermost name callers = outer) (results : List Word) (world : World) :
    Stacked outer below (deliver name results world callers)
      (deliver name results world (callers ++ below)) := by
  induction callers generalizing name results with
  | nil =>
    obtain rfl : name = outer := h
    exact ⟨rfl, fun state hstate => by cases hstate⟩
  | cons caller rest ih =>
    rw [cons_append, deliver, deliver]
    cases caller.activation.frame.collect name 0 caller.collectors results with
    | error error => exact ⟨rfl, fun state hstate => by cases hstate⟩
    | ok frame =>
      dsimp only
      split
      · refine ⟨rfl, fun state hstate => ?_⟩
        obtain rfl := Progress.running.inj hstate
        exact h
      · exact ih h _

/-- Going on is alike. -/
theorem stacked_proceed {active : Activation} (h : outermost active.function callers = outer)
    (world : World) :
    Stacked outer below (proceed active callers world)
      (proceed active (callers ++ below) world) := by
  rw [proceed, proceed]
  split
  · refine ⟨rfl, fun state hstate => ?_⟩
    obtain rfl := Progress.running.inj hstate
    exact h
  · exact stacked_deliver h _ _

/-- Calls are entered alike. -/
theorem stacked_enter (callers : List Caller) (h : outermost name callers = outer)
    (args : List Word) (world : World) :
    Stacked outer below (enter table name args callers world)
      (enter table name args (callers ++ below) world) := by
  rw [enter, enter]
  split
  · exact stacked_deliver h _ _
  · cases table[name]? with
    | none => exact ⟨rfl, fun state hstate => by cases hstate⟩
    | some code => exact stacked_proceed h _

/-- A step does not depend on what waits below. -/
theorem Stacked.step {state : State} (h : outermost state.active.function state.callers = outer) :
    Stacked outer below (step table state)
      (step table { state with callers := state.callers ++ below }) := by
  obtain ⟨⟨name, code, pc, frame⟩, callers, world⟩ := state
  show Stacked outer below _ (Machine.step table ⟨⟨name, code, pc, frame⟩, callers ++ below, world⟩)
  rw [step_eq, step_eq]
  cases code.next name pc frame world with
  | go pc' frame' world' =>
    exact stacked_proceed (show outermost name callers = outer from h) world'
  | call callee args collectors resume =>
    exact stacked_enter (⟨⟨name, code, resume, frame⟩, collectors⟩ :: callers) h args world
  | done results => exact stacked_deliver h results world
  | fail error => exact ⟨rfl, fun state hstate => by cases hstate⟩

/-- A run that does not end on its own shows nothing on top of others. -/
theorem Stacked.ahead {progress' : Progress} (hbelow : below ≠ [])
    (h : Stacked outer below progress progress')
    (hrunning : ∀ k < steps, ∃ state, (advance table)^[k] progress = .running state) :
    (advance table)^[steps] progress' = onTop outer below ((advance table)^[steps] progress) ∧
      observe table steps progress' = [] := by
  induction steps generalizing progress progress' with
  | zero => exact ⟨h.1, rfl⟩
  | succ steps ih =>
    obtain ⟨state, hstate⟩ := hrunning 0 (Nat.succ_pos _)
    obtain rfl : progress = .running state := hstate
    obtain ⟨rfl, houter⟩ := h
    have hstep : Stacked outer below (Machine.step table state)
        (Machine.step table { state with callers := state.callers ++ below }) :=
      .step (houter state rfl)
    obtain ⟨hahead, hsilent⟩ := ih hstep fun k hk => hrunning (k + 1) (Nat.succ_lt_succ hk)
    refine ⟨hahead, ?_⟩
    have hevents : (onTop outer below (.running state)).events = [] := by
      simp [onTop, Progress.events, State.events, hbelow]
    show (onTop outer below (.running state)).events ++ observe table steps
      (Machine.step table { state with callers := state.callers ++ below }) = []
    rw [hevents, hsilent, append_nil]

end Stacked

/-- What it means for the steps of a run that it halts. -/
theorem Halts.ahead (h : Halts table progress steps result final) :
    (advance table)^[steps] progress = .ofResult final result ∧
      ∀ k < steps, ∃ state, (advance table)^[k] progress = .running state := by
  induction h with
  | finished => exact ⟨rfl, fun k hk => absurd hk (Nat.not_lt_zero k)⟩
  | failed => exact ⟨rfl, fun k hk => absurd hk (Nat.not_lt_zero k)⟩
  | @running state steps _ _ _ ih =>
    refine ⟨ih.1, fun k hk => ?_⟩
    cases k with
    | zero => exact ⟨state, rfl⟩
    | succ k => exact ih.2 k (Nat.lt_of_succ_lt_succ hk)

/-- A run halts within a number of steps or goes on for more. -/
theorem halts_or_running (table : CodeTable) (steps : Nat) (progress : Progress) :
    (∃ few ≤ steps, ∃ result final, Halts table progress few result final) ∨
      ∀ k ≤ steps, ∃ state, (advance table)^[k] progress = .running state := by
  induction steps generalizing progress with
  | zero =>
    cases progress with
    | running state =>
      refine .inr fun k hk => ⟨state, ?_⟩
      rw [Nat.le_zero.mp hk]
      rfl
    | finished results world => exact .inl ⟨0, Nat.le_refl _, _, _, .finished⟩
    | failed error world => exact .inl ⟨0, Nat.le_refl _, _, _, .failed⟩
  | succ steps ih =>
    cases progress with
    | running state =>
      rcases ih (step table state) with ⟨few, hfew, result, final, hhalts⟩ | hrunning
      · exact .inl ⟨few + 1, Nat.succ_le_succ hfew, result, final, .running hhalts⟩
      · refine .inr fun k hk => ?_
        cases k with
        | zero => exact ⟨state, rfl⟩
        | succ k => exact hrunning k (Nat.le_of_succ_le_succ hk)
    | finished results world => exact .inl ⟨0, Nat.zero_le _, _, _, .finished⟩
    | failed error world => exact .inl ⟨0, Nat.zero_le _, _, _, .failed⟩

/-- Runs have one end. -/
theorem Halts.unique {steps' : Nat} (h : Halts table progress steps result final)
    (h' : Halts table progress steps' result' final') : result = result' ∧ final = final' := by
  induction h generalizing steps' with
  | finished =>
    cases h'
    exact ⟨rfl, rfl⟩
  | failed =>
    cases h'
    exact ⟨rfl, rfl⟩
  | running _ ih =>
    cases h' with
    | running hrest => exact ih hrest

/-- A call has one result. -/
theorem eval_unique {callee : String} {args : List Word}
    (h : Eval (.ofTable table) (.call callee args) world result final)
    (h' : Eval (.ofTable table) (.call callee args) world result' final') :
    result = result' ∧ final = final' := by
  obtain ⟨steps, hhalts⟩ := halts_iff_eval.mpr h
  obtain ⟨steps', hhalts'⟩ := halts_iff_eval.mpr h'
  exact hhalts.unique hhalts'

/-- A body is not free to choose its moves. -/
theorem moves_unique {Control : Type} {next : Control → Frame → World → Action Control}
    {log : Log Control} {spot after after' : Spot Control} {events events' : List Observation}
    (h : Moves (.ofTable table) next log spot events after)
    (h' : Moves (.ofTable table) next log spot events' after') : after = after' := by
  cases h with
  | act control frame world =>
    cases h'
    rfl
  | back heval =>
    cases h' with
    | back heval' =>
      obtain ⟨rfl, rfl⟩ := eval_unique heval heval'
      rfl

/-! ### Trails of code and steps of the machine -/

section Trails

variable {name : String} {code : Code} {spot next : Spot Nat} {frame : Frame}

/-- The moves of a function under the functions of a table. -/
abbrev CodeMoves (table : CodeTable) (name : String) (code : Code) :
    Spot Nat → List Observation → Spot Nat → Prop :=
  Moves (.ofTable table) (code.next name) (code.events name)

/-- The machine at a spot of its outermost function. -/
def spotProgress (table : CodeTable) (name : String) (code : Code) : Spot Nat → Progress
  | .point pc frame world => proceed ⟨name, code, pc, frame⟩ [] world
  | .waiting callee args collectors resume frame world =>
    enter table callee args [⟨⟨name, code, resume, frame⟩, collectors⟩] world
  | .ended result world => .ofResult world result

/-- Following an action is a spot. -/
theorem follow_eq (frame : Frame) (world : World) (action : Action Nat) :
    follow table name code frame [] world action =
      spotProgress table name code (.follow frame world action) := by
  cases action <;> rfl

/-- A call that halts hands its result to the waiting function. -/
theorem onTop_ofResult (callee : String) (collectors : List String) (resume : Nat) (frame : Frame)
    (result : Result) (world : World) :
    onTop callee [⟨⟨name, code, resume, frame⟩, collectors⟩] (.ofResult world result) =
      spotProgress table name code (.back callee collectors resume frame result world) := by
  cases result with
  | error error => rfl
  | ok results =>
    show deliver callee results world _ = _
    rw [deliver_cons, Spot.back]
    cases frame.collect callee 0 collectors results <;> rfl

/-- A call runs on top of the function that waits for it. -/
theorem stacked_waiting (table : CodeTable) (name : String) (code : Code) (callee : String)
    (args : List Word) (collectors : List String) (resume : Nat) (frame : Frame) (world : World) :
    Stacked callee [⟨⟨name, code, resume, frame⟩, collectors⟩]
      (enter table callee args [] world)
      (spotProgress table name code (.waiting callee args collectors resume frame world)) :=
  stacked_enter [] rfl args world

/-- The machine while the outermost function waits for a call that halts. -/
theorem ahead_waiting {callee : String} {args : List Word} {collectors : List String} {resume : Nat}
    (h : Halts table (enter table callee args [] world) steps result final) :
    (advance table)^[steps]
        (spotProgress table name code (.waiting callee args collectors resume frame world)) =
      spotProgress table name code (.back callee collectors resume frame result final) ∧
    observe table steps
      (spotProgress table name code (.waiting callee args collectors resume frame world)) = [] := by
  obtain ⟨hahead, hsilent⟩ := (stacked_waiting ..).ahead (cons_ne_nil _ _) h.ahead.2
  rw [h.ahead.1, onTop_ofResult] at hahead
  exact ⟨hahead, hsilent⟩

/-- Code that has come to its end returns at once. -/
theorem next_of_size_le {pc : Nat} (h : code.instrs.size ≤ pc) (frame : Frame) (world : World) :
    code.next name pc frame world = .done frame.results ∧ code.events name pc frame world = [] ∧
      proceed ⟨name, code, pc, frame⟩ [] world = .ofResult world (.ok frame.results) := by
  have hnone : code.instrs[pc]? = none := Array.getElem?_eq_none h
  refine ⟨by simp only [Code.next, hnone], by simp only [Code.events, hnone], ?_⟩
  rw [proceed, if_neg (Nat.not_lt.mpr h)]
  rfl

/-- A move of the code is some steps of the machine with the same to show. -/
theorem ahead_of_move {events : List Observation} (h : CodeMoves table name code spot events next) :
    ∃ steps, (advance table)^[steps] (spotProgress table name code spot) =
        spotProgress table name code next ∧
      observe table steps (spotProgress table name code spot) = events := by
  cases h with
  | act pc frame world =>
    by_cases hpc : pc < code.instrs.size
    · have hstate : spotProgress table name code (.point pc frame world) =
          .running ⟨⟨name, code, pc, frame⟩, [], world⟩ := if_pos hpc
      refine ⟨1, ?_, ?_⟩
      · rw [hstate]
        exact (step_eq name code pc frame [] world).trans (follow_eq frame world _)
      · rw [hstate]
        exact append_nil _
    · -- the code returns at its end, but the machine has done so when it got there
      obtain ⟨hnext, hevents, hproceed⟩ := next_of_size_le (Nat.le_of_not_lt hpc) frame world
      refine ⟨0, ?_, hevents.symm⟩
      show proceed _ _ _ = spotProgress table name code (.follow frame world (code.next _ _ _ _))
      rw [hproceed, hnext]
      rfl
  | back heval =>
    obtain ⟨steps, hhalts⟩ := halts_iff_eval.mpr heval
    exact ⟨steps, ahead_waiting hhalts⟩

/-- A trail of the code is a run of the machine with the same to show. -/
theorem ahead_of_trail {events : List Observation}
    (h : Trail (CodeMoves table name code) spot events next) :
    ∃ steps, (advance table)^[steps] (spotProgress table name code spot) =
        spotProgress table name code next ∧
      observe table steps (spotProgress table name code spot) = events := by
  induction h with
  | refl => exact ⟨0, rfl, rfl⟩
  | head hmove _ ih =>
    obtain ⟨first, hahead, hobserve⟩ := ahead_of_move hmove
    obtain ⟨rest, hahead', hobserve'⟩ := ih
    refine ⟨rest + first, ?_, ?_⟩
    · rw [Function.iterate_add_apply, hahead, hahead']
    · rw [Nat.add_comm, observe_add, hahead, hobserve, hobserve']

/-- All that the machine shows from a spot on is shown by a trail, which ends if the machine has. -/
def Traced (table : CodeTable) (name : String) (code : Code) (steps : Nat)
    (spot : Spot Nat) : Prop :=
  ∃ last, Trail (CodeMoves table name code) spot
      (observe table steps (spotProgress table name code spot)) last ∧
    ∀ result final,
      (advance table)^[steps] (spotProgress table name code spot) = .ofResult final result →
      last = .ended result final

/-- Ends are traced. -/
theorem traced_ended (steps : Nat) (result : Result) (world : World) :
    Traced table name code steps (.ended result world) := by
  refine ⟨.ended result world, ?_, fun result' final hahead => ?_⟩
  · rw [spotProgress, observe_ofResult]
    exact .refl
  · rw [spotProgress, ahead_ofResult] at hahead
    obtain ⟨rfl, rfl⟩ := ofResult_inj hahead
    rfl

/-- One move of the code before others. -/
theorem Traced.head {first : Nat} {events : List Observation}
    (hmove : CodeMoves table name code spot events next)
    (hahead : (advance table)^[first] (spotProgress table name code spot) =
      spotProgress table name code next)
    (hevents : observe table first (spotProgress table name code spot) = events)
    (h : Traced table name code steps next) : Traced table name code (first + steps) spot := by
  obtain ⟨last, htrail, hlast⟩ := h
  refine ⟨last, ?_, fun result final hended => hlast result final ?_⟩
  · rw [observe_add, hahead, hevents]
    exact .head hmove htrail
  · rwa [Nat.add_comm, Function.iterate_add_apply, hahead] at hended

/-- While the outermost function waits, nothing shows; it goes on if the call halts. -/
theorem traced_waiting
    (h : ∀ fewer ≤ steps, ∀ pc frame world, Traced table name code fewer (.point pc frame world))
    (callee : String) (args : List Word) (collectors : List String) (resume : Nat) (frame : Frame)
    (world : World) :
    Traced table name code steps (.waiting callee args collectors resume frame world) := by
  rcases halts_or_running table steps (enter table callee args [] world) with
    ⟨few, hfew, result, final, hhalts⟩ | hrunning
  · obtain ⟨hahead, hsilent⟩ := ahead_waiting hhalts
    have hmove : CodeMoves table name code (.waiting callee args collectors resume frame world) []
        (.back callee collectors resume frame result final) :=
      .back (halts_iff_eval.mp ⟨few, hhalts⟩)
    have hrest : Traced table name code (steps - few)
        (.back callee collectors resume frame result final) := by
      cases result with
      | error error => exact traced_ended _ _ _
      | ok results =>
        rw [Spot.back]
        cases frame.collect callee 0 collectors results with
        | error error => exact traced_ended _ _ _
        | ok received => exact h _ (Nat.sub_le _ _) _ _ _
    rw [← Nat.add_sub_of_le hfew]
    exact hrest.head hmove hahead hsilent
  · have hstacked := stacked_waiting table name code callee args collectors resume frame world
    obtain ⟨hahead, hsilent⟩ := hstacked.ahead (cons_ne_nil _ _)
      fun k hk => hrunning k (Nat.le_of_lt hk)
    refine ⟨.waiting callee args collectors resume frame world, ?_, fun result final hended => ?_⟩
    · rw [hsilent]
      exact .refl
    · obtain ⟨state, hstate⟩ := hrunning steps (Nat.le_refl _)
      rw [hahead, hstate] at hended
      exact absurd hended running_ne_ofResult

/-- Points are traced. -/
theorem traced_point (steps pc : Nat) (frame : Frame) (world : World) :
    Traced table name code steps (.point pc frame world) := by
  -- a call that halts takes many steps at once, so one step less is not enough
  induction steps using Nat.strongRecOn generalizing pc frame world with
  | ind steps ih =>
    have hmove : CodeMoves table name code (.point pc frame world) _ _ := .act pc frame world
    by_cases hpc : pc < code.instrs.size
    · have hstate : spotProgress table name code (.point pc frame world) =
          .running ⟨⟨name, code, pc, frame⟩, [], world⟩ := if_pos hpc
      cases steps with
      | zero =>
        refine ⟨_, .refl, fun result final hended => ?_⟩
        rw [hstate] at hended
        exact absurd hended running_ne_ofResult
      | succ steps =>
        have hrest : Traced table name code steps
            (.follow frame world (code.next name pc frame world)) := by
          cases code.next name pc frame world with
          | go pc' frame' world' => exact ih steps (Nat.lt_succ_self _) pc' frame' world'
          | call callee args collectors resume =>
            exact traced_waiting (fun fewer hfewer => ih fewer (Nat.lt_succ_of_le hfewer)) ..
          | done results => exact traced_ended _ _ _
          | fail error => exact traced_ended _ _ _
        rw [Nat.add_comm]
        refine hrest.head hmove ?_ ?_
        · rw [hstate]
          exact (step_eq name code pc frame [] world).trans (follow_eq frame world _)
        · rw [hstate]
          exact append_nil _
    · obtain ⟨hnext, hevents, hproceed⟩ := next_of_size_le (Nat.le_of_not_lt hpc) frame world
      rw [hnext, hevents] at hmove
      rw [← Nat.zero_add steps]
      exact (traced_ended steps _ world).head hmove hproceed rfl

/-- The machine executes what the trails show, and ends where they end. -/
theorem observe_iff (hcode : 0 < code.instrs.size) (events : List Observation) :
    ((∃ fuel, observe table fuel (.running ⟨⟨name, code, 0, frame⟩, [], world⟩) = events) ↔
      ∃ spot, Trail (CodeMoves table name code) (.point 0 frame world) events spot) ∧
    ∀ result final, result ≠ .error .outOfFuel →
      ((∃ fuel rest, run table fuel ⟨⟨name, code, 0, frame⟩, [], world⟩ = (result, final, rest) ∧
          observe table fuel (.running ⟨⟨name, code, 0, frame⟩, [], world⟩) = events) ↔
        Trail (CodeMoves table name code) (.point 0 frame world) events (.ended result final)) := by
  have hstate : spotProgress table name code (.point 0 frame world) =
      .running ⟨⟨name, code, 0, frame⟩, [], world⟩ := if_pos hcode
  rw [← hstate]
  refine ⟨⟨?_, ?_⟩, fun result final hresult => ⟨?_, ?_⟩⟩
  · intro ⟨fuel, hfuel⟩
    obtain ⟨spot, htrail, -⟩ := traced_point fuel 0 frame world
    exact ⟨spot, hfuel ▸ htrail⟩
  · intro ⟨spot, htrail⟩
    obtain ⟨steps, -, hsteps⟩ := ahead_of_trail htrail
    exact ⟨steps, hsteps⟩
  · intro ⟨fuel, rest, hrun, hfuel⟩
    obtain ⟨spot, htrail, hspot⟩ := traced_point fuel 0 frame world
    rcases run_eq_of_ahead fuel ⟨⟨name, code, 0, frame⟩, [], world⟩ with
      ⟨next, -, hout⟩ | ⟨result', final', rest', hahead, hrun'⟩
    · rw [hrun] at hout
      exact absurd (congrArg Prod.fst hout) hresult
    · rw [hrun, Prod.mk.injEq, Prod.mk.injEq] at hrun'
      obtain ⟨rfl, rfl, -⟩ := hrun'
      obtain rfl := hspot result final (hstate ▸ hahead)
      exact hfuel ▸ htrail
  · intro htrail
    obtain ⟨steps, hahead, hsteps⟩ := ahead_of_trail htrail
    rw [hstate] at hahead
    rcases run_eq_of_ahead steps ⟨⟨name, code, 0, frame⟩, [], world⟩ with
      ⟨next, hnext, -⟩ | ⟨result', final', rest, hended, hrun⟩
    · exact absurd (hnext.symm.trans hahead) running_ne_ofResult
    · obtain ⟨rfl, rfl⟩ := ofResult_inj (hended.symm.trans hahead)
      exact ⟨steps, rest, hrun, hsteps⟩

end Trails

end Machine

end Flowgraph

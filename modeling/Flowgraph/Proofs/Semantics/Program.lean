import Flowgraph.Code.Machine

/-!
# Programs and simulation

A body is a function in any form that runs one step at a time. `Eval` runs the functions of a
program to the end, with calls as nested evaluations and without fuel.

If every function of one program is simulated by the function of the same name in another, every
evaluation of the first is one of the second (`Program.Refines.of_simulations`). The simulating body
may take any number of steps for one, since the induction is on the evaluation that ends.
-/

namespace Flowgraph

variable {frame frame' : Frame} {world : World}

/-- What a body does next at one of its points. -/
inductive Action (Control : Type) where
  | go (control : Control) (frame : Frame) (world : World)
  | call (callee : String) (args : List Word) (collectors : List String) (resume : Control)
  | done (results : List Word)
  | fail (error : EvalError)

/-- A function that can be run one step at a time. -/
structure Body where
  Control : Type
  entry : Control
  next : Control → Frame → World → Action Control

/-- The functions of a program by name. -/
abbrev Program := String → Option Body

/-- What a call comes to. -/
abbrev Result := Except EvalError (List Word)

/-- What is to be evaluated: a call, or the rest of a body. -/
inductive Task where
  | call (callee : String) (args : List Word)
  | resume (body : Body) (control : body.Control) (frame : Frame)

/-- Evaluation to the end, from one world to another. -/
inductive Eval (program : Program) : Task → World → Result → World → Prop where
  | print {args : List Word} {world : World} :
      Eval program (.call Machine.printName args) world (.ok [])
        { world with output := world.output ++ args.toArray }
  | unknown {name : String} {args : List Word} {world : World} :
      name ≠ Machine.printName → program name = none →
      Eval program (.call name args) world (.error (.unknownFunction name)) world
  | enter {name : String} {args : List Word} {body : Body} {world final : World}
      {result : Result} :
      name ≠ Machine.printName → program name = some body →
      Eval program (.resume body body.entry (.ofArguments args)) world result final →
      Eval program (.call name args) world result final
  | go {body : Body} {control control' : body.Control} {frame frame' : Frame}
      {world world' final : World} {result : Result} :
      body.next control frame world = .go control' frame' world' →
      Eval program (.resume body control' frame') world' result final →
      Eval program (.resume body control frame) world result final
  | done {body : Body} {control : body.Control} {frame : Frame} {world : World}
      {results : List Word} :
      body.next control frame world = .done results →
      Eval program (.resume body control frame) world (.ok results) world
  | fail {body : Body} {control : body.Control} {frame : Frame} {world : World}
      {error : EvalError} :
      body.next control frame world = .fail error →
      Eval program (.resume body control frame) world (.error error) world
  | callFailed {body : Body} {control resume : body.Control} {frame : Frame}
      {world final : World} {callee : String} {args : List Word} {collectors : List String}
      {error : EvalError} :
      body.next control frame world = .call callee args collectors resume →
      Eval program (.call callee args) world (.error error) final →
      Eval program (.resume body control frame) world (.error error) final
  | callShort {body : Body} {control resume : body.Control} {frame : Frame}
      {world final : World} {callee : String} {args results : List Word}
      {collectors : List String} {error : EvalError} :
      body.next control frame world = .call callee args collectors resume →
      Eval program (.call callee args) world (.ok results) final →
      frame.collect callee 0 collectors results = .error error →
      Eval program (.resume body control frame) world (.error error) final
  | callReturned {body : Body} {control resume : body.Control} {frame frame' : Frame}
      {world world' final : World} {callee : String} {args results : List Word}
      {collectors : List String} {result : Result} :
      body.next control frame world = .call callee args collectors resume →
      Eval program (.call callee args) world (.ok results) world' →
      frame.collect callee 0 collectors results = .ok frame' →
      Eval program (.resume body resume frame') world' result final →
      Eval program (.resume body control frame) world result final

namespace Body

/-- Steps of a body one after another, without calls. -/
inductive Steps (body : Body) :
    body.Control → Frame → World → body.Control → Frame → World → Prop where
  | refl {control : body.Control} {frame : Frame} {world : World} :
      body.Steps control frame world control frame world
  | head {first second third : body.Control} {frame frame' frame'' : Frame}
      {world world' world'' : World} :
      body.next first frame world = .go second frame' world' →
      body.Steps second frame' world' third frame'' world'' →
      body.Steps first frame world third frame'' world''

variable {body : Body} {first second third : body.Control} {frame'' : Frame}
  {world' world'' : World}

/-- One step. -/
theorem Steps.single (h : body.next first frame world = .go second frame' world') :
    body.Steps first frame world second frame' world' :=
  .head h .refl

/-- Steps compose. -/
theorem Steps.trans (h : body.Steps first frame world second frame' world')
    (h' : body.Steps second frame' world' third frame'' world'') :
    body.Steps first frame world third frame'' world'' := by
  induction h with
  | refl => exact h'
  | head hnext _ ih => exact .head hnext (ih h')

/-- An evaluation can begin with steps. -/
theorem Steps.eval {program : Program} {result : Result} {final : World}
    (h : body.Steps first frame world second frame' world')
    (heval : Eval program (.resume body second frame') world' result final) :
    Eval program (.resume body first frame) world result final := by
  induction h with
  | refl => exact heval
  | head hnext _ ih => exact .go hnext (ih heval)

end Body

/-! ### Simulation -/

/-- A relation between the points of two bodies. -/
abbrev PointRel (source target : Body) :=
  source.Control → Frame → target.Control → Frame → Prop

section Simulation

variable {source target : Body} {rel : Frame → Frame → Prop} {second : Except EvalError Frame}
  {control' : target.Control} {action : Action source.Control}

/-- Two collections fail alike, or succeed with related frames. -/
def Collected (rel : Frame → Frame → Prop) : Except EvalError Frame → Except EvalError Frame → Prop
  | .error error, .error error' => error = error'
  | .ok frame, .ok frame' => rel frame frame'
  | _, _ => False

/-- A body goes on by some steps to answer an action of another. -/
def Answered (rel : PointRel source target) (frame : Frame) (world : World)
    (control' : target.Control) (frame' : Frame) : Action source.Control → Prop
  | .go next after world' => ∃ next' after',
      target.Steps control' frame' world next' after' world' ∧ rel next after next' after'
  | .call callee args collectors resume => ∃ point after collectors' resume',
      target.Steps control' frame' world point after world ∧
        target.next point after world = .call callee args collectors' resume' ∧
        ∀ results, Collected (fun received received' => rel resume received resume' received')
          (frame.collect callee 0 collectors results) (after.collect callee 0 collectors' results)
  | .done results => ∃ point after,
      target.Steps control' frame' world point after world ∧
        target.next point after world = .done results
  | .fail error => ∃ point after,
      target.Steps control' frame' world point after world ∧
        target.next point after world = .fail error

/-- Steps that change nothing can be taken before an answer. -/
theorem Answered.of_steps {rel : PointRel source target} {after : Frame}
    {control'' : target.Control} (hsteps : target.Steps control' frame' world control'' after world)
    (h : Answered rel frame world control'' after action) :
    Answered rel frame world control' frame' action := by
  cases action with
  | go next middle world' =>
    obtain ⟨next', after', hmore, hrel⟩ := h
    exact ⟨next', after', hsteps.trans hmore, hrel⟩
  | call callee args collectors resume =>
    obtain ⟨point, middle, collectors', resume', hmore, hcall⟩ := h
    exact ⟨point, middle, collectors', resume', hsteps.trans hmore, hcall⟩
  | done results =>
    obtain ⟨point, middle, hmore, hdone⟩ := h
    exact ⟨point, middle, hsteps.trans hmore, hdone⟩
  | fail error =>
    obtain ⟨point, middle, hmore, hfail⟩ := h
    exact ⟨point, middle, hsteps.trans hmore, hfail⟩

/-- One body is simulated by another. -/
structure Simulation (source target : Body) where
  rel : PointRel source target
  entry : ∀ args, rel source.entry (.ofArguments args) target.entry (.ofArguments args)
  step : ∀ {control frame control' frame'} world, rel control frame control' frame' →
    Answered rel frame world control' frame' (source.next control frame world)

/-- Related points answer each other. -/
theorem Simulation.answer (simulation : Simulation source target) {control : source.Control}
    (hnext : source.next control frame world = action)
    (hrel : simulation.rel control frame control' frame') :
    Answered simulation.rel frame world control' frame' action :=
  hnext ▸ simulation.step world hrel

/-- Equal outcomes are collected alike. -/
theorem collected_refl (outcome : Except EvalError Frame) : Collected Eq outcome outcome := by
  cases outcome <;> simp [Collected]

/-- Errors are the same. -/
theorem Collected.of_error {error : EvalError} (h : Collected rel (.error error) second) :
    second = .error error := by
  cases second with
  | error error' => exact congrArg _ (Eq.symm h)
  | ok frame => exact h.elim

/-- Frames are related. -/
theorem Collected.of_ok (h : Collected rel (.ok frame) second) :
    ∃ frame', second = .ok frame' ∧ rel frame frame' := by
  cases second with
  | error error => exact h.elim
  | ok frame' => exact ⟨frame', rfl, h⟩

/-- Weaker relations hold too. -/
theorem Collected.imp {rel' : Frame → Frame → Prop} {first : Except EvalError Frame}
    (h : Collected rel first second)
    (himp : ∀ {frame frame'}, rel frame frame' → rel' frame frame') :
    Collected rel' first second := by
  cases first <;> cases second <;> simp_all [Collected]

/-- Every body simulates itself. -/
def Simulation.refl (body : Body) : Simulation body body where
  rel control frame control' frame' := control = control' ∧ frame = frame'
  entry _ := ⟨rfl, rfl⟩
  step {control frame control' frame'} world h := by
    obtain ⟨rfl, rfl⟩ := h
    cases hnext : body.next control frame world with
    | go next after world' => exact ⟨next, after, .single hnext, rfl, rfl⟩
    | call callee args collectors resume =>
      exact ⟨control, frame, collectors, resume, .refl, hnext,
        fun results => (collected_refl _).imp fun h => ⟨rfl, h⟩⟩
    | done results => exact ⟨control, frame, .refl, hnext⟩
    | fail error => exact ⟨control, frame, .refl, hnext⟩

end Simulation

namespace Program

/-- Every evaluation of a call in one program is one in another. -/
def Refines (first second : Program) : Prop :=
  ∀ callee args world result final, Eval first (.call callee args) world result final →
    Eval second (.call callee args) world result final

/-- Refinement is transitive. -/
theorem Refines.trans {first second third : Program} (h : first.Refines second)
    (h' : second.Refines third) : first.Refines third :=
  fun _ _ _ _ _ heval => h' _ _ _ _ _ (h _ _ _ _ _ heval)

/-- Of two functions of one name neither is there, or the second simulates the first. -/
def Simulated : Option Body → Option Body → Prop
  | none, none => True
  | some source, some target => Nonempty (Simulation source target)
  | _, _ => False

variable {first second : Program}

/-- What an evaluation in one program gives for another. -/
def Carried (second : Program) (world : World) (result : Result) (final : World) : Task → Prop
  | .call callee args => Eval second (.call callee args) world result final
  | .resume body control frame => ∀ (target : Body) (simulation : Simulation body target)
      (control' : target.Control) (frame' : Frame),
      simulation.rel control frame control' frame' →
      Eval second (.resume target control' frame') world result final

/-- Programs whose functions are simulated refine each other. -/
theorem Refines.of_simulations (h : ∀ name, Simulated (first name) (second name)) :
    first.Refines second := by
  intro callee args world result final heval
  suffices hall : ∀ {task world result final}, Eval first task world result final →
      Carried second world result final task from hall heval
  intro task world result final heval
  induction heval with
  | print => exact .print
  | @unknown name _ _ hname hnone =>
    have hsim := h name
    rw [hnone] at hsim
    cases htarget : second name with
    | none => exact .unknown hname htarget
    | some target => simp [htarget, Simulated] at hsim
  | @enter name args body _ _ _ hname hbody _ ih =>
    have hsim := h name
    rw [hbody] at hsim
    cases htarget : second name with
    | none => simp [htarget, Simulated] at hsim
    | some target =>
      rw [htarget] at hsim
      obtain ⟨simulation⟩ := hsim
      exact .enter hname htarget (ih target simulation _ _ (simulation.entry args))
  | go hnext _ ih =>
    intro target simulation control' frame' hrel
    obtain ⟨next', after', hsteps, hrel'⟩ := simulation.answer hnext hrel
    exact hsteps.eval (ih target simulation next' after' hrel')
  | done hnext =>
    intro target simulation control' frame' hrel
    obtain ⟨point, after, hsteps, hdone⟩ := simulation.answer hnext hrel
    exact hsteps.eval (.done hdone)
  | fail hnext =>
    intro target simulation control' frame' hrel
    obtain ⟨point, after, hsteps, hfail⟩ := simulation.answer hnext hrel
    exact hsteps.eval (.fail hfail)
  | callFailed hnext _ ih =>
    intro target simulation control' frame' hrel
    obtain ⟨point, after, collectors', resume', hsteps, hcall, -⟩ := simulation.answer hnext hrel
    exact hsteps.eval (.callFailed hcall ih)
  | @callShort _ _ _ _ _ _ _ _ results _ _ hnext _ hcollect ih =>
    intro target simulation control' frame' hrel
    obtain ⟨point, after, collectors', resume', hsteps, hcall, hcollected⟩ :=
      simulation.answer hnext hrel
    exact hsteps.eval (.callShort hcall ih (hcollect ▸ hcollected results).of_error)
  | @callReturned _ _ _ _ _ _ _ _ _ _ results _ _ hnext _ hcollect _ ihcall ihrest =>
    intro target simulation control' frame' hrel
    obtain ⟨point, after, collectors', resume', hsteps, hcall, hcollected⟩ :=
      simulation.answer hnext hrel
    obtain ⟨received, hcollect', hrel'⟩ := (hcollect ▸ hcollected results).of_ok
    exact hsteps.eval
      (.callReturned hcall ihcall hcollect' (ihrest target simulation _ _ hrel'))

end Program

end Flowgraph

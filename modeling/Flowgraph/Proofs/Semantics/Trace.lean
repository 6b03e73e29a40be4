import Flowgraph.Proofs.Semantics.Machine
import Mathlib.Logic.Relation

/-!
# What a body executes

An observation is a statement that a function executes or a way that a condition chooses, with the
frame and the world at that moment. A run of one body is a trail of spots; a spot may also be a call
that is being waited for.

One body mimics another if it can show the same next, after silent steps, at every pair of related
points (`Mimics`). It then has all trails of the other (`Mimics.trail`), and simulates it
(`Mimics.simulation`).
-/

namespace Flowgraph

variable {Control : Type} {frame : Frame} {world : World}

variable {instr : Instr}

/-! ### Observations -/

/-- Something that a function executes, in a frame and a world. -/
inductive Observation where
  | execute (instr : Instr) (frame : Frame) (world : World)
  | decide (cond : Expr) (way : Bool) (frame : Frame) (world : World)

/-- The execution of a statement. One that fails is not executed. -/
def Instr.executed (name : String) (frame : Frame) (world : World) (instr : Instr) :
    List Observation :=
  match instr.effect name frame world with
  | .fail _ => []
  | _ => [.execute instr frame world]

/-- A condition takes the true way if its value is not zero. -/
def Expr.decided (frame : Frame) (world : World) (cond : Expr) : List Observation :=
  match cond.eval frame.read world.heap.read with
  | .error _ => []
  | .ok value => [.decide cond (value != 0) frame world]

/-- What an instruction shows. -/
def Instr.events (name : String) (frame : Frame) (world : World) (instr : Instr) :
    List Observation :=
  match instr with
  | .branch cond _ => cond.decided frame world
  | _ => if instr.acts then instr.executed name frame world else []

/-- What a body shows at its points. -/
abbrev Log (Control : Type) :=
  Control → Frame → World → List Observation

/-- What code shows at its positions. -/
def Code.events (code : Code) (name : String) (pc : Nat) (frame : Frame) (world : World) :
    List Observation :=
  match code.instrs[pc]? with
  | none => []
  | some instr => instr.events name frame world

/-- Code logs what its instructions log. -/
theorem Code.events_ofInstrs {instrs : List Instr} {pc : Nat} (h : instrs[pc]? = some instr)
    (name : String) (frame : Frame) (world : World) :
    (ofInstrs instrs).events name pc frame world = instr.events name frame world := by
  simp [events, ofInstrs, h]

/-- Actors log what they execute. -/
theorem Instr.events_of_acts (h : instr.acts) (name : String) (frame : Frame)
    (world : World) : instr.events name frame world = instr.executed name frame world := by
  cases instr <;> simp_all [events, acts]

/-! ### Spots and trails -/

/-- Where the run of a body is. -/
inductive Spot (Control : Type) where
  | point (control : Control) (frame : Frame) (world : World)
  | waiting (callee : String) (args : List Word) (collectors : List String) (resume : Control)
      (frame : Frame) (world : World)
  | ended (result : Result) (world : World)

namespace Spot

/-- Where an action leads. -/
def follow (frame : Frame) (world : World) : Action Control → Spot Control
  | .go control after world' => .point control after world'
  | .call callee args collectors resume => .waiting callee args collectors resume frame world
  | .done results => .ended (.ok results) world
  | .fail error => .ended (.error error) world

/-- Where a call leads when it has ended. -/
def back (callee : String) (collectors : List String) (resume : Control) (frame : Frame)
    (result : Result) (world : World) : Spot Control :=
  match result with
  | .error error => .ended (.error error) world
  | .ok results =>
    match frame.collect callee 0 collectors results with
    | .error error => .ended (.error error) world
    | .ok received => .point resume received world

end Spot

/-- One move of a body, given by what it does next and what it shows. -/
inductive Moves {Control : Type} (program : Program)
    (next : Control → Frame → World → Action Control) (log : Log Control) :
    Spot Control → List Observation → Spot Control → Prop where
  | act (control : Control) (frame : Frame) (world : World) :
      Moves program next log (.point control frame world) (log control frame world)
        (.follow frame world (next control frame world))
  | back {callee : String} {args : List Word} {collectors : List String} {resume : Control}
      {frame : Frame} {world world' : World} {result : Result} :
      Eval program (.call callee args) world result world' →
      Moves program next log (.waiting callee args collectors resume frame world) []
        (.back callee collectors resume frame result world')

/-- Moves one after another, with all that they show. -/
inductive Trail {α : Type} (moves : α → List Observation → α → Prop) : α → List Observation → α →
    Prop where
  | refl {spot : α} : Trail moves spot [] spot
  | head {first second third : α} {events more : List Observation} :
      moves first events second → Trail moves second more third →
      Trail moves first (events ++ more) third

/-- Moves without an end. -/
def Endless {α : Type} (moves : α → List Observation → α → Prop) (first : α) : Prop :=
  ∃ spots : Nat → α, spots 0 = first ∧ ∀ n, ∃ events, moves (spots n) events (spots (n + 1))

section Trail

variable {α : Type} {moves : α → List Observation → α → Prop} {first second third : α}
  {events more : List Observation} {moves' : α → List Observation → α → Prop} {holds : α → Prop}

/-- One move. -/
theorem Trail.single (h : moves first events second) : Trail moves first events second :=
  List.append_nil events ▸ .head h .refl

/-- Trails compose. -/
theorem Trail.trans (h : Trail moves first events second) (h' : Trail moves second more third) :
    Trail moves first (events ++ more) third := by
  induction h with
  | refl => exact h'
  | head hmove _ ih =>
    rw [List.append_assoc]
    exact .head hmove (ih h')

/-- Determined moves without an end lead to no spot without a move. -/
theorem Endless.not_trail (h : Endless moves first)
    (hunique : ∀ {spot events events' next next'}, moves spot events next →
      moves spot events' next' → next = next')
    (hlast : ∀ events next, ¬ moves second events next) : ¬ Trail moves first events second := by
  intro htrail
  induction htrail with
  | refl =>
    obtain ⟨spots, hfirst, hmoves⟩ := h
    obtain ⟨shown, hmove⟩ := hmoves 0
    exact hlast _ _ (hfirst ▸ hmove)
  | @head spot next _ _ _ hmove _ ih =>
    -- the endless moves begin with the same one, and they have no end behind it either
    refine ih ?_ hlast
    obtain ⟨spots, hfirst, hmoves⟩ := h
    obtain ⟨shown, hother⟩ := hmoves 0
    rw [hfirst] at hother
    exact ⟨fun n => spots (n + 1), hunique hother hmove, fun n => hmoves (n + 1)⟩

variable
  (hmoves : ∀ {spot events next}, holds spot → moves spot events next → moves' spot events next ∧
    holds next)
  (hfirst : holds first)

include hmoves hfirst

/-- Moves that agree where they lead have the same trails. -/
theorem Trail.congr (h : Trail moves first events second) : Trail moves' first events second := by
  induction h with
  | refl => exact .refl
  | head hmove _ ih =>
    obtain ⟨hmove', hnext⟩ := hmoves hfirst hmove
    exact .head hmove' (ih hnext)

/-- Moves that agree go on alike. -/
theorem Endless.congr (h : Endless moves first) : Endless moves' first := by
  obtain ⟨spots, rfl, hall⟩ := h
  have hholds : ∀ n, holds (spots n) := by
    intro n
    induction n with
    | zero => exact hfirst
    | succ n ih =>
      obtain ⟨events, hmove⟩ := hall n
      exact (hmoves ih hmove).2
  refine ⟨spots, rfl, fun n => ?_⟩
  obtain ⟨events, hmove⟩ := hall n
  exact ⟨events, (hmoves (hholds n) hmove).1⟩

end Trail

/-! ### Mimicry -/

/-- Steps that show and change nothing. -/
def Glides {Control : Type} (next : Control → Frame → World → Action Control) (log : Log Control)
    (frame : Frame) (world : World) : Control → Control → Prop :=
  Relation.ReflTransGen fun control control' =>
    next control frame world = .go control' frame world ∧ log control frame world = []

namespace Glides

variable {next : Control → Frame → World → Action Control} {log : Log Control}
  {control control' : Control}

/-- One silent step. -/
theorem single (hnext : next control frame world = .go control' frame world)
    (hlog : log control frame world = []) : Glides next log frame world control control' :=
  Relation.ReflTransGen.single ⟨hnext, hlog⟩

/-- Gliding is stepping. -/
theorem steps {body : Body} {log : Log body.Control} {control control' : body.Control}
    (h : Glides body.next log frame world control control') :
    body.Steps control frame world control' frame world := by
  induction h using Relation.ReflTransGen.head_induction_on with
  | refl => exact .refl
  | head hfirst _ ih => exact .head hfirst.1 ih

/-- Gliding leaves an empty trail. -/
theorem trail (program : Program) (h : Glides next log frame world control control') :
    Trail (Moves program next log) (.point control frame world) []
      (.point control' frame world) := by
  induction h using Relation.ReflTransGen.head_induction_on with
  | refl => exact .refl
  | @head first _ hfirst _ ih =>
    have hmove : Moves program next log _ _ _ := .act first frame world
    rw [hfirst.1, hfirst.2] at hmove
    exact .head hmove ih

end Glides

section Mimicry

variable {Source Target : Type} {next : Source → Frame → World → Action Source} {log : Log Source}
  {next' : Target → Frame → World → Action Target} {log' : Log Target}
  {rel : Source → Target → Prop} {program : Program} {spot after : Spot Source}
  {spot' : Spot Target}

/-- Two actions that do the same and lead to related points. -/
def Alike (rel : Source → Target → Prop) : Action Source → Action Target → Prop
  | .go point frame world, .go point' frame' world' =>
    frame = frame' ∧ world = world' ∧ rel point point'
  | .call callee args collectors resume, .call callee' args' collectors' resume' =>
    callee = callee' ∧ args = args' ∧ collectors = collectors' ∧ rel resume resume'
  | .done results, .done results' => results = results'
  | .fail error, .fail error' => error = error'
  | _, _ => False

/-- What a body does next is mimicked: the other waits while it glides on, or does and shows the
same. -/
inductive Mimicked (next : Source → Frame → World → Action Source) (log : Log Source)
    (next' : Target → Frame → World → Action Target) (log' : Log Target)
    (rel : Source → Target → Prop) (frame : Frame) (world : World) (control : Source)
    (point : Target) : Prop where
  | wait {after : Source} : next control frame world = .go after frame world →
      log control frame world = [] → rel after point →
      Mimicked next log next' log' rel frame world control point
  | alike : log control frame world = log' point frame world →
      Alike rel (next control frame world) (next' point frame world) →
      Mimicked next log next' log' rel frame world control point

/-- One body is mimicked at related points, after silent steps of the other. -/
def Mimics (next : Source → Frame → World → Action Source) (log : Log Source)
    (next' : Target → Frame → World → Action Target) (log' : Log Target)
    (rel : Source → Target → Prop) : Prop :=
  ∀ control control' frame world, rel control control' → ∃ point,
    Glides next' log' frame world control' point ∧
      Mimicked next log next' log' rel frame world control point

/-- The same effect leads to related points. -/
theorem Alike.effect {resume : Source} {resume' : Target} (effect : Effect)
    (h : rel resume resume') : Alike rel (effect.action resume) (effect.action resume') := by
  cases effect with
  | proceed frame world => exact ⟨rfl, rfl, h⟩
  | call callee args collectors => exact ⟨rfl, rfl, rfl, h⟩
  | fail error => rfl

/-- The same condition chooses between alike ways. -/
theorem Alike.choose {name : String} {frame : Frame} {world : World} {cond : Expr}
    {onTrue onFalse : Action Source} {onTrue' onFalse' : Action Target}
    (htrue : Alike rel onTrue onTrue') (hfalse : Alike rel onFalse onFalse') :
    Alike rel (.choose name frame world cond onTrue onFalse)
      (.choose name frame world cond onTrue' onFalse') := by
  rw [Action.choose, Action.choose]
  cases cond.eval frame.read world.heap.read with
  | error failure => rfl
  | ok value =>
    by_cases hzero : value = 0
    · simp only [if_pos hzero]
      exact hfalse
    · simp only [if_neg hzero]
      exact htrue

/-- An action is answered by one that is alike. -/
theorem Alike.answered {source target : Body} {rel : source.Control → target.Control → Prop}
    {action : Action source.Control} {point : target.Control}
    (h : Alike rel action (target.next point frame world)) :
    Answered (fun control frame control' frame' => frame = frame' ∧ rel control control')
      frame world point frame action := by
  generalize hnext : target.next point frame world = action' at h
  cases action <;> cases action' <;> try exact h.elim
  case go.go =>
    obtain ⟨rfl, rfl, hrel⟩ := h
    exact ⟨_, _, .single hnext, rfl, hrel⟩
  case call.call =>
    obtain ⟨rfl, rfl, rfl, hrel⟩ := h
    refine ⟨point, frame, _, _, .refl, hnext, fun results => ?_⟩
    exact (collected_refl _).imp fun heq => ⟨heq, hrel⟩
  case done.done =>
    obtain rfl := h
    exact ⟨point, frame, .refl, hnext⟩
  case fail.fail =>
    obtain rfl := h
    exact ⟨point, frame, .refl, hnext⟩

/-- A body simulates what it mimics. -/
def Mimics.simulation {source target : Body} {log : Log source.Control} {log' : Log target.Control}
    {rel : source.Control → target.Control → Prop} (h : Mimics source.next log target.next log' rel)
    (hentry : rel source.entry target.entry) : Simulation source target where
  rel control frame control' frame' := frame = frame' ∧ rel control control'
  entry _ := ⟨rfl, hentry⟩
  step {control frame control' frame'} world hrel := by
    obtain ⟨rfl, hrel⟩ := hrel
    obtain ⟨point, hglides, hmimicked⟩ := h control control' frame world hrel
    cases hmimicked with
    | wait hnext _ hrel' =>
      rw [hnext]
      exact ⟨point, frame, hglides.steps, rfl, hrel'⟩
    | alike _ halike => exact .of_steps hglides.steps halike.answered

/-- Runs are at related points, wait for one call, or have ended alike. -/
inductive Spot.Alike (rel : Source → Target → Prop) : Spot Source → Spot Target → Prop where
  | point {control : Source} {control' : Target} {frame : Frame} {world : World} :
      rel control control' → Alike rel (.point control frame world) (.point control' frame world)
  | waiting {callee : String} {args : List Word} {collectors : List String} {resume : Source}
      {resume' : Target} {frame : Frame} {world : World} :
      rel resume resume' → Alike rel (.waiting callee args collectors resume frame world)
        (.waiting callee args collectors resume' frame world)
  | ended {result : Result} {world : World} : Alike rel (.ended result world) (.ended result world)

/-- Alike actions lead to spots that are alike. -/
theorem Alike.follow {action : Action Source} {action' : Action Target}
    (h : Alike rel action action') :
    Spot.Alike rel (.follow frame world action) (.follow frame world action') := by
  cases action <;> cases action' <;> try exact h.elim
  case go.go =>
    obtain ⟨rfl, rfl, hrel⟩ := h
    exact .point hrel
  case call.call =>
    obtain ⟨rfl, rfl, rfl, hrel⟩ := h
    exact .waiting hrel
  case done.done =>
    obtain rfl := h
    exact .ended
  case fail.fail =>
    obtain rfl := h
    exact .ended

/-- Returns are alike. -/
theorem Spot.Alike.back {callee : String} {collectors : List String} {resume : Source}
    {resume' : Target} (hrel : rel resume resume') (frame : Frame) (result : Result)
    (world : World) :
    Spot.Alike rel (.back callee collectors resume frame result world)
      (.back callee collectors resume' frame result world) := by
  cases result with
  | error error => exact .ended
  | ok results =>
    rw [Spot.back, Spot.back]
    cases frame.collect callee 0 collectors results with
    | error error => exact .ended
    | ok received => exact .point hrel

variable (h : Mimics next log next' log' rel) (halike : Spot.Alike rel spot spot')
include h halike

/-- A body that mimics another has its moves, after silent ones. -/
theorem Mimics.move {events : List Observation} (hmove : Moves program next log spot events after) :
    ∃ after', Trail (Moves program next' log') spot' events after' ∧
      Spot.Alike rel after after' := by
  cases hmove with
  | act control frame world =>
    cases halike with
    | @point _ control' _ _ hrel =>
      obtain ⟨point, hglides, hmimicked⟩ := h control control' frame world hrel
      have htrail := hglides.trail program
      cases hmimicked with
      | wait hnext hlog hrel' =>
        rw [hnext, hlog]
        exact ⟨_, htrail, .point hrel'⟩
      | alike hlog halike =>
        rw [hlog]
        exact ⟨_, htrail.trans (.single (.act point frame world)), halike.follow⟩
  | back heval =>
    cases halike with
    | waiting hrel => exact ⟨_, .single (.back heval), .back hrel _ _ _⟩

/-- A body that mimics another has its trails. -/
theorem Mimics.trail {events : List Observation}
    (htrail : Trail (Moves program next log) spot events after) :
    ∃ after', Trail (Moves program next' log') spot' events after' ∧
      Spot.Alike rel after after' := by
  induction htrail generalizing spot' with
  | refl => exact ⟨spot', .refl, halike⟩
  | head hmove _ ih =>
    obtain ⟨middle, hfirst, halike'⟩ := h.move halike hmove
    obtain ⟨after', hrest, hlast⟩ := ih halike'
    exact ⟨after', hfirst.trans hrest, hlast⟩

end Mimicry

end Flowgraph

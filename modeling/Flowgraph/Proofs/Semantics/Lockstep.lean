import Flowgraph.Proofs.Semantics.Graph

/-!
# Bodies in lockstep

Two bodies run in lockstep if they do the same at related points, where the second may go on by
quiet steps, which change nothing but the frame. Bodies in lockstep simulate each other
(`Lockstep.simulation`, `Lockstep.reverse`): the first waits while the second takes quiet steps.
-/

namespace Flowgraph

/-- Steps of a body that change nothing but the frame, in every world. -/
inductive Body.Quiet (body : Body) : body.Control → Frame → body.Control → Frame → Prop where
  | refl {control : body.Control} {frame : Frame} : body.Quiet control frame control frame
  | head {first second third : body.Control} {frame frame' frame'' : Frame} :
      (∀ world, body.next first frame world = .go second frame' world) →
      body.Quiet second frame' third frame'' → body.Quiet first frame third frame''

namespace Body.Quiet

variable {body : Body} {first second third : body.Control} {frame frame' frame'' : Frame}

/-- Quiet stretches compose. -/
theorem trans (h : body.Quiet first frame second frame')
    (h' : body.Quiet second frame' third frame'') : body.Quiet first frame third frame'' := by
  induction h with
  | refl => exact h'
  | head hnext _ ih => exact .head hnext (ih h')

/-- Quiet stretches are steps. -/
theorem steps (h : body.Quiet first frame second frame') (world : World) :
    body.Steps first frame world second frame' world := by
  induction h with
  | refl => exact .refl
  | head hnext _ ih => exact .head (hnext world) ih

end Body.Quiet

section Lockstep

variable {source target : Body} {rel : PointRel source target} {frame frame' : Frame}
  {world : World}

/-- Two bodies do the same, and quiet steps relate their points again. -/
def Matched (rel : PointRel source target) (frame frame' : Frame) :
    Action source.Control → Action target.Control → Prop
  | .go next after world, .go next' after' world' => world = world' ∧ ∃ point reached,
      target.Quiet next' after' point reached ∧ rel next after point reached
  | .call callee args collectors resume, .call callee' args' collectors' resume' =>
    callee = callee' ∧ args = args' ∧
      ∀ results, Collected (fun received received' => rel resume received resume' received')
        (frame.collect callee 0 collectors results) (frame'.collect callee 0 collectors' results)
  | .done results, .done results' => results = results'
  | .fail error, .fail error' => error = error'
  | _, _ => False

/-- Two bodies that do the same at related points. -/
structure Lockstep (source target : Body) where
  rel : PointRel source target
  entry : ∀ args, rel source.entry (.ofArguments args) target.entry (.ofArguments args)
  step : ∀ {control frame control' frame'} world, rel control frame control' frame' →
    Matched rel frame frame' (source.next control frame world) (target.next control' frame' world)

/-- Matched actions are answers. -/
theorem Matched.answered {control' : target.Control} {action : Action source.Control}
    (h : Matched rel frame frame' action (target.next control' frame' world)) :
    Answered rel frame world control' frame' action := by
  generalize hnext : target.next control' frame' world = action' at h
  cases action with
  | go next after world' =>
    cases action' with
    | go next' after' world'' =>
      obtain ⟨rfl, point, reached, hquiet, hrel⟩ := h
      exact ⟨point, reached, .head hnext (hquiet.steps _), hrel⟩
    | call | done | fail => exact h.elim
  | call callee args collectors resume =>
    cases action' with
    | call callee' args' collectors' resume' =>
      obtain ⟨rfl, rfl, hcollected⟩ := h
      exact ⟨control', frame', collectors', resume', .refl, hnext, hcollected⟩
    | go | done | fail => exact h.elim
  | done results =>
    cases action' with
    | done results' => exact ⟨control', frame', .refl, h ▸ hnext⟩
    | go | call | fail => exact h.elim
  | fail error =>
    cases action' with
    | fail error' => exact ⟨control', frame', .refl, h ▸ hnext⟩
    | go | call | done => exact h.elim

/-- The second body is related wherever quiet steps lead it to a related point. -/
def Waiting (rel : PointRel source target) : PointRel target source :=
  fun control' frame' control frame => ∃ point reached,
    target.Quiet control' frame' point reached ∧ rel control frame point reached

/-- Collected frames can be swapped. -/
theorem Collected.swap {first second : Except EvalError Frame} {rel : Frame → Frame → Prop}
    (h : Collected rel first second) : Collected (fun frame frame' => rel frame' frame) second
      first := by
  cases first <;> cases second <;> simp_all [Collected]

/-- Matched actions answer both ways. -/
theorem Matched.answered_reverse {control : source.Control} {action' : Action target.Control}
    (h : Matched rel frame frame' (source.next control frame world) action') :
    Answered (Waiting rel) frame' world control frame action' := by
  generalize hnext : source.next control frame world = action at h
  cases action' with
  | go next' after' world' =>
    cases action with
    | go next after world'' =>
      obtain ⟨rfl, hwaiting⟩ := h
      exact ⟨next, after, .single hnext, hwaiting⟩
    | call | done | fail => exact h.elim
  | call callee' args' collectors' resume' =>
    cases action with
    | call callee args collectors resume =>
      obtain ⟨rfl, rfl, hcollected⟩ := h
      refine ⟨control, frame, collectors, resume, .refl, hnext, fun results => ?_⟩
      exact (hcollected results).swap.imp fun hrel => ⟨_, _, .refl, hrel⟩
    | go | done | fail => exact h.elim
  | done results' =>
    cases action with
    | done results => exact ⟨control, frame, .refl, h ▸ hnext⟩
    | go | call | fail => exact h.elim
  | fail error' =>
    cases action with
    | fail error => exact ⟨control, frame, .refl, h ▸ hnext⟩
    | go | call | done => exact h.elim

namespace Lockstep

/-- The second of two bodies in lockstep simulates the first. -/
def simulation (lockstep : Lockstep source target) : Simulation source target where
  rel := lockstep.rel
  entry := lockstep.entry
  step world hrel := (lockstep.step world hrel).answered

/-- The first of two bodies in lockstep simulates the second. -/
def reverse (lockstep : Lockstep source target) : Simulation target source where
  rel := Waiting lockstep.rel
  entry args := ⟨_, _, .refl, lockstep.entry args⟩
  step := by
    rintro control' frame' control frame world ⟨point, reached, hquiet, hrel⟩
    cases hquiet with
    | refl => exact (lockstep.step world hrel).answered_reverse
    | head hnext hrest =>
      -- A quiet step of the second body; the first one waits.
      rw [hnext world]
      exact ⟨control, frame, .refl, point, reached, hrest, hrel⟩

end Lockstep

/-- Bodies that choose by conditions with the same value match, if both ways do. -/
theorem Matched.choose {name : String} {cond cond' : Expr} {onTrue onFalse : Action source.Control}
    {onTrue' onFalse' : Action target.Control}
    (heval : cond'.eval frame'.read world.heap.read = cond.eval frame.read world.heap.read)
    (htrue : Matched rel frame frame' onTrue onTrue')
    (hfalse : Matched rel frame frame' onFalse onFalse') :
    Matched rel frame frame' (.choose name frame world cond onTrue onFalse)
      (.choose name frame' world cond' onTrue' onFalse') := by
  rw [Action.choose, Action.choose, heval]
  cases cond.eval frame.read world.heap.read with
  | error failure => exact rfl
  | ok value =>
    by_cases hzero : value = 0
    · simp only [if_pos hzero]
      exact hfalse
    · simp only [if_neg hzero]
      exact htrue

end Lockstep

end Flowgraph

import Flowgraph.Flow.Basic
import Flowgraph.Proofs.Semantics.Trace

/-!
# Running a flow graph

At a node the instructions that it stands for are executed, and then control departs along an edge:
a condition chooses between its two ways, a return ends the function, and a spin stays where it is.
A point of the run is the list of instructions that are left at a node, and the node.
-/

namespace Flowgraph

open List

variable {frame : Frame} {world : World}

mutual

/-- The instructions that a node stands for. -/
def Node.instrs : Node → List Instr
  | .assign target value _ => [.move (.temp target) value]
  | .store address value _ => [.move (.mem address) value]
  | .call collectors callee args _ => [.call collectors callee args]
  | .block children _ => instrsList children
  | _ => []

/-- The instructions that several nodes in a row stand for. -/
def Node.instrsList : List Node → List Instr
  | [] => []
  | node :: rest => node.instrs ++ instrsList rest

end

mutual

/-- Every instruction of a node is that of a single node. -/
theorem Node.exists_single {instr : Instr} : ∀ {node : Node}, instr ∈ node.instrs →
    ∃ single : Node, single.instrs = [instr] ∧ single.kind ∈ [.assign, .store, .call]
  | .assign target value span, h =>
    ⟨.assign target value span, congrArg (fun instr => [instr]) (mem_singleton.mp h).symm,
      by simp [Node.kind]⟩
  | .store address value span, h =>
    ⟨.store address value span, congrArg (fun instr => [instr]) (mem_singleton.mp h).symm,
      by simp [Node.kind]⟩
  | .call collectors callee args span, h =>
    ⟨.call collectors callee args span,
      congrArg (fun instr => [instr]) (mem_singleton.mp h).symm, by simp [Node.kind]⟩
  | .block children _, h => Node.exists_single_of_list (by simpa [Node.instrs] using h)
  | .start _, h | .ret _, h | .branch _ _, h | .spin _, h | .phi _ _, h | .stub _, h => by
      simp [Node.instrs] at h

/-- Instructions come from single nodes. -/
theorem Node.exists_single_of_list {instr : Instr} : ∀ {nodes : List Node},
    instr ∈ Node.instrsList nodes →
    ∃ single : Node, single.instrs = [instr] ∧ single.kind ∈ [.assign, .store, .call]
  | [], h => by simp [Node.instrsList] at h
  | node :: rest, h => by
      rcases mem_append.mp (by simpa [Node.instrsList] using h) with h | h
      · exact Node.exists_single h
      · exact Node.exists_single_of_list h

end

/-- The instructions of nodes only act. -/
theorem Node.acts_of_mem_instrs {instr : Instr} {node : Node} (h : instr ∈ node.instrs) :
    instr.acts := by
  obtain ⟨single, hinstrs, hkind⟩ := Node.exists_single h
  cases single with
  | assign | store | call =>
    obtain rfl := singleton_inj.mp hinstrs
    rfl
  | _ => simp [Node.kind] at hkind

/-- A node that goes on to its first successor. -/
def Node.Onward (node : Node) : Prop :=
  node.kind ∈ [.start, .assign, .store, .call, .block]

namespace FlowGraph

variable {cfg : FlowGraph} {name : String} {id : NodeId} {node : Node}

/-- A point of a run: the instructions left at a node. -/
abbrev Point := List Instr × NodeId

/-- The point at which a node is entered. -/
def arrive (cfg : FlowGraph) (id : NodeId) : Point :=
  (((cfg.node? id).map Node.instrs).getD [], id)

/-- Go to another node. -/
def goTo (cfg : FlowGraph) (frame : Frame) (world : World) (id : NodeId) : Action Point :=
  .go (cfg.arrive id) frame world

/-- Where control goes from a node that is done. A node without the edges it needs keeps control
forever. -/
def depart (cfg : FlowGraph) (name : String) (id : NodeId) (frame : Frame) (world : World) :
    Action Point :=
  match cfg.node? id with
  | some (.ret _) => .done frame.results
  | some (.branch cond _) =>
    match cfg.successors id with
    | [onTrue, onFalse] => .choose name frame world cond (cfg.goTo frame world onTrue)
        (cfg.goTo frame world onFalse)
    | _ => cfg.goTo frame world id
  | some (.spin _) => cfg.goTo frame world id
  | _ =>
    match cfg.successors id with
    | next :: _ => cfg.goTo frame world next
    | [] => cfg.goTo frame world id

section Depart

variable {span : Span}

/-- Returns hand over the results. -/
theorem depart_ret (h : cfg.node? id = some (.ret span)) :
    cfg.depart name id frame world = .done frame.results := by
  simp [depart, h]

/-- Spins go to themselves. -/
theorem depart_spin (h : cfg.node? id = some (.spin span)) :
    cfg.depart name id frame world = cfg.goTo frame world id := by
  simp [depart, h]

/-- Branches choose. -/
theorem depart_branch {cond : Expr} {onTrue onFalse : NodeId}
    (h : cfg.node? id = some (.branch cond span)) (hsucc : cfg.successors id = [onTrue, onFalse]) :
    cfg.depart name id frame world = .choose name frame world cond (cfg.goTo frame world onTrue)
      (cfg.goTo frame world onFalse) := by
  simp [depart, h, hsucc]

/-- Other nodes go on. -/
theorem depart_onward {next : NodeId} {rest : List NodeId} (h : cfg.node? id = some node)
    (honward : node.Onward) (hsucc : cfg.successors id = next :: rest) :
    cfg.depart name id frame world = cfg.goTo frame world next := by
  cases node <;> simp_all [depart, Node.Onward, Node.kind]

/-- Arriving at a live node. -/
theorem arrive_eq (h : cfg.node? id = some node) : cfg.arrive id = (node.instrs, id) := by
  simp [arrive, h]

end Depart

/-- What a flow graph does next at a point. -/
def next (cfg : FlowGraph) (name : String) : Point → Frame → World → Action Point
  | (instr :: rest, id), frame, world => (instr.effect name frame world).action (rest, id)
  | ([], id), frame, world => cfg.depart name id frame world

/-- What a flow graph shows at a point: the next statement, or a decision. -/
def events (cfg : FlowGraph) (name : String) : Point → Frame → World → List Observation
  | (instr :: _, _), frame, world => instr.executed name frame world
  | ([], id), frame, world =>
    match cfg.node? id with
    | some (.branch cond _) => cond.decided frame world
    | _ => []

/-- Branches log their decision. -/
theorem events_branch {cond : Expr} {span : Span} (h : cfg.node? id = some (.branch cond span)) :
    cfg.events name ([], id) frame world = cond.decided frame world := by
  simp [events, h]

/-- Other nodes log nothing. -/
theorem events_of_kind (h : cfg.node? id = some node) (hkind : node.kind ≠ .branch) :
    cfg.events name ([], id) frame world = [] := by
  cases node <;> simp_all [events, Node.kind]

/-- At a node without instructions control departs at once. -/
theorem next_arrive (h : cfg.node? id = some node) (hinstrs : node.instrs = []) :
    cfg.next name (cfg.arrive id) frame world = cfg.depart name id frame world := by
  rw [arrive_eq h, hinstrs, next]

end FlowGraph

/-- A flow graph as the body of a function. -/
def Body.ofGraph (name : String) (cfg : FlowGraph) : Body :=
  ⟨FlowGraph.Point, cfg.arrive cfg.start, cfg.next name⟩

/-! ### Answers that both kinds of bodies give -/

section Answers

variable {source target : Body} {rel : PointRel source target} {control' : target.Control}

/-- Bodies with the same effect next answer each other, if the points behind it are related. -/
theorem Answered.effect {effect : Effect} {resume : source.Control} {resume' : target.Control}
    (hnext : target.next control' frame world = effect.action resume')
    (hrel : ∀ after, rel resume after resume' after) :
    Answered rel frame world control' frame (effect.action resume) := by
  cases effect with
  | proceed after world' => exact ⟨resume', after, .single hnext, hrel after⟩
  | call callee args collectors =>
    refine ⟨control', frame, collectors, resume', .refl, hnext, fun results => ?_⟩
    exact (collected_refl _).imp fun heq => heq ▸ hrel _
  | fail error => exact ⟨control', frame, .refl, hnext⟩

/-- Bodies that choose by the same condition answer each other, if both ways are answered. -/
theorem Answered.choose {name : String} {cond : Expr} {onTrue onFalse : Action source.Control}
    {onTrue' onFalse' : Action target.Control}
    (hnext : target.next control' frame world = .choose name frame world cond onTrue' onFalse')
    (htrue : target.next control' frame world = onTrue' →
      Answered rel frame world control' frame onTrue)
    (hfalse : target.next control' frame world = onFalse' →
      Answered rel frame world control' frame onFalse) :
    Answered rel frame world control' frame (.choose name frame world cond onTrue onFalse) := by
  rw [Action.choose] at hnext ⊢
  cases hcond : cond.eval frame.read world.heap.read with
  | error failure =>
    simp only [hcond] at hnext
    exact ⟨control', frame, .refl, hnext⟩
  | ok value =>
    simp only [hcond] at hnext ⊢
    split at hnext
    · next hzero => rw [if_pos hzero]; exact hfalse hnext
    · next hzero => rw [if_neg hzero]; exact htrue hnext

end Answers

end Flowgraph

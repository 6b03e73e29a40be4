import Flowgraph.Proofs.Flow.Emission
import Flowgraph.Proofs.Ssa.Shape
import Flowgraph.Proofs.Ssa.Versions

/-!
# What renaming leaves of a node

Renaming keeps the kind of a node, the number of its slots and whether it can be written
(`Node.outline`), at every node of a graph (`FlowGraph.sameOutline_rename`).
-/

namespace Flowgraph

/-- A node without its names: its kind, its slots and whether it is writable. -/
def Node.outline (node : Node) : Kind × Option Nat × Bool :=
  (node.kind, node.phi?.map Phi.arity, node.isWritable)

/-- Renaming a target keeps the arity. -/
theorem Phi.arity_renameTarget (phi : Phi) (old new : String) :
    (phi.renameTarget old new).arity = phi.arity := by
  rw [renameTarget]
  split <;> rfl

/-- Filling slots keeps the arity. -/
theorem Phi.arity_foldl_fillSlot (phi : Phi) (slots : List Nat) (change : String → String) :
    (slots.foldl (fun phi slot => phi.fillSlot slot change) phi).arity = phi.arity := by
  induction slots generalizing phi with
  | nil => rfl
  | cons slot rest ih => exact ih _

namespace Scope

/-- Defining targets keeps the arity. -/
theorem arity_defineTargets (scope : Scope) (phi : Phi) (targets : List String) :
    (scope.defineTargets phi targets).2.arity = phi.arity := by
  induction targets generalizing scope phi with
  | nil => rfl
  | cons target rest ih => exact (ih _ _).trans (Phi.arity_renameTarget ..)

mutual

/-- Renamed nodes stay straight. -/
theorem isStraight_renameNode (scope : Scope) :
    ∀ node : Node, (scope.renameNode node).2.isStraight = node.isStraight
  | .assign _ _ _ => by
      rw [renameNode]
      split <;> simp only [Node.isStraight]
  | .store _ _ _ | .call _ _ _ _ | .branch _ _ | .phi _ _ | .start _ | .ret _ | .spin
      _ | .stub _ => by
      simp only [renameNode, Node.isStraight]
  | .block children _ => by
      simp only [renameNode, Node.isStraight]
      exact isStraightList_renameNodes scope children

/-- Renamed lists stay straight. -/
theorem isStraightList_renameNodes (scope : Scope) :
    ∀ nodes : List Node,
      Node.isStraightList (scope.renameNodes nodes).2 = Node.isStraightList nodes
  | [] => by simp only [renameNodes]
  | node :: rest => by
      simp only [renameNodes, Node.isStraightList]
      rw [isStraight_renameNode scope node, isStraightList_renameNodes _ rest]

end

/-- A renamed node has the outline of the node. -/
theorem outline_renameNode (scope : Scope) (node : Node) :
    (scope.renameNode node).2.outline = node.outline := by
  cases node with
  | assign =>
    rw [renameNode]
    split <;> rfl
  | block children span =>
    simp only [renameNode, Node.outline, Node.kind, Node.phi?, Node.isWritable]
    rw [isStraightList_renameNodes]
  | phi phi span =>
    simp only [renameNode, Node.outline, Node.kind, Node.phi?, Node.isWritable, Option.map_some,
      arity_defineTargets]
  | store | call | branch =>
    simp only [renameNode]
    rfl
  | start | ret | spin | stub => simp only [renameNode]

end Scope

namespace FlowGraph

variable {cfg cfg' : FlowGraph} {id : NodeId}

/-- The nodes of two flow graphs have the same outlines. -/
def SameOutline (cfg cfg' : FlowGraph) : Prop :=
  ∀ id, (cfg'.node? id).map Node.outline = (cfg.node? id).map Node.outline

namespace SameOutline

/-- Outlines are their own. -/
theorem refl (cfg : FlowGraph) : SameOutline cfg cfg := fun _ => rfl

/-- Outlines stay the same in two steps. -/
theorem trans {cfg'' : FlowGraph} (h : SameOutline cfg cfg') (h' : SameOutline cfg' cfg'') :
    SameOutline cfg cfg'' := fun id => (h' id).trans (h id)

/-- A node gets another text with the same outline. -/
theorem setPayload {old node : Node} (hold : cfg.node? id = some old)
    (h : node.outline = old.outline) :
    SameOutline cfg (cfg.withGraph (cfg.setPayload id node)) := by
  intro other
  have hset : (cfg.withGraph (cfg.setPayload id node)).node? other =
      if id = other then (cfg.node? other).map fun _ => node else cfg.node? other :=
    Graph.payload?_setPayload ..
  rw [hset]
  split
  · next heq =>
    subst heq
    rw [hold, Option.map_some, Option.map_some, Option.map_some, h]
  · rfl

/-- Outlines fix the kinds. -/
theorem kind? (h : SameOutline cfg cfg') (id : NodeId) : cfg'.kind? id = cfg.kind? id := by
  have hkinds := congrArg (Option.map Prod.fst) (h id)
  rw [Option.map_map, Option.map_map] at hkinds
  exact hkinds

/-- Every node has its counterpart. -/
theorem exists_node (h : SameOutline cfg cfg') {node' : Node} (hnode : cfg'.node? id = some node') :
    ∃ node, cfg.node? id = some node ∧ node.outline = node'.outline := by
  have hsome := h id
  rw [hnode, Option.map_some] at hsome
  exact Option.map_eq_some_iff.mp hsome.symm

/-- Phi nodes keep their number of slots. -/
theorem exists_phi (h : SameOutline cfg cfg') {phi : Phi} {span : Span}
    (hnode : cfg'.node? id = some (.phi phi span)) :
    ∃ old span', cfg.node? id = some (.phi old span') ∧ old.arity = phi.arity := by
  obtain ⟨node, hold, houtline⟩ := h.exists_node hnode
  cases node with
  | phi old span' =>
    refine ⟨old, span', hold, ?_⟩
    simpa [Node.outline, Node.kind, Node.phi?] using congrArg (fun outline => outline.2.1) houtline
  | _ => cases congrArg Prod.fst houtline

end SameOutline

end FlowGraph

/-! ### Renaming a graph -/

namespace Renaming

open FlowGraph (SameOutline)

/-- Filling a slot keeps the outline. -/
theorem sameOutline_fillSuccessor (versions : Versions) (id : NodeId) (cfg : FlowGraph)
    (successor : NodeId) : SameOutline cfg (fillSuccessor versions id cfg successor) := by
  rw [fillSuccessor]
  split
  · next phi span hnode =>
    refine .setPayload hnode ?_
    simp only [Node.outline, Node.kind, Node.phi?, Node.isWritable, Option.map_some,
      Phi.arity_foldl_fillSlot]
  · exact .refl cfg

/-- Entering keeps the outline. -/
theorem sameOutline_enter (state : Renaming) (id : NodeId) :
    SameOutline state.cfg (state.enter id).1.cfg := by
  have hfill : ∀ (versions : Versions) (successors : List NodeId) (cfg : FlowGraph),
      SameOutline cfg (successors.foldl (fillSuccessor versions id) cfg) := by
    intro versions successors
    induction successors with
    | nil => exact .refl
    | cons first rest ih =>
      exact fun cfg => (sameOutline_fillSuccessor versions id cfg first).trans (ih _)
  rw [enter]
  split
  · exact .refl _
  · next node hnode =>
    exact (SameOutline.setPayload hnode (Scope.outline_renameNode _ node)).trans (hfill _ _ _)

end Renaming

/-- Renaming keeps the outlines of all nodes. -/
theorem FlowGraph.sameOutline_rename (cfg : FlowGraph) (vars : List String) :
    SameOutline cfg (cfg.rename vars) :=
  Renaming.rel_walk .refl (fun h h' => h.trans h') Renaming.sameOutline_enter _ _
    ⟨cfg, .ofVars vars⟩ _

end Flowgraph

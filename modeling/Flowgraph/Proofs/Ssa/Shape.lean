import Flowgraph.Proofs.Flow.Sound
import Flowgraph.Ssa.Convert
import Flowgraph.Ssa.Revert

/-!
# The shape of graphs in single assignment form

Renaming changes the texts of nodes and no edge (`FlowGraph.sameShape_rename`). Phi blocks are put
in and taken out by insertions and by edges between live nodes, so that sound graphs stay sound.
-/

namespace Flowgraph

open List

variable {cfg cfg' : FlowGraph}

namespace FlowGraph

/-- Two flow graphs with the same nodes and edges. -/
structure SameShape (cfg cfg' : FlowGraph) : Prop where
  start : cfg'.start = cfg.start
  contains : ∀ id, cfg'.contains id = cfg.contains id
  outgoing : ∀ id, cfg'.outgoing id = cfg.outgoing id
  incoming : ∀ id, cfg'.incoming id = cfg.incoming id

namespace SameShape

/-- Nothing changes. -/
theorem refl (cfg : FlowGraph) : SameShape cfg cfg :=
  ⟨rfl, fun _ => rfl, fun _ => rfl, fun _ => rfl⟩

/-- Shapes stay the same in two steps. -/
theorem trans {cfg'' : FlowGraph} (h : SameShape cfg cfg') (h' : SameShape cfg' cfg'') :
    SameShape cfg cfg'' where
  start := h'.start.trans h.start
  contains id := (h'.contains id).trans (h.contains id)
  outgoing id := (h'.outgoing id).trans (h.outgoing id)
  incoming id := (h'.incoming id).trans (h.incoming id)

/-- Payloads keep the shape. -/
theorem setPayload (cfg : FlowGraph) (id : NodeId) (node : Node) :
    SameShape cfg (cfg.withGraph (cfg.setPayload id node)) where
  start := rfl
  contains _ := Graph.contains_setPayload ..
  outgoing _ := Graph.outgoing_setPayload ..
  incoming _ := Graph.incoming_setPayload ..

/-- Changes of texts made one after another. -/
theorem foldl {β : Type} {change : FlowGraph → β → FlowGraph}
    (hstep : ∀ cfg item, SameShape cfg (change cfg item)) (items : List β) (cfg : FlowGraph) :
    SameShape cfg (items.foldl change cfg) := by
  induction items generalizing cfg with
  | nil => exact refl cfg
  | cons item rest ih => exact (hstep cfg item).trans (ih _)

variable (h : SameShape cfg cfg')
include h

/-- Shapes fix the successors. -/
theorem successors (id : NodeId) : cfg'.successors id = cfg.successors id := by
  rw [Graph.successors, h.outgoing, Graph.successors]

/-- Shapes fix what is reached. -/
theorem reaches_iff {id : NodeId} : cfg'.Reaches cfg'.start id ↔ cfg.Reaches cfg.start id := by
  simp only [Graph.Reaches, h.successors, h.start]

/-- Shapes fix the predecessors. -/
theorem predecessors (id : NodeId) : cfg'.predecessors id = cfg.predecessors id := by
  rw [Graph.predecessors, h.incoming, Graph.predecessors]

/-- Shapes fix soundness. -/
theorem sound (hcfg : cfg.Sound) : cfg'.Sound where
  graph :=
    { mirrored := by
        intro source target label
        rw [h.outgoing, h.incoming]
        exact hcfg.graph.mirrored
      outgoing_nodup := fun id => h.outgoing id ▸ hcfg.graph.outgoing_nodup id
      incoming_nodup := fun id => h.incoming id ▸ hcfg.graph.incoming_nodup id
      true_first := fun id => h.outgoing id ▸ hcfg.graph.true_first id }
  start := by
    rw [h.start, h.contains]
    exact hcfg.start

end SameShape

end FlowGraph

/-! ### Renaming -/

namespace Renaming

open FlowGraph (SameShape)

/-- Filling a slot keeps the shape. -/
theorem sameShape_fillSuccessor (versions : Versions) (id : NodeId) (cfg : FlowGraph)
    (successor : NodeId) : SameShape cfg (fillSuccessor versions id cfg successor) := by
  rw [fillSuccessor]
  split
  · exact .setPayload ..
  · exact .refl cfg

/-- Entering keeps the shape. -/
theorem sameShape_enter (state : Renaming) (id : NodeId) :
    SameShape state.cfg (state.enter id).1.cfg := by
  rw [enter]
  split
  · exact .refl _
  · exact (SameShape.setPayload ..).trans (.foldl (sameShape_fillSuccessor _ _) _ _)

/-- What entering a node keeps is kept along the dominator tree. -/
theorem rel_walk {R : FlowGraph → FlowGraph → Prop} (hrefl : ∀ cfg, R cfg cfg)
    (htrans : ∀ {first second third}, R first second → R second third → R first third)
    (henter : ∀ (state : Renaming) id, R state.cfg (state.enter id).1.cfg) (tree : DominatorTree)
    (depth : Nat) (state : Renaming) (id : NodeId) :
    R state.cfg (walk tree depth state id).cfg := by
  induction depth generalizing state id with
  | zero => exact hrefl _
  | succ depth ih =>
    have hall : ∀ (children : List NodeId) (state : Renaming),
        R state.cfg (children.foldl (walk tree depth) state).cfg := by
      intro children
      induction children with
      | nil => exact fun state => hrefl _
      | cons child rest ihrest => exact fun state => htrans (ih state child) (ihrest _)
    exact htrans (henter state id) (hall _ _)

/-- Renaming along the dominator tree changes no edge. -/
theorem sameShape_walk (tree : DominatorTree) (depth : Nat) (state : Renaming) (id : NodeId) :
    SameShape state.cfg (walk tree depth state id).cfg :=
  rel_walk .refl (fun h h' => h.trans h') sameShape_enter tree depth state id

end Renaming

namespace FlowGraph

/-- Renaming keeps the shape. -/
theorem sameShape_rename (cfg : FlowGraph) (vars : List String) : SameShape cfg (cfg.rename vars) :=
  Renaming.sameShape_walk _ _ ⟨cfg, .ofVars vars⟩ _

/-! ### Soundness -/

namespace Sound

variable {placement : NodeId × List String} {count : Nat} {successor : NodeId} {phi : Phi}

/-- A phi block in front of a live node. -/
theorem grown_placePhi (h : cfg.Sound) (count : Nat) (hid : cfg.contains placement.1) :
    Graph.Grown cfg.toGraph (placePhi (cfg, count) placement).1.toGraph ∧
      (placePhi (cfg, count) placement).1.Sound := by
  rw [placePhi]
  dsimp only
  split
  · exact ⟨.refl h.graph, h⟩
  · exact ⟨h.grown_prependChain hid (by simp), h.prependChain hid (by simp)⟩

/-- Phi blocks in front of live nodes. -/
theorem foldl_placePhi (h : cfg.Sound) {placements : List (NodeId × List String)}
    (hids : ∀ placement ∈ placements, cfg.contains placement.1) :
    (placements.foldl placePhi (cfg, count)).1.Sound := by
  induction placements generalizing cfg count with
  | nil => exact h
  | cons placement rest ih =>
    obtain ⟨hgrown, hsound⟩ := h.grown_placePhi count (hids placement mem_cons_self)
    exact ih hsound fun other hother => hgrown.live (hids other (mem_cons_of_mem _ hother))

/-- Placements are at live nodes. -/
theorem contains_of_mem_placements (h : placement ∈ cfg.placements) :
    cfg.contains placement.1 := by
  simp only [placements, mem_filterMap, Option.ite_none_left_eq_some] at h
  obtain ⟨id, hid, -, hplacement⟩ := h
  rw [← Option.some.inj hplacement]
  exact Graph.mem_nodes.mp hid

section

variable (h : cfg.Sound)
include h

/-- Placing keeps a flow graph sound. -/
theorem placePhis : cfg.placePhis.1.Sound :=
  h.foldl_placePhi fun _ => contains_of_mem_placements

/-- Conversion keeps it sound. -/
theorem toSsa (hssa : cfg.toSsa = .ok (cfg', count)) : cfg'.Sound := by
  rw [FlowGraph.toSsa] at hssa
  split at hssa
  · cases hssa
  · cases hssa
    exact (sameShape_rename ..).sound h.placePhis

/-- An edge that is led past a phi block. -/
theorem grown_bypass (phi : Phi) (span : Span) {entry : Link × Nat}
    (hsource : cfg.contains entry.1.1) (hsuccessor : cfg.contains successor) :
    Graph.Grown cfg.toGraph (bypass phi successor span cfg entry).toGraph ∧
      (bypass phi successor span cfg entry).Sound := by
  have hjoined : Graph.Grown cfg.toGraph (cfg.addEdge ⟨entry.1.1, successor, entry.1.2⟩) :=
    (Graph.Grown.refl h.graph).addEdge hsource hsuccessor
  rw [bypass]
  split
  · exact ⟨hjoined, h.grown hjoined⟩
  · next hcopies =>
    have hcopies : copiesFor phi entry.2 span ≠ [] := by simpa using hcopies
    exact ⟨hjoined.trans ((h.grown hjoined).grown_splitEdge (hjoined.live hsource)
      (hjoined.live hsuccessor) hcopies),
      (h.grown hjoined).splitEdge (hjoined.live hsource) (hjoined.live hsuccessor) hcopies⟩

/-- Edges that are led past keep it sound. -/
theorem foldl_bypass {span : Span} {entries : List (Link × Nat)}
    (hsources : ∀ entry ∈ entries, cfg.contains entry.1.1)
    (hsuccessor : cfg.contains successor) :
    (entries.foldl (bypass phi successor span) cfg).Sound := by
  induction entries generalizing cfg with
  | nil => exact h
  | cons entry rest ih =>
    obtain ⟨hgrown, hsound⟩ := h.grown_bypass phi span
      (hsources entry mem_cons_self) hsuccessor
    refine ih hsound (fun other hother => ?_) (hgrown.live hsuccessor)
    exact hgrown.live (hsources other (mem_cons_of_mem _ hother))

/-- The ends of the edges that are led past a phi block outlive it. -/
theorem live_erase {id : NodeId} (hsucc : cfg.successors id = [successor]) (hne : successor ≠ id) :
    (∀ entry ∈ (cfg.incoming id).zipIdx, (cfg.withGraph (cfg.erase id)).contains entry.1.1) ∧
      (cfg.withGraph (cfg.erase id)).contains successor := by
  have hmem : successor ∈ cfg.successors id := by simp [hsucc]
  refine ⟨fun entry hentry => ?_, ?_⟩
  · have hlink : (entry.1.1, entry.1.2) ∈ cfg.incoming id := fst_mem_of_mem_zipIdx hentry
    have hother : id ≠ entry.1.1 := by
      rintro heq
      rw [← heq] at hlink
      have hself : id ∈ cfg.successors id :=
        Graph.mem_successors.mpr ⟨_, h.graph.mirrored.mpr hlink⟩
      rw [hsucc, mem_singleton] at hself
      exact hne hself.symm
    simp [withGraph, Graph.contains_erase, hother, h.graph.contains_source hlink]
  · simp [withGraph, Graph.contains_erase, Ne.symm hne, h.graph.contains_successor hmem]

/-- Reverting a phi block keeps it sound. -/
theorem revertPhi {id : NodeId} (hrevert : cfg.revertPhi id phi = .done cfg') : cfg'.Sound := by
  rw [FlowGraph.revertPhi] at hrevert
  split at hrevert
  · next successor hsucc =>
    split at hrevert
    · cases hrevert
    next hne =>
    split at hrevert
    · cases hrevert
    next hstart =>
    cases hrevert
    obtain ⟨hsources, hsuccessor⟩ := h.live_erase hsucc hne
    exact (h.remove hstart).foldl_bypass hsources hsuccessor
  · cases hrevert

end

/-- Reversion keeps it sound. -/
theorem fromSsa (h : cfg.Sound) : cfg.fromSsa.1.Sound := by
  suffices hall : ∀ (phis : List (NodeId × Phi)) (cfg : FlowGraph), cfg.Sound →
      (cfg.revertAll phis).1.Sound from hall _ _ h
  intro phis
  induction phis with
  | nil => exact fun cfg h => h
  | cons entry rest ih =>
    intro cfg h
    rw [revertAll]
    split
    · next next hnext => exact ih next (h.revertPhi hnext)
    · exact h
    · exact h

end Sound

end FlowGraph

end Flowgraph

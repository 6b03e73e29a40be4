import Flowgraph.Proofs.Flow.Splicing
import Flowgraph.Proofs.Ssa.Shape
import Flowgraph.Ssa.Checked

/-!
# No edit of the passes is refused

In a sound graph the checked conversion to single assignment form and the checked way back do what
the plain ones do (`FlowGraph.Sound.toSsaChecked_eq`, `FlowGraph.Sound.fromSsaChecked_eq`). Phi
blocks are placed in front of live nodes, and what enters a phi block and what it leads to outlive
it, so that the edges past it can be joined and then split.
-/

namespace Flowgraph

open FlowGraph

variable {cfg : FlowGraph} {id successor : NodeId} {phi : Phi} {count : Nat}
  {placement : NodeId × List String}

namespace Splicing

section

variable (h : cfg.Sound)
include h

/-- A phi block in front of a live node is placed as a whole. -/
theorem run_placePhi (hid : cfg.contains placement.1) :
    (placePhi count placement).run cfg =
      .ok (FlowGraph.placePhi (cfg, count) placement).2
        (FlowGraph.placePhi (cfg, count) placement).1 := by
  unfold placePhi FlowGraph.placePhi
  simp only [EStateM.run_bind, EStateM.run_get]
  split
  · rfl
  · rw [EStateM.run_bind, run_prepend h, FlowGraph.prepend, FlowGraph.spliceAt, hid]
    rfl

/-- Phi blocks in front of live nodes are placed one after another. -/
theorem run_foldlM_placePhi {placements : List (NodeId × List String)}
    (hids : ∀ placement ∈ placements, cfg.contains placement.1) :
    (placements.foldlM placePhi count).run cfg =
      .ok (placements.foldl FlowGraph.placePhi (cfg, count)).2
        (placements.foldl FlowGraph.placePhi (cfg, count)).1 := by
  induction placements generalizing cfg count with
  | nil => rfl
  | cons placement rest ih =>
    obtain ⟨hid, hrest⟩ := List.forall_mem_cons.mp hids
    obtain ⟨hgrown, hsound⟩ := h.grown_placePhi count hid
    rw [List.foldlM_cons, run_bind_of_ok (run_placePhi h hid)]
    exact ih hsound fun other hother => hgrown.live (hrest other hother)

/-- An edge between live nodes is led past a phi block as a whole. -/
theorem run_bypass {span : Span} {entry : Link × Nat} (hsource : cfg.contains entry.1.1)
    (hsuccessor : cfg.contains successor) :
    (bypass phi successor span entry).run cfg =
      .ok () (FlowGraph.bypass phi successor span cfg entry) := by
  have hjoined : Graph.Grown cfg.toGraph (cfg.addEdge ⟨entry.1.1, successor, entry.1.2⟩) :=
    (Graph.Grown.refl h.graph).addEdge hsource hsuccessor
  have hedge : (cfg.withGraph (cfg.addEdge ⟨entry.1.1, successor, entry.1.2⟩)).hasEdge
      ⟨entry.1.1, successor, entry.1.2⟩ = true := (Graph.hasEdge_addEdge hsource).mpr (.inr rfl)
  have hjoin : (edit (Graph.Editing.join ⟨entry.1.1, successor, entry.1.2⟩)).run cfg = .ok () _ :=
    run_edit_of_ok (Graph.Editing.run_join_of_contains hsource hsuccessor)
  rw [bypass, run_bind_of_ok hjoin, EStateM.run_bind, run_innerInsert (h.grown hjoined),
    FlowGraph.innerInsert, hedge, FlowGraph.bypass]
  cases (copiesFor phi entry.2 span).isEmpty <;> rfl

/-- Edges between live nodes are led past a phi block in turn. -/
theorem run_forM_bypass {span : Span} {entries : List (Link × Nat)}
    (hsources : ∀ entry ∈ entries, cfg.contains entry.1.1)
    (hsuccessor : cfg.contains successor) :
    (entries.forM (bypass phi successor span)).run cfg =
      .ok () (entries.foldl (FlowGraph.bypass phi successor span) cfg) := by
  induction entries generalizing cfg with
  | nil => rfl
  | cons entry rest ih =>
    obtain ⟨hsource, hrest⟩ := List.forall_mem_cons.mp hsources
    obtain ⟨hgrown, hsound⟩ := h.grown_bypass phi span hsource hsuccessor
    rw [List.forM, run_bind_of_ok (run_bypass h hsource hsuccessor)]
    exact ih hsound (fun other hother => hgrown.live (hrest other hother)) (hgrown.live hsuccessor)

/-- A phi block with one other successor is taken out as a whole. -/
theorem run_revertPhi (hsucc : cfg.successors id = [successor]) (hne : successor ≠ id)
    (hstart : id ≠ cfg.start) : (revertPhi id successor phi).run cfg =
      .ok () ((cfg.incoming id).zipIdx.foldl
        (FlowGraph.bypass phi successor (cfg.spanOf successor))
          (cfg.withGraph (cfg.erase id))) := by
  obtain ⟨hsources, hsuccessor⟩ := h.live_erase hsucc hne
  obtain ⟨label, hedge⟩ := Graph.mem_successors.mp (by rw [hsucc]; exact List.mem_singleton_self _)
  obtain ⟨node, hnode⟩ := FlowGraph.exists_node (Graph.contains_of_mem_outgoing hedge)
  have hremove := Graph.Editing.run_remove h.graph id
  rw [Graph.remove_eq_ok hnode] at hremove
  have hspan : (cfg.withGraph (cfg.erase id)).spanOf successor = cfg.spanOf successor := by
    simp only [spanOf, node?, withGraph, Graph.payload?_erase, if_neg (Ne.symm hne)]
  rw [revertPhi, run_bind_of_ok (EStateM.run_get _), run_bind_of_ok (run_edit_of_ok hremove),
    run_bind_of_ok (EStateM.run_get _), hspan,
    run_forM_bypass (h.remove hstart) hsources hsuccessor]

end

end Splicing

namespace FlowGraph.Sound

variable (h : cfg.Sound)
include h

/-- The checked conversion does what the plain one does. -/
theorem toSsaChecked_eq : cfg.toSsaChecked = .ofBreaches cfg.toSsa := by
  have hplaced : Splicing.placePhis.run cfg = .ok cfg.placePhis.2 cfg.placePhis.1 := by
    rw [Splicing.placePhis, run_bind_of_ok (EStateM.run_get _),
      Splicing.run_foldlM_placePhi h fun _ => contains_of_mem_placements, FlowGraph.placePhis]
  rw [toSsaChecked, hplaced, FlowGraph.toSsa]
  rcases cfg.placePhis with ⟨placed, count⟩
  cases cfg.reachesStub <;> rfl

/-- Checked edits take out a phi block as plain ones do. -/
theorem revertPhiChecked_eq (id : NodeId) (phi : Phi) : cfg.revertPhiChecked id phi =
    match cfg.revertPhi id phi with
    | .done next => (next, .done ())
    | .failed error => (cfg, .failed error)
    | .broken breach => (cfg, .broken breach) := by
  rw [revertPhiChecked, FlowGraph.revertPhi]
  rcases hsucc : cfg.successors id with _ | ⟨successor, _ | ⟨other, rest⟩⟩
  · rfl
  · by_cases hne : successor = id
    · simp only [if_pos hne]
    · by_cases hstart : id = cfg.start
      · simp only [if_neg hne, if_pos hstart]
      · simp only [if_neg hne, if_neg hstart, Splicing.run_revertPhi h hsucc hne hstart]
  · rfl

/-- The checked way back does what the plain one does. -/
theorem fromSsaChecked_eq : cfg.fromSsaChecked = cfg.fromSsa := by
  have hall : ∀ (phis : List (NodeId × Phi)) {cfg : FlowGraph}, cfg.Sound →
      cfg.revertAllChecked phis = cfg.revertAll phis := by
    intro phis
    induction phis with
    | nil => exact fun _ => rfl
    | cons entry rest ih =>
      intro cfg h
      rw [revertAllChecked, h.revertPhiChecked_eq, revertAll]
      cases hrevert : cfg.revertPhi entry.1 entry.2 with
      | done next => exact ih (h.revertPhi hrevert)
      | failed | broken => rfl
  rw [fromSsaChecked, hall _ h]
  rfl

end FlowGraph.Sound

end Flowgraph

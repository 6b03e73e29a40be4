import Flowgraph.Proofs.Dominance.Tree
import Flowgraph.Proofs.Flow.Assembled
import Flowgraph.Proofs.Flow.Component
import Flowgraph.Proofs.Graph.Distance
import Flowgraph.Proofs.Graph.Edit

/-!
# Traversals

A graph is searched with a stack, with a queue, and depth first for the numbers by which dominators
are found and for a postorder. All of these agree on what can be reached (`traversals_agree`). The
nodes of the queue come by distance, and parents in the depth-first tree lie across edges and are
smaller.
-/

namespace Flowgraph

/-- Both searches from a node find what can be reached from it. -/
structure Graph.SearchesAgree {α : Type} (g : Graph α) (start : NodeId) : Prop where
  collected : ∀ id, id ∈ g.reachableFrom start ↔ g.Reaches start id
  listed : ∀ id, id ∈ g.breadthFirst start ↔ g.Reaches start id
  listed_once : (g.breadthFirst start).Nodup
  nearest_first : (g.breadthFirst start).Pairwise fun id other =>
    g.distance start id ≤ g.distance start other

/-- The searches find the same nodes. -/
theorem Graph.Sound.searchesAgree {α : Type} {g : Graph α} (hg : g.Sound) {start : NodeId}
    (hstart : g.contains start) : g.SearchesAgree start where
  collected _ := Graph.mem_reachableFrom hg hstart
  listed _ := Graph.mem_breadthFirst hg hstart
  listed_once := Graph.nodup_breadthFirst hg hstart
  nearest_first := g.pairwise_breadthFirst start

/-- No node is entered twice. -/
theorem Walk.Sane.nodup_entered {next : NodeId → List NodeId} {walk : Walk}
    (h : Walk.Sane next walk) : walk.entered.toList.Nodup := by
  rw [List.nodup_iff_getElem?_ne_getElem?]
  intro i j hij hj heq
  obtain ⟨id, hid⟩ : ∃ id, walk.entered[j]? = some id := by
    rw [Array.length_toList] at hj
    exact ⟨_, Array.getElem?_eq_getElem hj⟩
  rw [Array.getElem?_toList, Array.getElem?_toList, hid] at heq
  have hnumber := h.number_iff.mpr heq
  rw [h.number_iff.mpr hid] at hnumber
  exact Nat.ne_of_gt hij (Option.some.inj hnumber)

namespace FlowGraph

/-- The depth-first searches of a flow graph: the one from the start numbers what control can reach,
and the one of all nodes leaves each of them once. -/
structure WalksAgree (cfg : FlowGraph) : Prop where
  entered : ∀ id, id ∈ cfg.walk.entered ↔ id ∈ cfg.reachableFrom cfg.start
  entered_once : cfg.walk.entered.toList.Nodup
  number : ∀ (id : NodeId) (k : Nat), cfg.walk.number[id]? = some k ↔ cfg.walk.entered[k]? = some id
  root : cfg.walk.entered[0]? = some cfg.start
  parent : ∀ (id : NodeId) (k : Nat), 0 < k → cfg.walk.entered[k]? = some id →
    ∃ j above, cfg.walk.parents[k]? = some j ∧ j < k ∧ cfg.walk.entered[j]? = some above ∧
      above ∈ cfg.predecessors id
  left : ∀ id, id ∈ cfg.postorder ↔ cfg.contains id
  left_once : cfg.postorder.Nodup

variable {cfg : FlowGraph}

/-- The walk finds the same nodes. -/
theorem Sound.walksAgree (h : cfg.Sound) : cfg.WalksAgree where
  entered id := by
    rw [Graph.mem_reachableFrom h.graph h.start, h.reaches_iff, Array.mem_iff_getElem?]
    constructor
    · rintro ⟨k, hk⟩
      exact ⟨k, (Array.getElem?_eq_some_iff.mp hk).1, Walk.node_eq_of_getElem? hk⟩
    · rintro ⟨k, hk, rfl⟩
      exact ⟨k, Walk.getElem?_of_lt hk⟩
  entered_once := h.walk_sane.nodup_entered
  number _ _ := h.walk_sane.number_iff
  root := h.walk_sane.number_iff.mp h.walk_spec.2
  parent id k hpos hk := by
    have hlt : k < cfg.walk.entered.size := (Array.getElem?_eq_some_iff.mp hk).1
    have hsmaller : cfg.walk.parent k < k := h.searchTree.parent_lt hpos hlt
    have hedge := h.searchTree.parent_edge hpos hlt
    refine ⟨cfg.walk.parent k, cfg.walk.node (cfg.walk.parent k), ?_, hsmaller,
      Walk.getElem?_of_lt hedge.1, ?_⟩
    · have hparents : k < cfg.walk.parents.size := h.walk_sane.parents_size ▸ hlt
      simp [Walk.parent, hparents]
    · rw [← Walk.node_eq_of_getElem? hk]
      exact h.graph.mem_predecessors_iff.mpr hedge.2.2
  left _ := h.mem_postorder
  left_once := h.nodup_postorder

end FlowGraph

/-- All searches of a graph agree on what can be reached, whatever edits have made it. -/
theorem traversals_agree :
    (∀ (α : Type) (edits : List (Graph.Edit α)) (start : NodeId),
      (Graph.Edit.runAll edits {}).2.contains start →
        (Graph.Edit.runAll edits {}).2.SearchesAgree start) ∧
      ∀ cfg : FlowGraph, cfg.Assembled →
        (∀ start, cfg.contains start → cfg.toGraph.SearchesAgree start) ∧ cfg.WalksAgree := by
  refine ⟨fun α edits start hstart => ?_, fun cfg hcfg => ⟨fun start hstart => ?_, ?_⟩⟩
  · exact (Graph.Edit.sound_runAll Graph.Sound.empty edits).searchesAgree hstart
  · exact hcfg.sound.graph.searchesAgree hstart
  · exact hcfg.sound.walksAgree

/-- A circle that is entered twice, two edges between the same nodes, a node that leads to itself,
and one that was removed. -/
def ravelled : List (Graph.Edit Unit) :=
  [.insert (), .insert (), .insert (), .insert (), .insert (), .join ⟨0, 1, some true⟩,
    .join ⟨0, 1, some false⟩,
    .join ⟨0, 4, none⟩, .join ⟨1, 2, none⟩, .join ⟨2, 0, none⟩, .join ⟨2, 2, some true⟩,
      .join ⟨2, 3, none⟩,
    .join ⟨4, 3, none⟩, .join ⟨3, 1, none⟩, .remove 4, .join ⟨0, 3, none⟩]

/-- A loop with a way into its middle, and a circle out of reach. -/
def FlowGraph.twisted : FlowGraph :=
  .ofNodes .dummy [.branch (.temp "x") .dummy, .branch (.temp "y") .dummy, .spin .dummy,
      .branch (.temp "z") .dummy, .assign "i" (.const 1) .dummy]
    [⟨0, 1, none⟩, ⟨1, 3, some false⟩, ⟨1, 2, some true⟩, ⟨2, 1, some true⟩, ⟨2, 3, some false⟩,
      ⟨3, 3, none⟩, ⟨4, 5, some true⟩, ⟨4, 1, some false⟩, ⟨5, 4, none⟩]

/-- Graphs with crossing edges. -/
theorem traversals_agree_twisted :
    (Graph.Edit.runAll ravelled {}).2.contains 0 ∧
      (Graph.Edit.runAll ravelled {}).2.SearchesAgree 0 ∧
      (Graph.Edit.runAll ravelled {}).2.breadthFirst 0 = [0, 1, 3, 2] ∧
      FlowGraph.twisted.Assembled ∧ FlowGraph.twisted.contains 4 ∧
      FlowGraph.twisted.toGraph.SearchesAgree 4 ∧
        FlowGraph.twisted.breadthFirst 4 = [4, 5, 1, 2, 3] ∧
      FlowGraph.twisted.WalksAgree ∧ FlowGraph.twisted.walk.entered = #[0, 1, 2, 3] ∧
      FlowGraph.twisted.postorder = [5, 3, 2, 1, 4, 0] := by
  have hlive : (Graph.Edit.runAll ravelled {}).2.contains 0 := by decide +kernel
  have hassembled : FlowGraph.twisted.Assembled := .ofNodes ..
  have hstray : FlowGraph.twisted.contains 4 := by decide +kernel
  obtain ⟨hsearches, hwalks⟩ := traversals_agree.2 FlowGraph.twisted hassembled
  exact ⟨hlive, traversals_agree.1 Unit ravelled 0 hlive, by decide +kernel, hassembled, hstray,
    hsearches 4 hstray, by decide +kernel, hwalks, by decide +kernel, by decide +kernel⟩

end Flowgraph

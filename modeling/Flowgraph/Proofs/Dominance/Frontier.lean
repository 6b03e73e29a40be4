import Flowgraph.Dominance.Frontier
import Flowgraph.Proofs.Dominance.Tree

/-!
# Dominance frontiers

`InFrontier` says by paths at which nodes dominance ends, and the frontiers found from the leaves of
the dominator tree up are these (`FlowGraph.Sound.mem_frontiers`). The step is `inFrontier_iff`.
-/

namespace Flowgraph

open List

namespace FlowGraph

variable {cfg : FlowGraph} {x y : NodeId}

/-- A predecessor is dominated, and the node is not strictly dominated. -/
def InFrontier (cfg : FlowGraph) (x y : NodeId) : Prop :=
  ∃ n, cfg.Dominates x n ∧ y ∈ cfg.successors n ∧ ¬ cfg.StrictlyDominates x y

/-- Frontiers are reached. -/
theorem InFrontier.reaches (h : cfg.InFrontier x y) : cfg.Reaches cfg.start y := by
  obtain ⟨n, hdom, hsucc, -⟩ := h
  exact hdom.1.tail hsucc

variable (h : cfg.Sound)
include h

/-- The same, seen from the node in the frontier. -/
theorem Sound.inFrontier_iff_predecessor : cfg.InFrontier x y ↔
    (∃ p ∈ cfg.predecessors y, cfg.Dominates x p) ∧ ¬ cfg.StrictlyDominates x y := by
  constructor
  · rintro ⟨p, hdom, hsucc, hnot⟩
    exact ⟨⟨p, h.graph.mem_predecessors_iff.mpr hsucc, hdom⟩, hnot⟩
  · rintro ⟨⟨p, hp, hdom⟩, hnot⟩
    exact ⟨p, hdom, h.graph.mem_predecessors_iff.mp hp, hnot⟩

/-- Frontiers come from successors and the frontiers of children. -/
theorem Sound.inFrontier_iff (hx : cfg.Reaches cfg.start x) :
    cfg.InFrontier x y ↔ ¬ cfg.StrictlyDominates x y ∧
      (y ∈ cfg.successors x ∨ ∃ c ∈ cfg.dominatorTree.childrenOf x, cfg.InFrontier c y) := by
  constructor
  · rintro ⟨n, hdom, hsucc, hnot⟩
    refine ⟨hnot, ?_⟩
    rcases (h.dominates_iff_child hx).mp hdom with rfl | ⟨c, hc, hcn⟩
    · exact .inl hsucc
    · refine .inr ⟨c, hc, n, hcn, hsucc, fun hcy => hnot ?_⟩
      have hxc := (h.idom?_eq_some_iff.mp (h.mem_childrenOf.mp hc)).1
      refine ⟨?_, hxc.2.trans hcy.2⟩
      rintro rfl
      exact hxc.1 (h.dominates_antisymm hxc.2 hcy.2)
  · rintro ⟨hnot, hsucc | ⟨c, hc, n, hcn, hsucc, -⟩⟩
    · exact ⟨x, .refl hx, hsucc, hnot⟩
    · have hxc := (h.idom?_eq_some_iff.mp (h.mem_childrenOf.mp hc)).1
      exact ⟨n, hxc.2.trans hcn, hsucc, hnot⟩

/-- Behind a node in preorder stand all its children. -/
theorem Sound.mem_of_preorder {c : NodeId} {before after : List NodeId}
    (hsplit : cfg.dominatorTree.preorder = before ++ x :: after)
    (hc : c ∈ cfg.dominatorTree.childrenOf x) : c ∈ after := by
  obtain ⟨before', after', hsplit', hx⟩ := h.preorder_order (h.mem_childrenOf.mp hc)
  have hnodup := h.preorder_spec.1
  rw [hsplit] at hnodup hsplit'
  have hnot : x ∉ before := fun hmem =>
    (nodup_append.mp hnodup).2.2 x hmem x mem_cons_self rfl
  rcases append_eq_append_iff.mp hsplit' with ⟨rest, hbefore, hafter⟩ | ⟨rest, hbefore, -⟩
  · cases rest with
    | nil => exact absurd (by simpa [hbefore] using hx) hnot
    | cons first rest =>
      obtain ⟨-, rfl⟩ := cons_eq_cons.mp hafter
      simp
  · exact absurd (by simp [hbefore, hx]) hnot

/-- Frontiers come from those of the children. -/
theorem Sound.mem_frontierFrom {known : NodeMap NodeSet} (hx : cfg.Reaches cfg.start x)
    (hknown : ∀ c ∈ cfg.dominatorTree.childrenOf x, ∀ y, y ∈ known.getD c ∅ ↔ cfg.InFrontier c y) :
    y ∈ cfg.dominatorTree.frontierFrom cfg known x ↔ cfg.InFrontier x y := by
  rw [h.inFrontier_iff hx, DominatorTree.frontierFrom, Std.ExtTreeSet.mem_ofList,
    contains_iff_mem, mem_filter, mem_append, mem_flatMap, and_comm]
  simp only [Std.ExtTreeSet.mem_toList]
  refine and_congr ?_ (or_congr_right (exists_congr fun c => and_congr_right fun hc =>
    hknown c hc y))
  rw [← h.tree_strictlyDominates_iff]
  simp

/-- The frontiers of the nodes from some point of the preorder on. -/
theorem Sound.mem_foldr_frontierFrom {before rest : List NodeId}
    (hsplit : cfg.dominatorTree.preorder = before ++ rest) (x y : NodeId) :
    y ∈ (rest.foldr (fun id (known : NodeMap NodeSet) =>
      known.insert id (cfg.dominatorTree.frontierFrom cfg known id)) ∅).getD x ∅ ↔
        x ∈ rest ∧ cfg.InFrontier x y := by
  induction rest generalizing before x y with
  | nil => simp
  | cons first rest ih =>
    have hrest := ih (show _ = (before ++ [first]) ++ rest by simpa using hsplit)
    have hfirst : cfg.Reaches cfg.start first :=
      (h.preorder_spec.2 first).mp (by simp [hsplit])
    rw [foldr_cons, Std.ExtTreeMap.getD_insert]
    by_cases heq : first = x
    · subst heq
      simp only [Std.compare_self, if_true, mem_cons, true_or, true_and]
      refine h.mem_frontierFrom hfirst fun c hc y => (hrest c y).trans ?_
      exact and_iff_right (h.mem_of_preorder hsplit hc)
    · simp only [Nat.compare_eq_eq, heq, if_false, mem_cons, Ne.symm heq, false_or]
      exact hrest x y

/-- The frontiers are the nodes at which dominance ends. -/
theorem Sound.mem_frontiers : y ∈ cfg.frontiers.getD x ∅ ↔ cfg.InFrontier x y := by
  rw [frontiers, DominatorTree.frontiers, foldl_reverse,
    h.mem_foldr_frontierFrom (nil_append _).symm]
  refine and_iff_right_of_imp fun hxy => (h.preorder_spec.2 x).mpr ?_
  obtain ⟨n, hdom, -⟩ := hxy
  exact hdom.reaches_left

end FlowGraph

end Flowgraph

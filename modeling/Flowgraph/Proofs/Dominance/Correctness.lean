import Flowgraph.Proofs.Dominance.Frontier
import Flowgraph.Proofs.Flow.Assembled

/-!
# The dominator tree and the frontiers are correct

The dominator tree of every flow graph that can be made is the tree of its immediate dominators,
with dominance defined by paths from the start (`FlowGraph.dominatorTree_correct`), and its
frontiers are the nodes at which dominance ends (`FlowGraph.frontiers_correct`).
-/

namespace Flowgraph

namespace FlowGraph

variable {cfg : FlowGraph} {b : NodeId}

/-- Immediate dominators are unique. -/
theorem Sound.idom?_spec (h : cfg.Sound) (hb : cfg.Reaches cfg.start b) (hne : b ≠ cfg.start) :
    ∃ d, cfg.dominatorTree.idom? b = some d ∧ cfg.IsImmediateDominator d b ∧
      ∀ e, cfg.IsImmediateDominator e b → e = d := by
  obtain ⟨d, hd⟩ := h.exists_idom hb hne
  have himm := h.idom?_eq_some_iff.mp hd
  exact ⟨d, hd, himm, fun e he => h.isImmediateDominator_unique he himm⟩

/-- The reached nodes other than the start are children of one node. -/
theorem Sound.exists_childrenOf_iff (h : cfg.Sound) :
    (∃ p, b ∈ cfg.dominatorTree.childrenOf p) ↔ cfg.Reaches cfg.start b ∧ b ≠ cfg.start := by
  simp only [h.mem_childrenOf]
  constructor
  · rintro ⟨p, hp⟩
    by_contra hnot
    have hnone : cfg.dominatorTree.idom? b = none := h.idom?_eq_none_iff.mpr (by tauto)
    simp [hp] at hnone
  · rintro ⟨hb, hne⟩
    exact h.exists_idom hb hne

/-- Children have one parent. -/
theorem Sound.childrenOf_unique (h : cfg.Sound) {p q : NodeId}
    (hp : b ∈ cfg.dominatorTree.childrenOf p) (hq : b ∈ cfg.dominatorTree.childrenOf q) : p = q :=
  Option.some.inj ((h.mem_childrenOf.mp hp).symm.trans (h.mem_childrenOf.mp hq))

/-- The dominator tree agrees with dominance by paths: in what it says of two nodes, in the
immediate dominators, in its lists of children and in its preorder. -/
theorem dominatorTree_correct (hcfg : cfg.Assembled) :
    (∀ a b, cfg.dominatorTree.dominates a b ↔
      cfg.Reaches cfg.start b ∧ ∀ nodes, cfg.Path cfg.start b nodes → a ∈ nodes) ∧
    (∀ b, b = cfg.start ∨ ¬ cfg.Reaches cfg.start b → cfg.dominatorTree.idom? b = none) ∧
    (∀ b, cfg.Reaches cfg.start b → b ≠ cfg.start →
      ∃ d, cfg.dominatorTree.idom? b = some d ∧ cfg.IsImmediateDominator d b ∧
        ∀ e, cfg.IsImmediateDominator e b → e = d) ∧
    (∀ b, (∃ p, b ∈ cfg.dominatorTree.childrenOf p) ↔ cfg.Reaches cfg.start b ∧ b ≠ cfg.start) ∧
    (∀ p q b, b ∈ cfg.dominatorTree.childrenOf p → b ∈ cfg.dominatorTree.childrenOf q → p = q) ∧
    (∀ p, (cfg.dominatorTree.childrenOf p).Nodup) ∧
    cfg.dominatorTree.preorder.Nodup ∧
    (∀ b, b ∈ cfg.dominatorTree.preorder ↔ cfg.Reaches cfg.start b) ∧
    (∀ b d, cfg.dominatorTree.idom? b = some d → ∃ before after,
      cfg.dominatorTree.preorder = before ++ b :: after ∧ d ∈ before) := by
  have h := hcfg.sound
  exact ⟨fun _ _ => h.tree_dominates_iff, fun _ => h.idom?_eq_none_iff.mpr, fun _ => h.idom?_spec,
    fun _ => h.exists_childrenOf_iff, fun _ _ _ => h.childrenOf_unique, h.nodup_childrenOf,
    h.preorder_spec.1, h.preorder_spec.2, fun _ _ => h.preorder_order⟩

/-- The frontier of a node that control reaches lists, by increasing number, the nodes with a
predecessor that the node dominates and that it does not strictly dominate itself. The frontier of
any other node is empty. -/
theorem frontiers_correct (hcfg : cfg.Assembled) (x : NodeId) :
    (cfg.frontiers.getD x ∅).toList.Pairwise (· < ·) ∧
    (cfg.Reaches cfg.start x → ∀ y, y ∈ (cfg.frontiers.getD x ∅).toList ↔
      (∃ p ∈ cfg.predecessors y, cfg.Dominates x p) ∧ ¬ cfg.StrictlyDominates x y) ∧
    (¬ cfg.Reaches cfg.start x → (cfg.frontiers.getD x ∅).toList = []) := by
  have h := hcfg.sound
  have hmem : ∀ y, y ∈ (cfg.frontiers.getD x ∅).toList ↔ cfg.InFrontier x y := fun y =>
    Std.ExtTreeSet.mem_toList.trans h.mem_frontiers
  refine ⟨?_, fun _ y => ?_, fun hnot => ?_⟩
  · exact Std.ExtTreeSet.ordered_toList.imp fun hlt => Nat.compare_eq_lt.mp hlt
  · rw [hmem, h.inFrontier_iff_predecessor]
  · refine List.eq_nil_iff_forall_not_mem.mpr fun y hy => hnot ?_
    obtain ⟨p, hdom, -⟩ := (hmem y).mp hy
    exact hdom.reaches_left

/-- A loop that is entered at both of its nodes, with edges to itself and back to the start, and a
node out of reach that leads into the loop. -/
def crossing : FlowGraph :=
  .ofNodes .dummy [.branch (.temp "x") .dummy, .branch (.temp "y") .dummy, .spin .dummy]
    [⟨0, 1, some true⟩, ⟨0, 2, some false⟩, ⟨1, 2, none⟩, ⟨2, 1, none⟩, ⟨2, 2, none⟩, ⟨2, 0, none⟩,
      ⟨3, 1, none⟩]

/-- Neither node of the loop dominates the other. -/
theorem dominatorTree_correct_crossing :
    crossing.Assembled ∧ crossing.IsImmediateDominator 0 1 ∧ crossing.IsImmediateDominator 0 2 ∧
      ¬ crossing.Reaches crossing.start 3 := by
  have hcrossing : crossing.Assembled := .ofNodes ..
  obtain ⟨-, -, himm, -, -, -, -, hpreorder, -⟩ := dominatorTree_correct hcrossing
  have hone : crossing.dominatorTree.idom? 1 = some 0 := by decide +kernel
  have htwo : crossing.dominatorTree.idom? 2 = some 0 := by decide +kernel
  have hlist : crossing.dominatorTree.preorder = [0, 1, 2] := by decide +kernel
  have hreach : ∀ b, b ∈ [0, 1, 2] ↔ crossing.Reaches crossing.start b := hlist ▸ hpreorder
  obtain ⟨d, hd, hd', -⟩ := himm 1 ((hreach 1).mp (by simp)) (by decide +kernel)
  obtain ⟨e, he, he', -⟩ := himm 2 ((hreach 2).mp (by simp)) (by decide +kernel)
  obtain rfl : d = 0 := Option.some.inj (hd.symm.trans hone)
  obtain rfl : e = 0 := Option.some.inj (he.symm.trans htwo)
  exact ⟨hcrossing, hd', he', fun h => by simpa using (hreach 3).mpr h⟩

/-- The second node of the loop is in its own frontier. -/
theorem frontiers_correct_crossing :
    crossing.Assembled ∧ crossing.Reaches crossing.start 2 ∧
      (∀ y, (∃ p ∈ crossing.predecessors y, crossing.Dominates 2 p) ∧
        ¬ crossing.StrictlyDominates 2 y ↔ y = 0 ∨ y = 1 ∨ y = 2) ∧
      ¬ crossing.Reaches crossing.start 3 ∧ (crossing.frontiers.getD 3 ∅).toList = [] := by
  have hcrossing : crossing.Assembled := .ofNodes ..
  have hreached : ∀ b, b ∈ [0, 1, 2] ↔ crossing.Reaches crossing.start b := by
    have hlist : crossing.reached = [0, 1, 2] := by decide +kernel
    exact fun b => hlist ▸ hcrossing.sound.mem_reached
  have htwo : crossing.Reaches crossing.start 2 := (hreached 2).mp (by simp)
  have hthree : ¬ crossing.Reaches crossing.start 3 := fun h => by simpa using (hreached 3).mpr h
  have hfrontier : (crossing.frontiers.getD 2 ∅).toList = [0, 1, 2] := by decide +kernel
  obtain ⟨-, hinside, -⟩ := frontiers_correct hcrossing 2
  obtain ⟨-, -, houtside⟩ := frontiers_correct hcrossing 3
  refine ⟨hcrossing, htwo, fun y => ?_, hthree, houtside hthree⟩
  rw [← hinside htwo y, hfrontier]
  simp

end FlowGraph

end Flowgraph

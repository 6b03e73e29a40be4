import Flowgraph.Proofs.Dominance.Paths
import Flowgraph.Proofs.Dominance.Sweep

/-!
# The dominator tree

The depth-first walk of a sound flow graph is a search tree (`Sound.searchTree`), so the sweep finds
the immediate dominators of the numbers. This module carries the result back to the nodes: the tree
holds exactly the immediate dominators (`idom?_eq_some_iff`).
-/

namespace Flowgraph

open List

open Relation (ReflTransGen)

namespace FlowGraph

variable {cfg : FlowGraph} {id a b c d p : NodeId} {w k : Nat} {v : Nat} {e : NodeId}

/-! ### The walk from the start -/

/-- An edge between the numbers of the walk. -/
def NumberEdge (cfg : FlowGraph) (i j : Nat) : Prop :=
  i < cfg.walk.entered.size ∧ j < cfg.walk.entered.size ∧
    cfg.walk.node j ∈ cfg.successors (cfg.walk.node i)

section

variable (h : cfg.Sound)
include h

/-- The walk searches from the start. -/
theorem Sound.walk_spec : Walk.Searched cfg.successors {} 0 [cfg.start] cfg.walk ∧
      cfg.walk.number[cfg.start]? = some 0 := by
  have hspec := Walk.visit_spec h.successors_live .empty (Graph.mem_nodes.mpr h.start)
    (Walk.length_unentered_le_size {} _) (.inl rfl)
  exact ⟨hspec.1, hspec.2 (by simp)⟩

/-- The walk is sane. -/
theorem Sound.walk_sane : Walk.Sane cfg.successors cfg.walk :=
  h.walk_spec.1.sane

/-- The start is entered first. -/
theorem Sound.walk_node_zero : cfg.walk.node 0 = cfg.start :=
  h.walk_sane.node_of_number h.walk_spec.2

/-- Some node is entered. -/
theorem Sound.walk_size_pos : 0 < cfg.walk.entered.size :=
  h.walk_sane.lt_of_number h.walk_spec.2

/-- Different numbers belong to different nodes. -/
theorem Sound.node_injective {i j : Nat} (hi : i < cfg.walk.entered.size)
    (hj : j < cfg.walk.entered.size) (heq : cfg.walk.node i = cfg.walk.node j) : i = j := by
  have hnumber := h.walk_sane.number_node hi
  rw [heq, h.walk_sane.number_node hj] at hnumber
  exact (Option.some.inj hnumber).symm

end

/-- Only the root of a walk from one node is its own parent. -/
theorem eq_zero_of_parent_eq {parent : Nat → Nat} (h : Ancestor parent 0 v) (hself : parent v = v) :
    v = 0 := by
  induction h with
  | refl => rfl
  | @step v _ ih =>
    have hzero := ih (by rw [hself, hself])
    omega

/-- The walk is a search tree for the edges between its numbers. -/
theorem Sound.searchTree (h : cfg.Sound) :
    SearchTree cfg.walk.entered.size cfg.walk.parent cfg.NumberEdge := by
  have hsane := h.walk_sane
  have hroot : ∀ {v}, 0 < v → v < cfg.walk.entered.size → cfg.walk.parent v ≠ v :=
    fun hpos hv hself =>
      Nat.ne_of_gt hpos (eq_zero_of_parent_eq (h.walk_spec.1.below (Nat.zero_le _) hv) hself)
  refine ⟨hsane.parent_le, ?_, ?_, ?_, ?_, ?_⟩
  · exact fun hpos hv => Nat.lt_of_le_of_ne (hsane.parent_le _) (hroot hpos hv)
  · exact fun hpos hv => ⟨Nat.lt_of_le_of_lt (hsane.parent_le _) hv, hv,
      hsane.parent_edge hv (hroot hpos hv)⟩
  · exact fun hpos hv => hsane.previous hv (hroot hpos hv)
  · rintro u v ⟨hu, hv, hedge⟩ huv
    obtain ⟨j, hj, hbelow⟩ := h.walk_spec.1.explored (Nat.zero_le _) hu _ hedge
    rw [hsane.number_node hv] at hj
    cases hj
    exact hbelow huv
  · exact fun hedge => ⟨hedge.1, hedge.2.1⟩

/-- The walk numbers exactly the nodes that can be reached. -/
theorem Sound.reaches_iff (h : cfg.Sound) :
    cfg.Reaches cfg.start id ↔ ∃ k < cfg.walk.entered.size, cfg.walk.node k = id := by
  have hsane := h.walk_sane
  refine ⟨fun hid => ?_, ?_⟩
  · refine hid.closed (S := fun id => ∃ k < cfg.walk.entered.size, cfg.walk.node k = id)
      ⟨0, h.walk_size_pos, h.walk_node_zero⟩ ?_
    rintro _ ⟨k, hk, rfl⟩ other hother
    obtain ⟨j, hj, -⟩ := h.walk_spec.1.explored (Nat.zero_le _) hk other hother
    exact ⟨j, hsane.lt_of_number hj, hsane.node_of_number hj⟩
  · rintro ⟨k, hk, rfl⟩
    have hpath := h.searchTree.path_down (h.searchTree.ancestor_zero hk) hk
      (P := fun _ => True) fun _ _ => trivial
    rw [← h.walk_node_zero]
    exact hpath.lift cfg.walk.node fun _ _ hstep => hstep.1.2.2

/-- Going round a node is going round its number. -/
theorem Sound.bypass_iff (h : cfg.Sound) {d : Nat} (hd : d < cfg.walk.entered.size)
    (hw : w < cfg.walk.entered.size) :
    Bypass cfg.Adjacent cfg.start (cfg.walk.node d) (cfg.walk.node w) ↔
      Bypass cfg.NumberEdge 0 d w := by
  have hsane := h.walk_sane
  constructor
  · rintro ⟨hne, hpath⟩
    have hnumbers : ∀ {id}, ReflTransGen (fun a b => cfg.Adjacent a b ∧ b ≠ cfg.walk.node d)
        cfg.start id → ∃ k < cfg.walk.entered.size, cfg.walk.node k = id ∧
          ReflTransGen (fun a b => cfg.NumberEdge a b ∧ b ≠ d) 0 k := by
      intro id hid
      induction hid with
      | refl => exact ⟨0, h.walk_size_pos, h.walk_node_zero, .refl⟩
      | tail _ hlast ih =>
        obtain ⟨k, hk, rfl, hway⟩ := ih
        obtain ⟨j, hj, -⟩ := h.walk_spec.1.explored (Nat.zero_le _) hk _ hlast.1
        have hj' := hsane.lt_of_number hj
        have hnode := hsane.node_of_number hj
        refine ⟨j, hj', hnode, hway.tail ⟨⟨hk, hj', hnode ▸ hlast.1⟩, ?_⟩⟩
        rintro rfl
        exact hlast.2 hnode.symm
    obtain ⟨k, hk, hnode, hway⟩ := hnumbers hpath
    rw [h.node_injective hk hw hnode] at hway
    refine ⟨?_, hway⟩
    rintro rfl
    exact hne h.walk_node_zero.symm
  · rintro ⟨hne, hpath⟩
    rw [← h.walk_node_zero]
    refine ⟨fun heq => hne (h.node_injective h.walk_size_pos hd heq), ?_⟩
    refine hpath.lift cfg.walk.node fun a b hstep => ⟨hstep.1.2.2, fun heq => ?_⟩
    exact hstep.2 (h.node_injective hstep.1.2.1 hd heq)

/-- Dominance is that no path between the numbers avoids a node. -/
theorem Sound.dominates_node_iff (h : cfg.Sound) {d : Nat} (hd : d < cfg.walk.entered.size)
    (hw : w < cfg.walk.entered.size) :
    cfg.Dominates (cfg.walk.node d) (cfg.walk.node w) ↔ ¬ Bypass cfg.NumberEdge 0 d w := by
  rw [dominates_iff, h.bypass_iff hd hw]
  exact and_iff_right (h.reaches_iff.mpr ⟨w, hw, rfl⟩)

/-! ### Dominance and numbers -/

/-- The number of a node in the walk. -/
def rank (cfg : FlowGraph) (id : NodeId) : Nat :=
  cfg.walk.number.getD id 0

section

variable (h : cfg.Sound)
include h

/-- Ranks are the numbers. -/
theorem Sound.rank_node (hk : k < cfg.walk.entered.size) : cfg.rank (cfg.walk.node k) = k := by
  rw [rank, Std.ExtTreeMap.getD_eq_getD_getElem?, h.walk_sane.number_node hk]
  rfl

/-- Reached nodes have their rank. -/
theorem Sound.node_rank (hid : cfg.Reaches cfg.start id) :
    cfg.rank id < cfg.walk.entered.size ∧ cfg.walk.node (cfg.rank id) = id := by
  obtain ⟨k, hk, rfl⟩ := h.reaches_iff.mp hid
  rw [h.rank_node hk]
  exact ⟨hk, rfl⟩

/-- A strict dominator has the smaller number. -/
theorem Sound.rank_lt (hab : cfg.StrictlyDominates a b) : cfg.rank a < cfg.rank b := by
  obtain ⟨ha, hanode⟩ := h.node_rank hab.2.reaches_left
  obtain ⟨hb, hbnode⟩ := h.node_rank hab.2.1
  have hnot := hab.2
  rw [← hanode, ← hbnode, h.dominates_node_iff ha hb] at hnot
  have hle := (h.searchTree.ancestor_of_not_bypass hnot hb).le h.searchTree.parent_le
  refine Nat.lt_of_le_of_ne hle fun heq => hab.1 ?_
  rw [← hanode, heq, hbnode]

/-- Of two dominators the smaller dominates the other. -/
theorem Sound.dominates_of_rank_le (hac : cfg.Dominates a c) (hbc : cfg.Dominates b c)
    (hle : cfg.rank a ≤ cfg.rank b) : cfg.Dominates a b := by
  obtain ⟨ha, hanode⟩ := h.node_rank hac.reaches_left
  obtain ⟨hb, hbnode⟩ := h.node_rank hbc.reaches_left
  obtain ⟨hc, hcnode⟩ := h.node_rank hac.1
  rw [← hanode, ← hcnode, h.dominates_node_iff ha hc] at hac
  rw [← hbnode, ← hcnode, h.dominates_node_iff hb hc] at hbc
  rw [← hanode, ← hbnode, h.dominates_node_iff ha hb]
  exact h.searchTree.not_bypass_of_le hac hbc hle hc

/-- Dominance is antisymmetric. -/
theorem Sound.dominates_antisymm (hab : cfg.Dominates a b) (hba : cfg.Dominates b a) : a = b := by
  by_contra hne
  have hlt := h.rank_lt ⟨hne, hab⟩
  have hgt := h.rank_lt ⟨Ne.symm hne, hba⟩
  omega

/-- Dominators of a node form a chain. -/
theorem Sound.dominates_or (hac : cfg.Dominates a c) (hbc : cfg.Dominates b c) :
    cfg.Dominates a b ∨ cfg.Dominates b a := by
  rcases Nat.le_total (cfg.rank a) (cfg.rank b) with hle | hle
  · exact .inl (h.dominates_of_rank_le hac hbc hle)
  · exact .inr (h.dominates_of_rank_le hbc hac hle)

/-- A node has at most one immediate dominator. -/
theorem Sound.isImmediateDominator_unique (hd : cfg.IsImmediateDominator d b)
    (he : cfg.IsImmediateDominator e b) : d = e :=
  h.dominates_antisymm (he.2 d hd.1) (hd.2 e he.1)

end

/-! ### Immediate dominators -/

/-- The numbers of the predecessors of a node. -/
def numberedPredecessors (cfg : FlowGraph) (vertex : Nat) : List Nat :=
  (cfg.predecessors (cfg.walk.node vertex)).filterMap fun id => cfg.walk.number[id]?

/-- The sweep over all numbers. -/
def sweep (cfg : FlowGraph) : Sweep :=
  Sweep.processDown cfg.walk.parent cfg.numberedPredecessors (cfg.walk.entered.size - 1)
    (.ofSize cfg.walk.entered.size)

/-- The numbers settle the verdicts. -/
theorem idomNumbers_eq (cfg : FlowGraph) :
    cfg.idomNumbers cfg.walk = Sweep.dominators cfg.sweep.verdicts.toList :=
  rfl

section

variable (h : cfg.Sound)
include h

/-- Predecessors, by number. -/
theorem Sound.mem_numberedPredecessors (hw : w < cfg.walk.entered.size) :
    v ∈ cfg.numberedPredecessors w ↔ cfg.NumberEdge v w := by
  simp only [numberedPredecessors, mem_filterMap, h.graph.mem_predecessors_iff]
  constructor
  · rintro ⟨id, hedge, hid⟩
    rw [← h.walk_sane.node_of_number hid] at hedge
    exact ⟨h.walk_sane.lt_of_number hid, hw, hedge⟩
  · rintro ⟨hv, -, hedge⟩
    exact ⟨_, hedge, h.walk_sane.number_node hv⟩

/-- The sweep before its first vertex. -/
theorem Sound.swept_ofSize :
    Sweep.Swept cfg.walk.entered.size cfg.walk.parent cfg.NumberEdge (cfg.walk.entered.size - 1 + 1)
      (.ofSize cfg.walk.entered.size) := by
  rw [Nat.sub_add_cancel h.walk_size_pos]
  exact Sweep.swept_ofSize

/-- The sweep comes to its end. -/
theorem Sound.swept_sweep :
    Sweep.Swept cfg.walk.entered.size cfg.walk.parent cfg.NumberEdge 1 cfg.sweep :=
  Sweep.processDown_spec h.searchTree h.mem_numberedPredecessors h.swept_ofSize
    (Nat.sub_one_lt_of_lt h.walk_size_pos)

/-- The sweep finds the immediate dominators of the numbers. -/
theorem Sound.isIdom_idomNumbers (hpos : 0 < k) (hk : k < cfg.walk.entered.size) :
    IsIdom cfg.NumberEdge k ((cfg.idomNumbers cfg.walk).getD k 0) := by
  have hswept := h.swept_sweep
  rw [idomNumbers_eq]
  refine Sweep.dominators_spec (fun v verdict hv hverdict => ?_) hpos ?_
  · rw [Array.getElem?_toList] at hverdict
    have hsize := hswept.verdicts_size ▸ (Array.getElem?_eq_some_iff.mp hverdict).1
    obtain ⟨_, hfound, hright⟩ := hswept.right h.searchTree hv hsize
    rw [hverdict] at hfound
    exact Option.some.inj hfound ▸ hright
  · rw [Array.length_toList]
    exact hswept.verdicts_size.symm ▸ hk

/-- The largest number that no path avoids is the immediate dominator. -/
theorem Sound.isImmediateDominator_of_isIdom {e : Nat} (hk : k < cfg.walk.entered.size)
    (he : IsIdom cfg.NumberEdge k e) :
    e < k ∧ cfg.IsImmediateDominator (cfg.walk.node e) (cfg.walk.node k) := by
  obtain ⟨⟨hne, hnot⟩, hlargest⟩ := he
  have hle := (h.searchTree.ancestor_of_not_bypass hnot hk).le h.searchTree.parent_le
  have hesize : e < cfg.walk.entered.size := Nat.lt_of_le_of_lt hle hk
  have hdom := (h.dominates_node_iff hesize hk).mpr hnot
  refine ⟨Nat.lt_of_le_of_ne hle hne, ⟨fun heq => hne (h.node_injective hesize hk heq), hdom⟩, ?_⟩
  intro a ha
  refine h.dominates_of_rank_le ha.2 hdom ?_
  obtain ⟨hrank, hnode⟩ := h.node_rank ha.2.reaches_left
  rw [h.rank_node hesize]
  refine hlargest _ (fun heq => ha.1 ?_) ?_
  · rw [← hnode, heq]
  · rw [← h.dominates_node_iff hrank hk, hnode]
    exact ha.2

end

/-- The order of the tree lists the nodes by number. -/
theorem dominatorTree_order :
    cfg.dominatorTree.order = (List.range cfg.walk.entered.size).map cfg.walk.node := by
  refine ext_getElem (by simp [dominatorTree]) fun k hk _ => ?_
  have hk' : k < cfg.walk.entered.size := by simpa [dominatorTree] using hk
  simp [dominatorTree, Walk.node, hk']

section

variable (h : cfg.Sound)
include h

/-- The order lists nodes once. -/
theorem Sound.nodup_order : cfg.dominatorTree.order.Nodup := by
  rw [dominatorTree_order]
  refine List.Nodup.map_on (fun i hi j hj heq => ?_) nodup_range
  exact h.node_injective (mem_range.mp hi) (mem_range.mp hj) heq

/-- The order lists what is reached. -/
theorem Sound.mem_order : id ∈ cfg.dominatorTree.order ↔ cfg.Reaches cfg.start id := by
  simp [dominatorTree_order, h.reaches_iff]

/-- The tree gives a number other than zero its immediate dominator. -/
theorem Sound.idom?_node (hpos : 0 < k) (hk : k < cfg.walk.entered.size) :
    cfg.dominatorTree.idom? (cfg.walk.node k) =
      some (cfg.walk.node ((cfg.idomNumbers cfg.walk).getD k 0)) := by
  refine Std.ExtTreeMap.getElem?_ofList_of_mem (k := cfg.walk.node k) (by simp) ?_ ?_
  · rw [pairwise_map]
    refine (nodup_range (n := cfg.walk.entered.size - 1)).imp_of_mem ?_
    intro i j hi hj hne
    simp only [mem_range] at hi hj
    rw [Std.LawfulEqCmp.compare_eq_iff_eq]
    intro heq
    have := h.node_injective (by omega) (by omega) heq
    omega
  · refine mem_map.mpr ⟨k - 1, mem_range.mpr (by omega), ?_⟩
    rw [Nat.sub_add_cancel hpos]

/-- The tree holds exactly the immediate dominators. -/
theorem Sound.idom?_eq_some_iff :
    cfg.dominatorTree.idom? b = some d ↔ cfg.IsImmediateDominator d b := by
  constructor
  · intro hidom
    have hmem : b ∈ cfg.dominatorTree.idoms := by
      rw [← Std.ExtTreeMap.isSome_getElem?_iff_mem]
      exact Option.isSome_iff_exists.mpr ⟨d, hidom⟩
    simp only [dominatorTree, Std.ExtTreeMap.mem_ofList, map_map, contains_eq_mem,
      mem_map, mem_range, Function.comp, decide_eq_true_eq] at hmem
    obtain ⟨k, hk, rfl⟩ := hmem
    rw [h.idom?_node (Nat.succ_pos k) (by omega)] at hidom
    cases hidom
    exact (h.isImmediateDominator_of_isIdom (by omega)
      (h.isIdom_idomNumbers (Nat.succ_pos k) (by omega))).2
  · intro hd
    obtain ⟨hrank, hnode⟩ := h.node_rank hd.1.2.1
    have hpos : 0 < cfg.rank b := Nat.lt_of_le_of_lt (Nat.zero_le _) (h.rank_lt hd.1)
    have hfound := (h.isImmediateDominator_of_isIdom hrank (h.isIdom_idomNumbers hpos hrank)).2
    have hidom := h.idom?_node hpos hrank
    rw [hnode] at hfound hidom
    rw [hidom, h.isImmediateDominator_unique hfound hd]

/-- Reached nodes but the start have an immediate dominator. -/
theorem Sound.exists_idom (hb : cfg.Reaches cfg.start b) (hne : b ≠ cfg.start) :
    ∃ d, cfg.dominatorTree.idom? b = some d := by
  obtain ⟨hrank, hnode⟩ := h.node_rank hb
  have hpos : 0 < cfg.rank b := by
    refine Nat.pos_of_ne_zero fun hzero => hne ?_
    rw [← hnode, hzero, h.walk_node_zero]
  rw [← hnode]
  exact ⟨_, h.idom?_node hpos hrank⟩

end

/-- Only the start dominates the start. -/
theorem dominates_start_iff : cfg.Dominates a cfg.start ↔ a = cfg.start := by
  constructor
  · intro ha
    simpa using ha.2 _ .here
  · rintro rfl
    exact .refl (.refl _)

variable (h : cfg.Sound)
include h

/-- Only the start has no dominator. -/
theorem Sound.idom?_eq_none_iff :
    cfg.dominatorTree.idom? b = none ↔ b = cfg.start ∨ ¬ cfg.Reaches cfg.start b := by
  constructor
  · intro hnone
    by_contra hboth
    simp only [not_or, not_not] at hboth
    obtain ⟨d, hd⟩ := h.exists_idom hboth.2 hboth.1
    simp [hd] at hnone
  · intro hb
    rw [Option.eq_none_iff_forall_ne_some]
    intro d hd
    have himm := h.idom?_eq_some_iff.mp hd
    rcases hb with rfl | hb
    · exact himm.1.1 (dominates_start_iff.mp himm.1.2)
    · exact hb himm.1.2.1

/-- The tree holds what is reached. -/
theorem Sound.tree_reaches_iff : cfg.dominatorTree.reaches b ↔ cfg.Reaches cfg.start b := by
  have hstart : cfg.dominatorTree.start = cfg.start := rfl
  have hcontains : cfg.dominatorTree.idoms.contains b = (cfg.dominatorTree.idom? b).isSome :=
    Std.ExtTreeMap.isSome_getElem?_eq_contains.symm
  simp only [DominatorTree.reaches, hstart, Bool.or_eq_true, beq_iff_eq, hcontains]
  constructor
  · rintro (rfl | hsome)
    · exact .refl _
    · obtain ⟨d, hd⟩ := Option.isSome_iff_exists.mp hsome
      exact (h.idom?_eq_some_iff.mp hd).1.2.1
  · intro hb
    by_cases hne : b = cfg.start
    · exact .inl hne
    · obtain ⟨d, hd⟩ := h.exists_idom hb hne
      exact .inr (by simp [hd])

/-! ### The queries of the tree -/

/-- The dominators of a node are itself and those of its parent. -/
theorem Sound.dominates_iff_of_idom (hd : cfg.dominatorTree.idom? b = some d) :
    cfg.Dominates a b ↔ a = b ∨ cfg.Dominates a d := by
  have himm := h.idom?_eq_some_iff.mp hd
  constructor
  · intro ha
    by_cases heq : a = b
    · exact .inl heq
    · exact .inr (himm.2 a ⟨heq, ha⟩)
  · rintro (rfl | ha)
    · exact .refl himm.1.2.1
    · exact ha.trans himm.1.2

/-- The chain from a node upward holds its dominators. -/
theorem Sound.mem_chain {height : Nat} (hb : cfg.Reaches cfg.start b)
    (hheight : cfg.rank b ≤ height) : a ∈ cfg.dominatorTree.chain height b ↔ cfg.Dominates a b := by
  induction height generalizing b with
  | zero =>
    have hstart : b = cfg.start := by
      rw [← (h.node_rank hb).2, Nat.le_zero.mp hheight, h.walk_node_zero]
    rw [DominatorTree.chain, mem_singleton, hstart, dominates_start_iff]
  | succ height ih =>
    rw [DominatorTree.chain]
    cases hidom : cfg.dominatorTree.idom? b with
    | none =>
      have hstart : b = cfg.start := by
        rcases h.idom?_eq_none_iff.mp hidom with hstart | hnot
        · exact hstart
        · exact absurd hb hnot
      simp only [mem_singleton, hstart, dominates_start_iff]
    | some d =>
      have himm := h.idom?_eq_some_iff.mp hidom
      have hlt := h.rank_lt himm.1
      simp only [mem_cons]
      rw [ih himm.1.2.reaches_left (by omega), h.dominates_iff_of_idom hidom]

/-- The tree answers questions of dominance rightly. -/
theorem Sound.tree_dominates_iff : cfg.dominatorTree.dominates a b ↔ cfg.Dominates a b := by
  rw [DominatorTree.dominates, DominatorTree.dominatorsOf]
  split
  · next hb =>
    have hreach := h.tree_reaches_iff.mp hb
    have hlength : cfg.dominatorTree.order.length = cfg.walk.entered.size := by
      simp [dominatorTree_order]
    have hrank := (h.node_rank hreach).1
    rw [contains_iff_mem, h.mem_chain hreach (by omega)]
  · next hb =>
    rw [h.tree_reaches_iff] at hb
    simp only [contains_nil, Bool.false_eq_true, false_iff]
    exact fun ha => hb ha.1

/-- The tree knows strict dominance. -/
theorem Sound.tree_strictlyDominates_iff :
    cfg.dominatorTree.strictlyDominates a b ↔ cfg.StrictlyDominates a b := by
  simp [DominatorTree.strictlyDominates, StrictlyDominates, h.tree_dominates_iff]

/-- The children of a node are those that it dominates immediately. -/
theorem Sound.mem_childrenOf :
    b ∈ cfg.dominatorTree.childrenOf p ↔ cfg.dominatorTree.idom? b = some p := by
  simp only [DominatorTree.childrenOf, mem_filter, beq_iff_eq, h.mem_order,
    and_iff_right_iff_imp]
  exact fun hb => (h.idom?_eq_some_iff.mp hb).1.2.1

/-- Children are listed once. -/
theorem Sound.nodup_childrenOf (p : NodeId) : (cfg.dominatorTree.childrenOf p).Nodup :=
  h.nodup_order.filter _

/-- Below a node are itself and what is below its children. -/
theorem Sound.dominates_iff_child (hp : cfg.Reaches cfg.start p) : cfg.Dominates p b ↔
      b = p ∨ ∃ c ∈ cfg.dominatorTree.childrenOf p, cfg.Dominates c b := by
  constructor
  · intro hpb
    induction hrank : cfg.rank b using Nat.strongRecOn generalizing b with
    | ind rank ih =>
      by_cases heq : p = b
      · exact .inl heq.symm
      have hne : b ≠ cfg.start := by
        rintro rfl
        exact heq (dominates_start_iff.mp hpb)
      obtain ⟨d, hd⟩ := h.exists_idom hpb.1 hne
      have himm := h.idom?_eq_some_iff.mp hd
      have hlt := h.rank_lt himm.1
      -- the child above the immediate dominator is the child above the node
      rcases ih _ (by omega) (himm.2 p ⟨heq, hpb⟩) rfl with rfl | ⟨c, hc, hcd⟩
      · exact .inr ⟨b, h.mem_childrenOf.mpr hd, .refl hpb.1⟩
      · exact .inr ⟨c, hc, hcd.trans himm.1.2⟩
  · rintro (rfl | ⟨c, hc, hcb⟩)
    · exact .refl hp
    · exact (h.idom?_eq_some_iff.mp (h.mem_childrenOf.mp hc)).1.2.trans hcb

/-- No node is below two children of one node. -/
theorem Sound.childrenOf_disjoint (hc : c ∈ cfg.dominatorTree.childrenOf p)
    (he : e ∈ cfg.dominatorTree.childrenOf p) (hcb : cfg.Dominates c b) (heb : cfg.Dominates e b) :
    c = e := by
  have himmc := h.idom?_eq_some_iff.mp (h.mem_childrenOf.mp hc)
  have himme := h.idom?_eq_some_iff.mp (h.mem_childrenOf.mp he)
  by_contra hne
  rcases h.dominates_or hcb heb with hce | hec
  · exact himmc.1.1 (h.dominates_antisymm himmc.1.2 (himme.2 c ⟨hne, hce⟩))
  · exact himme.1.1 (h.dominates_antisymm himme.1.2 (himmc.2 e ⟨Ne.symm hne, hec⟩))

/-- The preorder from a node lists what is below it, each node once. -/
theorem Sound.preorderFrom_spec (depth : Nat) (hp : cfg.Reaches cfg.start p)
    (hdepth : cfg.walk.entered.size ≤ cfg.rank p + depth) :
    (cfg.dominatorTree.preorderFrom depth p).Nodup ∧
      ∀ b, b ∈ cfg.dominatorTree.preorderFrom depth p ↔ cfg.Dominates p b := by
  induction depth generalizing p with
  | zero =>
    have := (h.node_rank hp).1
    omega
  | succ depth ih =>
    have hchild : ∀ c ∈ cfg.dominatorTree.childrenOf p,
        (cfg.dominatorTree.preorderFrom depth c).Nodup ∧
          ∀ b, b ∈ cfg.dominatorTree.preorderFrom depth c ↔ cfg.Dominates c b := by
      intro c hc
      have himm := h.idom?_eq_some_iff.mp (h.mem_childrenOf.mp hc)
      have hlt := h.rank_lt himm.1
      exact ih himm.1.2.1 (by omega)
    rw [DominatorTree.preorderFrom]
    refine ⟨nodup_cons.mpr ⟨?_, ?_⟩, fun b => ?_⟩
    · intro hmem
      obtain ⟨c, hc, hpc⟩ := mem_flatMap.mp hmem
      have himm := h.idom?_eq_some_iff.mp (h.mem_childrenOf.mp hc)
      exact himm.1.1 (h.dominates_antisymm himm.1.2 (((hchild c hc).2 p).mp hpc))
    · refine nodup_flatMap.mpr ⟨fun c hc => (hchild c hc).1, ?_⟩
      refine (h.nodup_childrenOf p).imp_of_mem fun hc he hne b hbc hbe => hne ?_
      exact h.childrenOf_disjoint hc he (((hchild _ hc).2 b).mp hbc) (((hchild _ he).2 b).mp hbe)
    · rw [mem_cons, mem_flatMap, h.dominates_iff_child hp]
      refine or_congr_right (exists_congr fun c => and_congr_right fun hc => ?_)
      exact (hchild c hc).2 b

/-- In a preorder nodes come after their immediate dominator. -/
theorem Sound.preorderFrom_order {depth : Nat} (hb : b ∈ cfg.dominatorTree.preorderFrom depth p)
    (hne : b ≠ p) (hd : cfg.dominatorTree.idom? b = some d) :
    ∃ before after, cfg.dominatorTree.preorderFrom depth p = before ++ b :: after ∧
      d ∈ before := by
  induction depth generalizing p with
  | zero => simp [DominatorTree.preorderFrom] at hb
  | succ depth ih =>
    rw [DominatorTree.preorderFrom] at hb ⊢
    obtain ⟨c, hc, hbc⟩ := mem_flatMap.mp ((mem_cons.mp hb).resolve_left hne)
    by_cases heq : b = c
    · subst heq
      rw [h.mem_childrenOf, hd] at hc
      cases hc
      obtain ⟨before, after, hsplit⟩ := append_of_mem
        ((mem_cons.mp hb).resolve_left hne)
      exact ⟨d :: before, after, by rw [hsplit]; rfl, mem_cons_self⟩
    · obtain ⟨before, after, hsplit, hmem⟩ := ih hbc heq
      obtain ⟨left, right, hchildren⟩ := append_of_mem hc
      refine ⟨p :: left.flatMap (cfg.dominatorTree.preorderFrom depth) ++ before,
        after ++ right.flatMap (cfg.dominatorTree.preorderFrom depth), ?_, by simp [hmem]⟩
      simp [hchildren, hsplit]

/-- The preorder lists the reached nodes, each once. -/
theorem Sound.preorder_spec : cfg.dominatorTree.preorder.Nodup ∧
    ∀ b, b ∈ cfg.dominatorTree.preorder ↔ cfg.Reaches cfg.start b := by
  have hlength : cfg.dominatorTree.order.length = cfg.walk.entered.size := by
    simp [dominatorTree_order]
  obtain ⟨hnodup, hmem⟩ := h.preorderFrom_spec cfg.dominatorTree.order.length
    (Graph.Reaches.refl cfg.start) (by omega)
  exact ⟨hnodup, fun b => (hmem b).trans ⟨fun hb => hb.1, start_dominates⟩⟩

/-- In preorder a node stands behind its immediate dominator. -/
theorem Sound.preorder_order (hd : cfg.dominatorTree.idom? b = some d) :
    ∃ before after, cfg.dominatorTree.preorder = before ++ b :: after ∧ d ∈ before := by
  have himm := h.idom?_eq_some_iff.mp hd
  refine h.preorderFrom_order ((h.preorder_spec.2 b).mpr himm.1.2.1) (fun heq => ?_) hd
  have hb : b = cfg.start := heq
  exact himm.1.1 ((dominates_start_iff.mp (hb ▸ himm.1.2)).trans hb.symm)

end FlowGraph

end Flowgraph

import Flowgraph.Proofs.Flow.Assembled
import Flowgraph.Proofs.Ssa.Placement
import Mathlib.Order.Bounds.Basic

/-!
# Phi blocks are placed at the iterated dominance frontier

The nodes at which a variable asks for a phi block are the least set that holds the frontier of its
sites and of itself (`FlowGraph.isLeast_phiRequests`): whatever the search puts on its worklist is a
site or was placed before.
-/

namespace Flowgraph

namespace FlowGraph

variable {cfg : FlowGraph} {var : String} {id : NodeId}

/-- The dominance frontier of a set of nodes. -/
def frontierOf (cfg : FlowGraph) (nodes : Set NodeId) : Set NodeId :=
  {y | ∃ x ∈ nodes, cfg.InFrontier x y}

/-- The nodes that control reaches and that define a variable. -/
def definitionSites (cfg : FlowGraph) (var : String) : Set NodeId :=
  {id | cfg.Reaches cfg.start id ∧ ∃ node, cfg.node? id = some node ∧ var ∈ node.defs}

/-- The nodes at which a variable asks for a phi block. -/
def phiRequests (cfg : FlowGraph) (var : String) : Set NodeId :=
  {id | ∃ vars, (id, vars) ∈ cfg.placements ∧ var ∈ vars}

/-- Sites are where the variable is defined. -/
theorem Sound.mem_sites_iff (h : cfg.Sound) : id ∈ cfg.sites var ↔
    id ∈ cfg.definitionSites var := by
  rw [h.mem_sites, ← defines_iff]
  refine and_congr_right fun _ => ?_
  cases hnode : cfg.node? id with
  | none => simp [defines, hnode]
  | some node => simp [defines, hnode]

/-- What the search places is in every closed set. -/
theorem Sound.mem_of_mem_phiSites (h : cfg.Sound) {nodes : Set NodeId}
    (hclosed : cfg.frontierOf (cfg.definitionSites var ∪ nodes) ⊆ nodes)
    (hid : id ∈ cfg.phiSites cfg.frontiers var) : id ∈ nodes := by
  refine forall_mem_closeFrontier (S := (· ∈ cfg.definitionSites var ∪ nodes)) (T := (· ∈ nodes))
    (fun x hx y hy => ?_) (fun x hx => .inr hx) (fun x hx => .inl (h.mem_sites_iff.mp hx)) (by simp)
    id hid
  exact hclosed ⟨x, hx, h.mem_frontiers.mp (Std.ExtTreeSet.mem_toList.mp hy)⟩

/-- A phi block is asked for where the search places one. -/
theorem Sound.mem_phiRequests (h : cfg.Sound) :
    id ∈ cfg.phiRequests var ↔ id ∈ cfg.phiSites cfg.frontiers var := by
  have hplaced : id ∈ cfg.phiRequests var ↔ cfg.contains id ∧ var ∈ cfg.phiVars id := by
    simp only [phiRequests, placements_eq, Set.mem_ofPred_eq, List.mem_map, List.mem_filter,
      Graph.mem_nodes, Prod.mk.injEq]
    constructor
    · rintro ⟨_, ⟨_, ⟨hlive, -⟩, rfl, rfl⟩, hvar⟩
      exact ⟨hlive, hvar⟩
    · rintro ⟨hlive, hvar⟩
      exact ⟨_, ⟨id, ⟨hlive, by simpa using List.ne_nil_of_mem hvar⟩, rfl, rfl⟩, hvar⟩
  rw [hplaced, mem_phiVars]
  refine ⟨fun hid => hid.2.2, fun hid => ⟨?_, ?_, hid⟩⟩
  · obtain ⟨x, hx⟩ := h.exists_inFrontier hid
    exact hx.reaches.contains h.graph h.start
  · -- Without a site the search has nothing to start from.
    by_contra hnot
    have hempty : cfg.frontierOf (cfg.definitionSites var ∪ ∅) ⊆ ∅ := by
      rintro y ⟨x, hx | hx, -⟩
      · obtain ⟨hreach, hdefines⟩ := h.mem_sites.mp (h.mem_sites_iff.mpr hx)
        exact hnot (h.mem_definedVars.mpr ⟨x, hreach, hdefines⟩)
      · exact hx
    exact h.mem_of_mem_phiSites hempty hid

/-- Phi blocks are asked for at the iterated dominance frontier of the sites of a variable: in the
least set that holds the frontier of the sites and of itself. -/
theorem isLeast_phiRequests (hcfg : cfg.Assembled) (var : String) :
    IsLeast {nodes : Set NodeId | cfg.frontierOf (cfg.definitionSites var ∪ nodes) ⊆ nodes}
      (cfg.phiRequests var) := by
  have h := hcfg.sound
  constructor
  · rintro y ⟨x, hx, hxy⟩
    refine h.mem_phiRequests.mpr (h.phiSites_closed (x := x) ?_ hxy)
    exact hx.imp h.mem_sites_iff.mpr h.mem_phiRequests.mp
  · exact fun nodes hclosed id hid => h.mem_of_mem_phiSites hclosed (h.mem_phiRequests.mp hid)

/-- A variable assigned on one of two ways, and again where both meet a third. -/
def merging : Stmt :=
  .seq [
    .instr (.branch (.temp "a") "L") .dummy,
    .instr (.branch (.temp "b") "J") .dummy,
    .instr (.move (.temp "x") (.const 1)) .dummy,
    .instr (.label "J") .dummy,
    .instr (.move (.mem (.temp "p")) (.temp "x")) .dummy,
    .instr (.label "L") .dummy,
    .instr (.move (.temp "x") (.binary .add (.temp "x") (.const 1))) .dummy,
    .instr .ret .dummy] .dummy

/-- The second assignment needs a phi block because of the first one. -/
theorem isLeast_phiRequests_merging : ∃ cfg, ofBody merging = .ok cfg ∧ cfg.Assembled ∧
    cfg.definitionSites "x" = {3, 5} ∧ cfg.phiRequests "x" = {3, 4} ∧
    IsLeast {nodes : Set NodeId | cfg.frontierOf (cfg.definitionSites "x" ∪ nodes) ⊆ nodes}
      (cfg.phiRequests "x") := by
  obtain ⟨cfg, hcfg, hsites, hphis⟩ : ∃ cfg, ofBody merging = .ok cfg ∧ cfg.sites "x" = [3, 5] ∧
      cfg.phiSites cfg.frontiers "x" = [4, 3] := exists_ok_of_any (by decide +kernel)
  have hassembled : cfg.Assembled := .ofBody hcfg
  refine ⟨cfg, hcfg, hassembled, ?_, ?_, isLeast_phiRequests hassembled "x"⟩
  · ext id
    rw [← hassembled.sound.mem_sites_iff, hsites]
    simp
  · ext id
    rw [hassembled.sound.mem_phiRequests, hphis]
    simp [or_comm]

end FlowGraph

end Flowgraph

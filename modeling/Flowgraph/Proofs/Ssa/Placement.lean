import Flowgraph.Proofs.Dominance.Frontier
import Flowgraph.Proofs.Ssa.Versions
import Flowgraph.Ssa.Placement

/-!
# Where phi blocks are placed

The nodes at which a variable gets a phi block are closed under dominance frontiers, together with
the nodes that define it (`FlowGraph.Sound.phiSites_closed`). The rounds of the search suffice
because a node enters the worklist at most once.
-/

namespace Flowgraph

open List

namespace FlowGraph

section Close

variable {frontier : NodeId → List NodeId} {defined : NodeId → Bool} {all sites : List NodeId}
  {placed worklist : List NodeId} {fresh : List NodeId} {rounds : Nat}

/-- The nodes that may still enter the worklist. -/
def waiting (defined : NodeId → Bool) (all placed : List NodeId) : List NodeId :=
  all.filter fun id => !placed.contains id && !defined id

/-- What enters the worklist no longer waits. -/
theorem length_waiting_add (defined : NodeId → Bool) (hall : all.Nodup) (hnodup : fresh.Nodup)
    (hfresh : ∀ id ∈ fresh, id ∈ all ∧ id ∉ placed) :
    (waiting defined all (placed ++ fresh)).length + (fresh.filter fun id => !defined id).length ≤
      (waiting defined all placed).length := by
  rw [← length_append]
  refine (List.Nodup.subperm ?_ fun id hid => ?_).length_le
  · refine nodup_append.mpr ⟨hall.filter _, hnodup.filter _, fun id hid other hother heq => ?_⟩
    subst heq
    simp only [waiting, mem_filter, contains_eq_mem, mem_append, Bool.and_eq_true,
      Bool.not_eq_true', decide_eq_false_iff_not, not_or] at hid hother
    exact hid.2.1.2 hother.1
  · rcases mem_append.mp hid with hid | hid
    · simp only [waiting, mem_filter, contains_eq_mem, mem_append, Bool.and_eq_true,
        Bool.not_eq_true', decide_eq_false_iff_not, not_or] at hid ⊢
      exact ⟨hid.1, hid.2.1.1, hid.2.2⟩
    · simp only [waiting, mem_filter, contains_eq_mem, Bool.and_eq_true,
        Bool.not_eq_true', decide_eq_false_iff_not] at hid ⊢
      exact ⟨(hfresh id hid.1).1, (hfresh id hid.1).2, hid.2⟩

/-- A frontier was added, unless its node is still on the worklist. -/
def ClosedBut (frontier : NodeId → List NodeId) (defined : NodeId → Bool)
    (sites worklist placed : List NodeId) : Prop :=
  ∀ x, x ∈ sites ∨ x ∈ placed ∧ defined x = false → x ∈ worklist ∨ ∀ y ∈ frontier x, y ∈ placed

/-- The frontier of the first node of the worklist is added. -/
theorem ClosedBut.step {first : NodeId}
    (h : ClosedBut frontier defined sites (first :: worklist) placed)
    (hfresh : ∀ y ∈ frontier first, y ∈ placed ∨ y ∈ fresh) :
    ClosedBut frontier defined sites (worklist ++ fresh.filter fun id => !defined id)
      (placed ++ fresh) := by
  have hold : ∀ x, x ∈ sites ∨ x ∈ placed ∧ defined x = false →
      x ∈ worklist ++ fresh.filter (fun id => !defined id) ∨ ∀ y ∈ frontier x,
      y ∈ placed ++ fresh := by
    intro x hx
    rcases h x hx with hmem | hsub
    · rcases mem_cons.mp hmem with rfl | hmem
      · exact .inr fun y hy => mem_append.mpr (hfresh y hy)
      · exact .inl (mem_append_left _ hmem)
    · exact .inr fun y hy => mem_append_left _ (hsub y hy)
  rintro x (hsite | ⟨hplaced, hundefined⟩)
  · exact hold x (.inl hsite)
  rcases mem_append.mp hplaced with hplaced | hnew
  · exact hold x (.inr ⟨hplaced, hundefined⟩)
  · exact .inl (mem_append_right _ (mem_filter.mpr ⟨hnew, by simp [hundefined]⟩))

/-- With rounds enough the result is closed under frontiers. -/
theorem closeFrontier_closed (hall : all.Nodup) (hnodup : ∀ x, (frontier x).Nodup)
    (hfrontier : ∀ x, ∀ y ∈ frontier x, y ∈ all)
    (hrounds : worklist.length + (waiting defined all placed).length < rounds)
    (hclosed : ClosedBut frontier defined sites worklist placed) :
    ClosedBut frontier defined sites [] (closeFrontier frontier defined rounds worklist
      placed) := by
  induction rounds generalizing worklist placed with
  | zero => omega
  | succ rounds ih =>
    cases worklist with
    | nil => simpa [closeFrontier] using hclosed
    | cons first worklist =>
      have hfresh : ∀ id ∈ (frontier first).filter fun id => !placed.contains id,
          id ∈ all ∧ id ∉ placed := by
        intro id hid
        simp only [mem_filter, contains_eq_mem, Bool.not_eq_true',
          decide_eq_false_iff_not] at hid
        exact ⟨hfrontier first id hid.1, hid.2⟩
      have hlength := length_waiting_add defined hall ((hnodup first).filter _) hfresh
      rw [closeFrontier]
      refine ih ?_ (hclosed.step fun y hy => ?_)
      · simp only [length_append, length_cons] at hrounds ⊢
        omega
      · by_cases hold : y ∈ placed <;> simp [hold, hy]

/-- What holds of all frontiers of such nodes holds of the result. -/
theorem forall_mem_closeFrontier {S T : NodeId → Prop}
    (hfrontier : ∀ x, S x → ∀ y ∈ frontier x, T y) (hS : ∀ x, T x → S x)
    (hworklist : ∀ x ∈ worklist, S x) (hplaced : ∀ x ∈ placed, T x) :
    ∀ x ∈ closeFrontier frontier defined rounds worklist placed, T x := by
  induction rounds generalizing worklist placed with
  | zero => simpa [closeFrontier] using hplaced
  | succ rounds ih =>
    cases worklist with
    | nil => simpa [closeFrontier] using hplaced
    | cons first worklist =>
      rw [closeFrontier]
      obtain ⟨hfirst, hworklist⟩ := forall_mem_cons.mp hworklist
      have hfresh : ∀ x ∈ (frontier first).filter fun id => !placed.contains id, T x :=
        fun x hx => hfrontier first hfirst x (mem_filter.mp hx).1
      refine ih (fun x hx => ?_) fun x hx => ?_
      · rcases mem_append.mp hx with hx | hx
        · exact hworklist x hx
        · exact hS x (hfresh x (mem_filter.mp hx).1)
      · rcases mem_append.mp hx with hx | hx
        · exact hplaced x hx
        · exact hfresh x hx

end Close

/-! ### The sites of a variable -/

variable {cfg : FlowGraph} {var : String} {id : NodeId} {node : Node}

/-- The variables that a node defines, one for each place. -/
def definitionsAt (cfg : FlowGraph) (id : NodeId) : List String :=
  ((cfg.node? id).map Node.definitions).getD []

/-- What a live node defines. -/
theorem definitionsAt_eq (h : cfg.node? id = some node) :
    cfg.definitionsAt id = node.definitions := by
  simp [definitionsAt, h]

/-- The test for a definition. -/
theorem defines_iff : cfg.defines var id ↔ var ∈ cfg.definitionsAt id := by
  rw [defines, definitionsAt]
  cases cfg.node? id with
  | none => simp
  | some node => simp [Node.mem_definitions]

section

variable (h : cfg.Sound)
include h

/-- Defined variables are found. -/
theorem Sound.mem_definedVars :
    var ∈ cfg.definedVars ↔ ∃ id, cfg.Reaches cfg.start id ∧ var ∈ cfg.definitionsAt id := by
  rw [definedVars, NameSet.mem_unions]
  simp only [mem_map, h.mem_reached, ← defines_iff]
  constructor
  · rintro ⟨_, ⟨id, hid, rfl⟩, hvar⟩
    refine ⟨id, hid, ?_⟩
    cases hnode : cfg.node? id with
    | none => simp [hnode] at hvar
    | some node => simpa [defines, hnode] using hvar
  · rintro ⟨id, hid, hvar⟩
    refine ⟨_, ⟨id, hid, rfl⟩, ?_⟩
    cases hnode : cfg.node? id with
    | none => simp [defines, hnode] at hvar
    | some node => simpa [defines, hnode] using hvar

/-- What a node defines that control reaches is a variable. -/
theorem Sound.definitions_subset (hid : cfg.Reaches cfg.start id)
    (hnode : cfg.node? id = some node) :
    ∀ var ∈ node.definitions, var ∈ cfg.definedVars.toList := fun _ hvar =>
  Std.ExtTreeSet.mem_toList.mpr (h.mem_definedVars.mpr
    ⟨id, hid, (definitionsAt_eq hnode).symm ▸ hvar⟩)

/-- Sites are found. -/
theorem Sound.mem_sites :
    id ∈ cfg.sites var ↔ cfg.Reaches cfg.start id ∧ var ∈ cfg.definitionsAt id := by
  rw [sites, mem_filter, h.mem_reached, defines_iff]

/-- A node with a phi block is in the frontier of some node. -/
theorem Sound.exists_inFrontier (hid : id ∈ cfg.phiSites cfg.frontiers var) :
    ∃ x, cfg.InFrontier x id := by
  refine forall_mem_closeFrontier (S := fun x => cfg.Reaches cfg.start x)
    (T := fun y => ∃ x, cfg.InFrontier x y) (fun x _ y hy => ⟨x, ?_⟩)
    (fun x ⟨_, hx⟩ => hx.reaches) (fun x hx => (h.mem_sites.mp hx).1) (by simp) id hid
  exact h.mem_frontiers.mp (Std.ExtTreeSet.mem_toList.mp hy)

/-- The frontiers of definitions and phi blocks of a variable have only phi blocks for it. -/
theorem Sound.phiSites_closed {x y : NodeId}
    (hx : x ∈ cfg.sites var ∨ x ∈ cfg.phiSites cfg.frontiers var) (hy : cfg.InFrontier x y) :
    y ∈ cfg.phiSites cfg.frontiers var := by
  have hsites : (cfg.sites var).length + (waiting (cfg.defines var) cfg.reached []).length <
      cfg.slots.size + 1 := by
    have hsplit : (cfg.sites var ++ waiting (cfg.defines var) cfg.reached []).Nodup := by
      have hnodup : cfg.reached.Nodup := Graph.nodup_breadthFirst h.graph h.start
      refine nodup_append.mpr ⟨hnodup.filter _, hnodup.filter _,
        fun id hid other hother heq => ?_⟩
      subst heq
      simp [waiting, defines_iff.mpr (h.mem_sites.mp hid).2] at hother
    have hlive : ∀ id ∈ cfg.sites var ++ waiting (cfg.defines var) cfg.reached [],
        cfg.contains id := by
      intro id hid
      refine Graph.Reaches.contains h.graph (h.mem_reached.mp ?_) h.start
      rcases mem_append.mp hid with hid | hid <;> exact (mem_filter.mp hid).1
    have hle := Graph.length_le_nextId hsplit hlive
    rw [length_append] at hle
    exact Nat.lt_succ_of_le hle
  have hclosed : ClosedBut (fun id => (cfg.frontiers.getD id ∅).toList) (cfg.defines var)
      (cfg.sites var) [] (cfg.phiSites cfg.frontiers var) := by
    refine closeFrontier_closed (Graph.nodup_breadthFirst h.graph h.start)
      (fun x => nodup_toList _) (fun x y hy => ?_) hsites ?_
    · exact h.mem_reached.mpr (h.mem_frontiers.mp (Std.ExtTreeSet.mem_toList.mp hy)).reaches
    · exact fun x hx => .inl (hx.resolve_right (by simp))
  have hmember : x ∈ cfg.sites var ∨
      x ∈ cfg.phiSites cfg.frontiers var ∧ cfg.defines var x = false := by
    rcases hx with hx | hx
    · exact .inl hx
    cases hdefines : cfg.defines var x with
    | false => exact .inr ⟨hx, rfl⟩
    | true =>
      obtain ⟨z, hz⟩ := h.exists_inFrontier hx
      exact .inl (h.mem_sites.mpr ⟨hz.reaches, defines_iff.mp hdefines⟩)
  exact ((hclosed x hmember).resolve_left (by simp)) y
    (Std.ExtTreeSet.mem_toList.mpr (h.mem_frontiers.mpr hy))

end

/-! ### Placements -/

/-- The variables for which a node gets a phi block. -/
def phiVars (cfg : FlowGraph) (id : NodeId) : List String :=
  cfg.definedVars.toList.filter fun var => (cfg.phiSites cfg.frontiers var).contains id

/-- Phi variables are found. -/
theorem mem_phiVars : var ∈ cfg.phiVars id ↔
    var ∈ cfg.definedVars ∧ id ∈ cfg.phiSites cfg.frontiers var := by
  simp [phiVars]

/-- A phi block is placed at every live node with variables for it. -/
theorem placements_eq : cfg.placements =
    (cfg.nodes.filter fun id => !(cfg.phiVars id).isEmpty).map fun id => (id, cfg.phiVars id) := by
  have hvars : ∀ id, ((cfg.definedVars.toList.map fun var =>
      (var, cfg.phiSites cfg.frontiers var)).filter
      fun entry => entry.2.contains id).map (·.1) = cfg.phiVars id := by
    intro id
    rw [filter_map, map_map]
    exact map_id _
  simp only [placements, hvars]
  induction cfg.nodes with
  | nil => rfl
  | cons id rest ih =>
    rw [filterMap_cons, filter_cons, ih]
    cases (cfg.phiVars id).isEmpty <;> rfl

end FlowGraph

end Flowgraph

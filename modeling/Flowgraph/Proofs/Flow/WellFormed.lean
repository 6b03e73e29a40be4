import Flowgraph.Proofs.Flow.Sound

/-!
# Well-formed flow graphs

What the absence of violations means for each node, and that it makes a flow graph sound
(`FlowGraph.WellFormed.sound`): the edges that a node may have leave no room for one that is listed
twice, and every edge is listed as often at its source as at its target.
-/

namespace Flowgraph

open List

namespace FlowGraph

/-- A flow graph without violations whose designated start is a start node. -/
structure WellFormed (cfg : FlowGraph) : Prop where
  violations : cfg.violations = []
  start : ∃ span, cfg.node? cfg.start = some (.start span)

variable {cfg : FlowGraph}

/-- What the kind of a node asks of its outgoing edges. -/
def OutgoingFits (cfg : FlowGraph) (id : NodeId) : Kind → Prop
  | .ret => cfg.outgoing id = []
  | .branch => ∃ onTrue onFalse, cfg.outgoing id = [(onTrue, some true), (onFalse, some false)]
  | .spin => ∃ label, cfg.outgoing id = [(id, label)]
  | .stub => False
  | _ => ∃ next label, cfg.outgoing id = [(next, label)]

/-- Edges that lead elsewhere go on to fit, also at another node, as long as a spin stays with
itself. -/
theorem OutgoingFits.map {cfg' : FlowGraph} {id id' : NodeId} {kind : Kind} {dest : Link → NodeId}
    (h : cfg.OutgoingFits id kind)
    (hout : cfg'.outgoing id' = (cfg.outgoing id).map fun link => (dest link, link.2))
    (hspin : kind = .spin → ∀ link ∈ cfg.outgoing id, dest link = id') :
    cfg'.OutgoingFits id' kind := by
  cases kind with
  | ret =>
    rw [show cfg.outgoing id = [] from h] at hout
    exact hout
  | branch =>
    obtain ⟨onTrue, onFalse, hold⟩ := h
    rw [hold] at hout
    exact ⟨_, _, hout⟩
  | spin =>
    obtain ⟨label, hold⟩ := h
    have hself : dest (id, label) = id' :=
      hspin rfl _ (by rw [hold]; exact mem_singleton_self _)
    rw [hold, map_singleton, hself] at hout
    exact ⟨label, hout⟩
  | stub => exact h.elim
  | start | assign | store | call | block | phi =>
    obtain ⟨next, label, hold⟩ := h
    rw [hold] at hout
    exact ⟨_, _, hout⟩

/-- No node has two ways out with one label. -/
def DistinctLabels (cfg : FlowGraph) : Prop :=
  ∀ {id link other}, link ∈ cfg.outgoing id → other ∈ cfg.outgoing id → link.2 = other.2 →
    link = other

namespace WellFormed

variable {id : NodeId} {node : Node}

/-- Live nodes have no violation. -/
theorem nodeViolations_eq_nil (h : cfg.WellFormed) (hid : cfg.contains id) :
    cfg.nodeViolations id = [] := by
  have hall := (append_eq_nil_iff.mp h.violations).1
  exact flatMap_eq_nil_iff.mp hall id (Graph.mem_nodes.mpr hid)

/-- Kinds have no violation. -/
theorem kindViolations_eq_nil (h : cfg.WellFormed) (hnode : cfg.node? id = some node) :
    cfg.kindViolations id node.kind ((node.phi?.map (·.arity)).getD 0) = [] := by
  have hnil := h.nodeViolations_eq_nil (Graph.contains_of_payload? hnode)
  rwa [nodeViolations, hnode] at hnil

/-- The number of links out is right. -/
theorem checkOut_eq_nil {kind : Kind} {expected : Nat} (h : cfg.checkOut id kind expected = []) :
    (cfg.outgoing id).length = expected := by
  rw [checkOut] at h
  split at h
  · assumption
  · cases h

/-- Branches have both labels. -/
theorem branch_of_labels (h : cfg.checkBranchLabels id = []) :
    ∃ onTrue onFalse, cfg.outgoing id = [(onTrue, some true), (onFalse, some false)] := by
  rw [checkBranchLabels] at h
  split at h
  · next hlabels =>
    obtain ⟨⟨onTrue, _⟩, rest, hlinks, rfl, hrest⟩ := map_eq_cons_iff.mp hlabels
    obtain ⟨⟨onFalse, _⟩, rest', rfl, rfl, hnil⟩ := map_eq_cons_iff.mp hrest
    obtain rfl := map_eq_nil_iff.mp hnil
    exact ⟨onTrue, onFalse, hlinks⟩
  · cases h

variable (h : cfg.WellFormed)
include h

/-- The outgoing edges of a node are those that its kind asks for. -/
theorem outgoingFits (hnode : cfg.node? id = some node) : cfg.OutgoingFits id node.kind := by
  have hnil := h.kindViolations_eq_nil hnode
  generalize (node.phi?.map (·.arity)).getD 0 = arity at hnil
  have hone : cfg.checkOut id node.kind 1 = [] → ∃ next label,
      cfg.outgoing id = [(next, label)] := by
    intro hout
    obtain ⟨⟨next, label⟩, hlink⟩ := length_eq_one_iff.mp (checkOut_eq_nil hout)
    exact ⟨next, label, hlink⟩
  cases hkind : node.kind with
  | start | phi | assign | store | call | block =>
    simp only [hkind, kindViolations, append_eq_nil_iff] at hnil hone
    tauto
  | ret =>
    simp only [hkind, kindViolations, append_eq_nil_iff] at hnil
    exact eq_nil_of_length_eq_zero (checkOut_eq_nil hnil.1.1)
  | branch =>
    simp only [hkind, kindViolations, append_eq_nil_iff] at hnil
    exact branch_of_labels hnil.1
  | spin =>
    simp only [hkind, kindViolations, append_eq_nil_iff] at hnil hone
    obtain ⟨next, label, hlink⟩ := hone hnil.1.1
    have hself : cfg.adjacent id id := by
      by_contra hnot
      simp [checkSelfEdge, hnot] at hnil
    simp only [Graph.adjacent, Graph.successors, hlink] at hself
    obtain rfl : id = next := by simpa using hself
    exact ⟨label, hlink⟩
  | stub => simp [hkind, kindViolations] at hnil

/-- Nothing leads to a start node. -/
theorem incoming_eq_nil {span : Span} (hnode : cfg.node? id = some (.start span)) :
    cfg.incoming id = [] := by
  have hnil := h.kindViolations_eq_nil hnode
  simp only [Node.kind, kindViolations, append_eq_nil_iff] at hnil
  by_contra hnot
  have hlength := length_pos_of_ne_nil hnot
  simp [checkIn, hnot] at hnil

/-- Nothing leads to the start. -/
theorem incoming_start : cfg.incoming cfg.start = [] := by
  obtain ⟨span, hstart⟩ := h.start
  exact h.incoming_eq_nil hstart

/-- An edge is listed as often at its source as at its target. -/
theorem count_eq (source target : NodeId) (label : Label) :
    (cfg.outgoing source).count (target, label) = (cfg.incoming target).count (source, label) := by
  have hnone : cfg.asymmetricEdges = [] := by
    simpa using (append_eq_nil_iff.mp h.violations).2
  have hbalanced : ∀ edge ∈ cfg.edges ++ cfg.incomingEdges, cfg.balanced edge := by
    intro edge hedge
    by_contra hnot
    have hmem : edge ∈ cfg.asymmetricEdges := by
      rw [asymmetricEdges, mem_eraseDups, mem_mergeSort, mem_filter]
      exact ⟨hedge, by simpa using hnot⟩
    simp [hnone] at hmem
  by_cases hout : (target, label) ∈ cfg.outgoing source
  · have hedge : ⟨source, target, label⟩ ∈ cfg.edges :=
      mem_flatMap.mpr ⟨source, Graph.mem_nodes.mpr (Graph.contains_of_mem_outgoing hout),
        mem_map.mpr ⟨_, hout, rfl⟩⟩
    simpa [balanced] using hbalanced _ (mem_append_left _ hedge)
  by_cases hin : (source, label) ∈ cfg.incoming target
  · have hedge : ⟨source, target, label⟩ ∈ cfg.incomingEdges :=
      mem_flatMap.mpr ⟨target, Graph.mem_nodes.mpr (Graph.contains_of_mem_incoming hin),
        mem_map.mpr ⟨_, hin, rfl⟩⟩
    simpa [balanced] using hbalanced _ (mem_append_right _ hedge)
  · rw [count_eq_zero_of_not_mem hout, count_eq_zero_of_not_mem hin]

/-- A node has no outgoing edge, or one, or a true and a false way. -/
theorem outgoing_cases (id : NodeId) : cfg.outgoing id = [] ∨
    (∃ link, cfg.outgoing id = [link]) ∨
    ∃ onTrue onFalse, cfg.outgoing id = [(onTrue, some true), (onFalse, some false)] := by
  cases hnode : cfg.node? id with
  | none => exact .inl (Graph.outgoing_eq_nil (Graph.not_contains_of_payload? hnode))
  | some node =>
    have hfits := h.outgoingFits hnode
    cases hkind : node.kind <;> rw [hkind] at hfits
    case ret => exact .inl hfits
    case branch => exact .inr (.inr hfits)
    case spin =>
      obtain ⟨label, hlink⟩ := hfits
      exact .inr (.inl ⟨_, hlink⟩)
    case stub => exact hfits.elim
    all_goals
      obtain ⟨next, label, hlink⟩ := hfits
      exact .inr (.inl ⟨_, hlink⟩)

/-- Labels out of a node are different. -/
theorem distinctLabels : cfg.DistinctLabels := by
  intro id link other hlink hother hlabel
  rcases h.outgoing_cases id with hnone | ⟨only, honly⟩ | ⟨onTrue, onFalse, hboth⟩
  · simp [hnone] at hlink
  · rw [honly, mem_singleton] at hlink hother
    rw [hlink, hother]
  · simp only [hboth, mem_cons, not_mem_nil, or_false] at hlink hother
    rcases hlink with rfl | rfl <;> rcases hother with rfl | rfl
    · rfl
    · cases hlabel
    · cases hlabel
    · rfl

/-- Outgoing edges are distinct, and a true way comes first. -/
theorem outgoing_ordered (id : NodeId) : (cfg.outgoing id).Nodup ∧
    (cfg.outgoing id).Pairwise fun first second => second.2 = some true → first.2 = some true := by
  rcases h.outgoing_cases id with hnone | ⟨link, hlink⟩ | ⟨onTrue, onFalse, hlinks⟩
  · simp [hnone]
  · simp [hlink]
  · simp [hlinks]

/-- A well-formed flow graph is sound. -/
theorem sound : cfg.Sound where
  graph :=
    { mirrored := by
        intro source target label
        rw [← count_pos_iff, ← count_pos_iff, h.count_eq]
      outgoing_nodup := fun id => (h.outgoing_ordered id).1
      incoming_nodup := fun id => by
        refine nodup_iff_count_le_one.mpr fun link => ?_
        rw [← h.count_eq]
        exact nodup_iff_count_le_one.mp (h.outgoing_ordered _).1 _
      true_first := fun id => (h.outgoing_ordered id).2 }
  start := by
    obtain ⟨span, hstart⟩ := h.start
    exact Graph.contains_of_payload? hstart

/-- The outgoing edges of a node lead elsewhere, with the same labels, and may be those of another
node. -/
theorem outgoing_eq_map {g : Graph Node} (hg : g.Sound) {id' : NodeId} (dest : Link → NodeId)
    (hmem : ∀ link, link ∈ g.outgoing id' ↔ ∃ old ∈ cfg.outgoing id, link = (dest old, old.2)) :
    g.outgoing id' = (cfg.outgoing id).map fun old => (dest old, old.2) := by
  rcases h.outgoing_cases id with hnone | ⟨link, hlink⟩ | ⟨onTrue, onFalse, hlinks⟩
  · rw [hnone] at hmem ⊢
    exact eq_nil_iff_forall_not_mem.mpr fun link hlink => by simpa using (hmem link).mp hlink
  · rw [hlink] at hmem ⊢
    exact hg.outgoing_eq_singleton fun link => by simpa using hmem link
  · rw [hlinks] at hmem ⊢
    exact hg.outgoing_eq_pair fun link => by simpa using hmem link

end WellFormed

end FlowGraph

end Flowgraph

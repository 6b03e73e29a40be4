import Flowgraph.Proofs.Flow.WellFormed

/-!
# What a node asks of the edges at it

A flow graph is well formed exactly if it is sound, its start is a start node, and every node has
the edges that it asks for (`FlowGraph.wellFormed_iff_fitting`). A spin asks to be entered from
another node, which makes two incoming edges, because its own edge is the other one.
-/

namespace Flowgraph

open List

namespace FlowGraph

variable {cfg : FlowGraph} {id : NodeId} {kind : Kind}

/-- What the kind of a node asks of its incoming edges. -/
def IncomingFits (cfg : FlowGraph) (id : NodeId) : Kind → Prop
  | .start => id = cfg.start ∧ cfg.incoming id = []
  | .spin => ∃ link ∈ cfg.incoming id, link.1 ≠ id
  | .phi => id ∉ cfg.successors id
  | _ => cfg.incoming id ≠ []

/-- Every node has the edges that its kind asks for, and a phi node has a slot for every incoming
edge. -/
structure Fitting (cfg : FlowGraph) : Prop where
  sound : cfg.Sound
  start : cfg.kind? cfg.start = some .start
  outgoing : ∀ {id kind}, cfg.kind? id = some kind → cfg.OutgoingFits id kind
  incoming : ∀ {id kind}, cfg.kind? id = some kind → cfg.IncomingFits id kind
  slots : ∀ {id phi span}, cfg.node? id = some (.phi phi span) →
    (cfg.incoming id).length = phi.arity

/-- Incoming edges go on to fit if a node is entered, or entered from another node, as before. -/
theorem IncomingFits.of_entered {cfg' : FlowGraph} (h : cfg.IncomingFits id kind)
    (hphi : kind ≠ .phi)
    (hstart : cfg'.start = cfg.start) (hempty : cfg.incoming id = [] → cfg'.incoming id = [])
    (hsome : cfg.incoming id ≠ [] → cfg'.incoming id ≠ [])
    (hother : kind = .spin → (∃ link ∈ cfg.incoming id, link.1 ≠ id) → ∃ link ∈ cfg'.incoming id,
      link.1 ≠ id) :
    cfg'.IncomingFits id kind := by
  cases kind with
  | start => exact ⟨h.1.trans hstart.symm, hempty h.2⟩
  | spin => exact hother rfl h
  | phi => exact absurd rfl hphi
  | ret | branch | assign | store | call | block | stub => exact hsome h

/-- Sound graphs list every edge as often at both ends. -/
theorem Sound.balanced (h : cfg.Sound) (edge : Edge) : cfg.balanced edge := by
  have hmem : (edge.target, edge.label) ∈ cfg.outgoing edge.source ↔
      (edge.source, edge.label) ∈ cfg.incoming edge.target := h.graph.mirrored
  rw [FlowGraph.balanced, beq_iff_eq, (h.graph.outgoing_nodup _).count,
    (h.graph.incoming_nodup _).count]
  exact if_congr hmem rfl rfl

/-- Sound graphs have no one-sided edge. -/
theorem Sound.asymmetricEdges_eq_nil (h : cfg.Sound) : cfg.asymmetricEdges = [] := by
  refine eq_nil_iff_forall_not_mem.mpr fun edge hedge => ?_
  rw [asymmetricEdges, mem_eraseDups, mem_mergeSort, mem_filter] at hedge
  simp [h.balanced edge] at hedge

/-! ### The checks of a node -/

/-- The check on links out. -/
theorem checkOut_eq_nil_iff {expected : Nat} :
    cfg.checkOut id kind expected = [] ↔ (cfg.outgoing id).length = expected := by
  rw [checkOut]
  split <;> simp_all

/-- The check on links in. -/
theorem checkIn_eq_nil_iff {expected : InDegree} {acceptable : Nat → Bool} :
    cfg.checkIn id kind expected acceptable = [] ↔ acceptable (cfg.incoming id).length := by
  rw [checkIn]
  split <;> simp_all

/-- The check on self edges. -/
theorem checkNoSelfEdge_eq_nil_iff : cfg.checkNoSelfEdge id kind = [] ↔ id ∉ cfg.successors id := by
  rw [checkNoSelfEdge]
  split <;> simp_all [Graph.adjacent]

/-- The check on start nodes. -/
theorem checkDesignated_eq_nil_iff : cfg.checkDesignated id = [] ↔ id = cfg.start := by
  rw [checkDesignated]
  split <;> simp_all

/-- A node that leads only to itself has two incoming edges exactly if another enters it. -/
theorem Sound.two_le_incoming_iff (h : cfg.Sound) {label : Label}
    (hself : cfg.outgoing id = [(id, label)]) :
    2 ≤ (cfg.incoming id).length ↔ ∃ link ∈ cfg.incoming id, link.1 ≠ id := by
  have hown : ∀ {other}, (id, other) ∈ cfg.incoming id ↔ other = label := by
    intro other
    rw [← h.graph.mirrored, hself]
    simp
  constructor
  · intro htwo
    by_contra hnot
    push Not at hnot
    have hsubset : cfg.incoming id ⊆ [(id, label)] := by
      intro link hlink
      obtain ⟨source, other⟩ := link
      obtain rfl : source = id := hnot _ hlink
      rw [hown.mp hlink]
      exact mem_singleton_self _
    have hle := (subperm_of_subset (h.graph.incoming_nodup id) hsubset).length_le
    exact absurd (Nat.le_trans htwo hle) (Nat.not_succ_le_self 1)
  · rintro ⟨link, hlink, hother⟩
    have hnodup : [link, (id, label)].Nodup := by
      refine nodup_cons.mpr ⟨fun hmem => hother ?_, nodup_singleton _⟩
      rw [mem_singleton.mp hmem]
    have hsubset : [link, (id, label)] ⊆ cfg.incoming id := by
      simp [hlink, hown.mpr]
    exact (subperm_of_subset hnodup hsubset).length_le

/-- If the outgoing edges fit, there is no violation exactly if the incoming ones do. -/
theorem Sound.kindViolations_eq_nil_iff (h : cfg.Sound) {arity : Nat}
    (hout : cfg.OutgoingFits id kind) : cfg.kindViolations id kind arity = [] ↔
      cfg.IncomingFits id kind ∧ (kind = .phi → (cfg.incoming id).length = arity) := by
  have hone : (∃ next label, cfg.outgoing id = [(next, label)]) → (cfg.outgoing id).length = 1 := by
    rintro ⟨next, label, hnext⟩
    rw [hnext]
    rfl
  cases kind with
  | start =>
    have hself : cfg.incoming id = [] → id ∉ cfg.successors id := by
      intro hnone hmem
      obtain ⟨label, hlink⟩ := Graph.mem_successors.mp hmem
      simpa [hnone] using h.graph.mirrored.mp hlink
    simp only [kindViolations, append_eq_nil_iff, checkOut_eq_nil_iff, hone hout,
      checkDesignated_eq_nil_iff, checkNoSelfEdge_eq_nil_iff, checkIn_eq_nil_iff, beq_iff_eq,
      length_eq_zero_iff, IncomingFits, reduceCtorEq, false_implies]
    tauto
  | ret =>
    have hnone : cfg.outgoing id = [] := hout
    have hself : id ∉ cfg.successors id := by simp [Graph.successors, hnone]
    simp [kindViolations, checkOut_eq_nil_iff, hnone, checkNoSelfEdge_eq_nil_iff, hself,
      checkIn_eq_nil_iff, Nat.one_le_iff_ne_zero, IncomingFits]
  | branch =>
    obtain ⟨onTrue, onFalse, hboth⟩ := hout
    simp [kindViolations, checkBranchLabels, hboth, checkIn_eq_nil_iff, Nat.one_le_iff_ne_zero,
      IncomingFits]
  | spin =>
    obtain ⟨label, hself⟩ := hout
    have hadjacent : cfg.adjacent id id := by simp [Graph.adjacent, Graph.successors, hself]
    simp [kindViolations, checkOut_eq_nil_iff, hself, checkSelfEdge, hadjacent, checkIn_eq_nil_iff,
      h.two_le_incoming_iff hself, IncomingFits]
  | phi =>
    simp [kindViolations, checkOut_eq_nil_iff, hone hout, checkNoSelfEdge_eq_nil_iff,
      checkIn_eq_nil_iff, IncomingFits]
  | stub => exact hout.elim
  | assign | store | call | block =>
    simp [kindViolations, checkOut_eq_nil_iff, hone hout, checkIn_eq_nil_iff,
      Nat.one_le_iff_ne_zero, IncomingFits]

/-- A kind that no listed node has. -/
theorem kind?_ne_of_nodes (h : ∀ id ∈ cfg.nodes, cfg.kind? id ≠ some kind) (id : NodeId) :
    cfg.kind? id ≠ some kind := fun hkind =>
  h id (Graph.mem_nodes.mpr (contains_of_kind? hkind)) hkind

/-- Well formed are the graphs in which every node fits. -/
theorem wellFormed_iff_fitting : cfg.WellFormed ↔ cfg.Fitting := by
  constructor
  · intro h
    obtain ⟨span, hstart⟩ := h.start
    have hnode : ∀ {id kind}, cfg.kind? id = some kind → ∃ node, cfg.node? id = some node ∧
        node.kind = kind :=
      fun hkind => Option.map_eq_some_iff.mp hkind
    have hfits : ∀ {id node}, cfg.node? id = some node → _ := fun {id node} hnode =>
      (h.sound.kindViolations_eq_nil_iff (h.outgoingFits hnode)).mp (h.kindViolations_eq_nil hnode)
    refine ⟨h.sound, kind?_eq_some hstart, fun hkind => ?_, fun hkind => ?_,
      fun hphi => (hfits hphi).2 rfl⟩
    · obtain ⟨node, hnode, rfl⟩ := hnode hkind
      exact h.outgoingFits hnode
    · obtain ⟨node, hnode, rfl⟩ := hnode hkind
      exact (hfits hnode).1
  · intro h
    refine ⟨?_, exists_start_of_kind? h.start⟩
    rw [violations, h.sound.asymmetricEdges_eq_nil, map_nil, append_nil]
    refine flatMap_eq_nil_iff.mpr fun id _ => ?_
    rw [nodeViolations]
    split
    · rfl
    · next node hnode =>
      have hkind := kind?_eq_some hnode
      refine (h.sound.kindViolations_eq_nil_iff (h.outgoing hkind)).mpr
        ⟨h.incoming hkind, fun hphi => ?_⟩
      cases node with
      | phi phi span => exact h.slots hnode
      | _ => cases hphi

end FlowGraph

end Flowgraph

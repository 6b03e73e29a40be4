import Flowgraph.Proofs.Flow.Fitting

/-!
# Tidy flow graphs

A flow graph is tidy if control reaches all its nodes and each has the outgoing edges that its kind
asks for. What a kind asks of the incoming edges follows (`FlowGraph.Tidy.wellFormed`): a spin is
entered from elsewhere because control gets to it.
-/

namespace Flowgraph

namespace FlowGraph

variable {cfg : FlowGraph} {id : NodeId}

/-- Control reaches every node, outgoing edges fit, and a phi node has a slot for every incoming
edge. -/
structure Tidy (cfg : FlowGraph) : Prop where
  sound : cfg.Sound
  start : cfg.kind? cfg.start = some .start
  reached : ∀ {id}, cfg.contains id → cfg.Reaches cfg.start id
  entry : ∀ id, cfg.start ∉ cfg.successors id
  only : ∀ {id}, cfg.kind? id = some .start → id = cfg.start
  fits : ∀ {id kind}, cfg.kind? id = some kind → cfg.OutgoingFits id kind
  slots : ∀ {id phi span}, cfg.node? id = some (.phi phi span) →
    (cfg.incoming id).length = phi.arity ∧ id ∉ cfg.successors id

namespace Tidy

/-- A node other than the start is entered from another node. -/
theorem exists_incoming (h : cfg.Tidy) (hid : cfg.contains id) (hne : id ≠ cfg.start) :
    ∃ link ∈ cfg.incoming id, link.1 ≠ id := by
  obtain ⟨source, hother, hsucc⟩ := exists_other_predecessor (h.reached hid) hne
  obtain ⟨label, hlink⟩ := Graph.mem_successors.mp hsucc
  exact ⟨(source, label), h.sound.graph.mirrored.mp hlink, hother⟩

/-- In a tidy graph the incoming edges fit. -/
theorem incomingFits (h : cfg.Tidy) {kind : Kind} (hkind : cfg.kind? id = some kind) :
    cfg.IncomingFits id kind := by
  have hentered : kind ≠ .start → ∃ link ∈ cfg.incoming id, link.1 ≠ id := by
    refine fun hne => h.exists_incoming (contains_of_kind? hkind) fun heq => hne ?_
    rw [heq, h.start] at hkind
    exact (Option.some.inj hkind).symm
  cases kind with
  | start =>
    obtain rfl := h.only hkind
    refine ⟨rfl, List.eq_nil_iff_forall_not_mem.mpr fun link hlink => h.entry link.1 ?_⟩
    exact Graph.mem_successors.mpr ⟨link.2, h.sound.graph.mirrored.mpr hlink⟩
  | phi =>
    obtain ⟨node, hnode, hphi⟩ := Option.map_eq_some_iff.mp hkind
    cases node with
    | phi phi span => exact (h.slots hnode).2
    | _ => cases hphi
  | spin => exact hentered (by simp)
  | ret | branch | stub | assign | store | call | block =>
    obtain ⟨link, hlink, -⟩ := hentered (by simp)
    exact List.ne_nil_of_mem hlink

/-- A tidy graph is well formed. -/
theorem wellFormed (h : cfg.Tidy) : cfg.WellFormed :=
  wellFormed_iff_fitting.mpr ⟨h.sound, h.start, h.fits, h.incomingFits,
    fun hphi => (h.slots hphi).1⟩

end Tidy

end FlowGraph

end Flowgraph

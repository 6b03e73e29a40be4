import Flowgraph.Proofs.Flow.Construct
import Flowgraph.Proofs.Flow.Emission
import Flowgraph.Proofs.Flow.Tidy

/-!
# The flow graph of a body is tidy

When all stubs are resolved, an edge leads where its target leads, and nothing leads to the start.
So the graph of a body is tidy and can be written (`FlowGraph.tidy_of_ofBody`), whatever the body
looks like. What that means is put together in `FlowGraph.wellFormed_reached_ofBody`.
-/

namespace Flowgraph

open List

variable {body : Stmt} {cfg : FlowGraph}

namespace Builder

variable {builder : Builder} {places : List NodeId} {dest : NodeId → NodeId} {id : NodeId}

/-- Stubs do not lead to the start. -/
theorem Regular.ne_start_of_leadsTo (h : Regular builder) {place last : NodeId}
    (hleads : LeadsTo builder place last) (hplace : place ≠ builder.cfg.start) :
    last ≠ builder.cfg.start := by
  induction hleads with
  | here => exact hplace
  | pass hpass _ ih =>
    obtain ⟨label, -, hlabel⟩ := hpass
    exact ih (h.labels hlabel)

namespace Built

variable (h : Built builder body places cfg dest)
include h

/-- A node is one of the builder, or a spin that leads to itself. -/
theorem node_cases (hid : cfg.contains id) :
    builder.cfg.contains id ∧ id ∉ builder.stubIds ∧ cfg.kind? id = builder.cfg.kind? id ∨
      cfg.kind? id = some .spin ∧ cfg.outgoing id = [(id, none)] := by
  rcases h.resolved.live hid with ⟨hlive, hnot⟩ | ⟨⟨span, hspin⟩, hself⟩
  · refine .inl ⟨hlive, hnot, ?_⟩
    rw [FlowGraph.kind?, h.resolved.node hid hlive, FlowGraph.kind?]
  · refine .inr ⟨?_, hself⟩
    rw [FlowGraph.kind?, hspin]
    rfl

/-- The start node is of its kind. -/
theorem kind?_start : cfg.kind? cfg.start = some .start := by
  rw [FlowGraph.kind?, h.node?_start]
  rfl

/-- Nothing leads to the start. -/
theorem start_not_mem_successors (id : NodeId) : cfg.start ∉ cfg.successors id := by
  intro hmem
  obtain ⟨label, hlink⟩ := Graph.mem_successors.mp hmem
  have hid : cfg.contains id := Graph.contains_of_mem_outgoing hlink
  rcases h.node_cases hid with ⟨hlive, -⟩ | ⟨hspin, hself⟩
  · obtain ⟨place, hplace, heq⟩ := (h.resolved.outgoing hid hlive).mp hlink
    have hne : place ≠ builder.cfg.start := fun hsame =>
      h.regular.entry id (Graph.mem_successors.mpr ⟨label, hsame ▸ hplace⟩)
    have hstart : cfg.contains (dest place) := heq ▸ h.resolved.sound.start
    rcases h.resolved.leads h.valid hstart with
      hleads | ⟨-, span, hspin⟩
    · exact h.regular.ne_start_of_leadsTo hleads hne (heq.symm.trans h.resolved.start)
    · -- A circle ends at a spin, and the start is none.
      rw [← show cfg.start = dest place from heq, h.node?_start] at hspin
      cases hspin
  · rw [hself] at hlink
    obtain ⟨heq, -⟩ := Prod.mk.inj (mem_singleton.mp hlink)
    rw [← heq, h.kind?_start] at hspin
    cases hspin

/-- A node of the builder has the edges that its kind asks for. -/
theorem outgoingFits (hid : cfg.contains id) (hlive : builder.cfg.contains id)
    (hnot : id ∉ builder.stubIds) {kind : Kind} (hkind : builder.cfg.kind? id = some kind) :
    cfg.OutgoingFits id kind := by
  have hfits := h.regular.fits hkind
  cases kind with
  | start =>
    obtain ⟨place, -, hout⟩ := h.entry
    have hstart : id = cfg.start := hfits.trans h.resolved.start.symm
    exact ⟨dest place, none, by rw [hstart, hout]⟩
  | ret =>
    refine eq_nil_iff_forall_not_mem.mpr fun link hlink => ?_
    obtain ⟨place, hplace, -⟩ := (h.resolved.outgoing hid hlive).mp hlink
    rw [show builder.cfg.outgoing id = [] from hfits] at hplace
    exact absurd hplace not_mem_nil
  | branch =>
    obtain ⟨onTrue, onFalse, hout⟩ := hfits
    exact ⟨dest onTrue, dest onFalse, h.resolved.outgoing_two hid hlive hout⟩
  | assign | store | call =>
    obtain ⟨next, hout⟩ := hfits
    exact ⟨dest next, none, h.resolved.outgoing_one hid hlive hout⟩
  | stub =>
    obtain ⟨label, hentry⟩ := hfits
    exact absurd (mem_map.mpr ⟨_, hentry, rfl⟩) hnot
  | spin | block | phi => exact hfits.elim

/-- The kinds of nodes that occur. -/
theorem kind_cases {kind : Kind} (hkind : cfg.kind? id = some kind) :
    cfg.OutgoingFits id kind ∧ (kind = .start → id = cfg.start) ∧ kind ≠ .phi ∧ kind ≠ .block := by
  have hid := FlowGraph.contains_of_kind? hkind
  rcases h.node_cases hid with ⟨hlive, hnot, hsame⟩ | ⟨hspin, hself⟩
  · have hfits := h.outgoingFits hid hlive hnot (hsame ▸ hkind)
    have hregular := h.regular.fits (hsame ▸ hkind)
    refine ⟨hfits, ?_, ?_, ?_⟩
    · intro heq
      subst heq
      exact hregular.trans h.resolved.start.symm
    · intro heq
      subst heq
      exact hregular
    · intro heq
      subst heq
      exact hregular
  · obtain rfl := Option.some.inj (hspin.symm.trans hkind)
    exact ⟨⟨none, hself⟩, by simp, by simp, by simp⟩

end Built

end Builder

namespace FlowGraph

/-- Flow graphs of bodies are tidy, and can be written. -/
theorem tidy_of_ofBody (h : ofBody body = .ok cfg) :
    cfg.Tidy ∧ ∀ id node, cfg.node? id = some node → node.isWritable := by
  obtain ⟨builder, places, dest, hbuilt⟩ := built_of_ofBody h
  have hkinds : ∀ {id node}, cfg.node? id = some node → cfg.kind? id = some node.kind := by
    intro id node hnode
    rw [kind?, hnode, Option.map_some]
  refine ⟨⟨hbuilt.resolved.sound, hbuilt.kind?_start, hbuilt.reached,
    hbuilt.start_not_mem_successors, fun hkind => (hbuilt.kind_cases hkind).2.1 rfl,
    fun hkind => (hbuilt.kind_cases hkind).1, fun hnode => ?_⟩, fun id node hnode => ?_⟩
  · exact absurd rfl (hbuilt.kind_cases (hkinds hnode)).2.2.1
  · obtain ⟨hfits, -, hphi, hblock⟩ := hbuilt.kind_cases (hkinds hnode)
    cases node with
    | phi => exact absurd rfl hphi
    | block => exact absurd rfl hblock
    | stub => exact hfits.elim
    | _ => rfl

/-- The flow graph of a body has no violation. The designated start is its only start node, control
reaches all nodes, and no stub, phi block or block is among them. Every condition lists a true and a
false way, in this order, and every spin leads to itself and is entered from another node. -/
theorem wellFormed_reached_ofBody (h : ofBody body = .ok cfg) :
    cfg.violations = [] ∧ (∀ id, cfg.kind? id = some .start ↔ id = cfg.start) ∧
      (∀ id, cfg.contains id → cfg.Reaches cfg.start id) ∧
      (∀ id kind, cfg.kind? id = some kind → kind ≠ .stub ∧ kind ≠ .phi ∧ kind ≠ .block) ∧
      (∀ id, cfg.kind? id = some .branch → (cfg.outgoing id).map (·.2) = [some true, some false]) ∧
      ∀ id, cfg.kind? id = some .spin →
        cfg.successors id = [id] ∧ ∃ source ∈ cfg.predecessors id, source ≠ id := by
  obtain ⟨builder, places, dest, hbuilt⟩ := built_of_ofBody h
  have htidy := (tidy_of_ofBody h).1
  refine ⟨htidy.wellFormed.violations, fun id => ⟨htidy.only, fun heq => heq ▸ htidy.start⟩,
    fun id hid => htidy.reached hid, fun id kind hkind => ?_, fun id hkind => ?_,
    fun id hkind => ?_⟩
  · obtain ⟨hfits, -, hphi, hblock⟩ := hbuilt.kind_cases hkind
    refine ⟨fun hstub => ?_, hphi, hblock⟩
    subst hstub
    exact hfits
  · obtain ⟨onTrue, onFalse, hboth⟩ := htidy.fits hkind
    rw [hboth]
    rfl
  · obtain ⟨label, hself⟩ := htidy.fits hkind
    obtain ⟨link, hlink, hother⟩ := htidy.incomingFits hkind
    exact ⟨Graph.successors_eq hself, link.1, mem_map_of_mem hlink, hother⟩

/-- Two conditions that go on further down and further up, a circle without an instruction, and an
instruction out of reach. -/
def circling : Stmt :=
  .seq [
    .instr (.label "again") .dummy,
    .instr (.branch (.temp "c") "stuck") .dummy,
    .instr (.branch (.temp "d") "again") .dummy,
    .instr .ret .dummy,
    .instr (.move (.temp "x") (.const 1)) .dummy,
    .instr (.label "stuck") .dummy,
    .instr (.jump "stuck") .dummy] .dummy

/-- The condition at the top leads to the spin of the circle. -/
theorem wellFormed_reached_circling : ∃ cfg, ofBody circling = .ok cfg ∧
    cfg.nodes = [0, 4, 5, 7, 8] ∧
    cfg.kind? 7 = some .branch ∧ cfg.kind? 8 = some .spin ∧ cfg.violations = [] ∧
    (cfg.outgoing 7).map (·.2) = [some true, some false] ∧ cfg.successors 8 = [8] ∧
    ∃ source ∈ cfg.predecessors 8, source ≠ 8 := by
  obtain ⟨cfg, hcfg, hnodes, hbranch, hspin⟩ : ∃ cfg, ofBody circling = .ok cfg ∧
      cfg.nodes = [0, 4, 5, 7, 8] ∧ cfg.kind? 7 = some .branch ∧ cfg.kind? 8 = some .spin :=
    exists_ok_of_any (by decide +kernel)
  obtain ⟨hviolations, -, -, -, hlabels, hself⟩ := wellFormed_reached_ofBody hcfg
  exact ⟨cfg, hcfg, hnodes, hbranch, hspin, hviolations, hlabels 7 hbranch, hself 8 hspin⟩

end FlowGraph

end Flowgraph

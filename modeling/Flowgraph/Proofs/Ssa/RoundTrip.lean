import Flowgraph.Proofs.Flow.Tidy
import Flowgraph.Proofs.Ssa.Converted
import Flowgraph.Proofs.Ssa.Events
import Flowgraph.Proofs.Ssa.Reverted

/-!
# Through single assignment form and back

`FlowGraph.RoundTrip` relates a graph to what comes back from single assignment form: its nodes are
still there, renamed, and its edges lead by lanes of copies to where they led before
(`RoundTrip.exists_lane`). There is such a graph for every well-formed graph that can be written
(`WellFormed.exists_roundTrip`), and tidy graphs stay tidy (`RoundTrip.tidy`).
-/

namespace Flowgraph

open List

namespace Node

mutual

/-- A node that only acts holds neither a stub nor a phi node. -/
theorem holds_of_isStraight :
    ∀ {node : Node}, node.isStraight → node.holdsStub = false ∧ node.holdsPhi = false
  | .assign _ _ _, _ | .store _ _ _, _ | .call _ _ _ _, _ => ⟨rfl, rfl⟩
  | .block children _, h => by
      rw [Node.isStraight] at h
      rw [Node.holdsStub, Node.holdsPhi]
      exact holdsList_of_isStraightList h
  | .start _, h | .ret _, h | .branch _ _, h | .spin _, h | .phi _ _, h | .stub _, h => by
      simp [Node.isStraight] at h

/-- Straight lists hold no stub or phi. -/
theorem holdsList_of_isStraightList : ∀ {nodes : List Node}, Node.isStraightList nodes →
    Node.holdsStubList nodes = false ∧ Node.holdsPhiList nodes = false
  | [], _ => ⟨rfl, rfl⟩
  | node :: rest, h => by
      rw [Node.isStraightList, Bool.and_eq_true] at h
      obtain ⟨hstub, hphi⟩ := holds_of_isStraight h.1
      obtain ⟨hstubs, hphis⟩ := holdsList_of_isStraightList h.2
      rw [Node.holdsStubList, Node.holdsPhiList, hstub, hphi, hstubs, hphis]
      exact ⟨rfl, rfl⟩

end

/-- Writable nodes hold no stub or phi. -/
theorem holds_of_isWritable {node : Node} (h : node.isWritable) :
    node.holdsStub = false ∧ node.holdsPhi = false := by
  cases node with
  | block children span =>
    rw [Node.holdsStub, Node.holdsPhi]
    exact holdsList_of_isStraightList h
  | stub | phi => cases h
  | _ => simp [Node.holdsStub, Node.holdsPhi]

end Node

namespace FlowGraph

variable {cfg ssa placed final : FlowGraph} {front : NodeId → Option NodeId}
  {entry : NodeId → Versions} {id target p : NodeId}

/-- Control gets with phi blocks wherever it gets without them. -/
theorem Placed.reaches (h : Placed cfg placed front) (hid : cfg.Reaches cfg.start id) :
    placed.Reaches placed.start id := by
  rw [h.start]
  induction hid with
  | refl => exact .refl _
  | @tail middle last _ hlast ih =>
    have hfirst := ih.tail (h.entrance_mem_successors hlast)
    have hstands : Stands front (cfg.entrance front middle last) last := stands_entrance ..
    rcases hstands with heq | hphi
    · exact heq ▸ hfirst
    · exact hfirst.tail (h.successors_phi hphi)

namespace Converted

variable (h : Converted cfg ssa placed front entry)
include h

/-- A node of the original graph keeps its kind. -/
theorem kind?_of_contains (hid : cfg.contains id) : ssa.kind? id = cfg.kind? id := by
  rw [h.outline.kind?, kind?, h.node hid, kind?]

/-- Nodes in front are phi blocks. -/
theorem kind?_phi (hp : front target = some p) : ssa.kind? p = some .phi := by
  obtain ⟨-, -, span, hnode⟩ := h.phi hp
  rw [h.outline.kind?, kind?, hnode]
  rfl

/-- Nodes are old, or stand in front. -/
theorem live_cases (hid : ssa.contains id) :
    cfg.contains id ∨ ∃ target, front target = some id :=
  h.live ((h.shape.contains id).symm.trans hid)

/-- Old nodes stay live. -/
theorem contains_ssa (hid : cfg.contains id) : ssa.contains id :=
  (h.shape.contains id).trans (h.toPlaced.contains hid)

/-- Links lead to the entrances. -/
theorem outgoing_ssa (hid : cfg.contains id) :
    ssa.outgoing id = (cfg.outgoing id).map fun link => (cfg.entrance front id link.1, link.2) :=
  (h.shape.outgoing id).trans (h.outgoing_eq h.wellFormed hid)

/-- Phi blocks lead to their target. -/
theorem outgoing_ssa_phi (hp : front target = some p) : ssa.outgoing p = [(target, none)] :=
  (h.shape.outgoing p).trans (h.outgoing_phi_eq hp)

section

variable (hphi : ∀ id, cfg.kind? id ≠ some .phi)
include hphi

/-- Targets are no phi blocks. -/
theorem kind?_target (hp : front target = some p) : ssa.kind? target ≠ some .phi := by
  rw [h.kind?_of_contains (h.contains_target hp)]
  exact hphi target

/-- A phi node is a phi block of the conversion. -/
theorem front_of_kind (hp : ssa.kind? p = some .phi) : ∃ target, front target = some p := by
  refine (h.live_cases (contains_of_kind? hp)).resolve_left fun hlive => hphi p ?_
  rw [← h.kind?_of_contains hlive, hp]

/-- The phi blocks of a conversion can be taken out again. -/
theorem revertible : ssa.Revertible where
  sound := h.shape.sound h.sound
  labels {id link other} hlink hother hlabel := by
    rcases h.live_cases (Graph.contains_of_mem_outgoing hlink) with hlive | ⟨target, hp⟩
    · rw [h.outgoing_ssa hlive] at hlink hother
      obtain ⟨old, hold, rfl⟩ := mem_map.mp hlink
      obtain ⟨old', hold', rfl⟩ := mem_map.mp hother
      rw [h.wellFormed.distinctLabels hold hold' hlabel]
    · rw [h.outgoing_ssa_phi hp, mem_singleton] at hlink hother
      rw [hlink, hother]
  start := by
    rw [h.shape.start, h.start, h.kind?_of_contains h.wellFormed.sound.start]
    exact hphi cfg.start
  target {p} hp := by
    obtain ⟨target, hfront⟩ := h.front_of_kind hphi hp
    exact ⟨target, h.outgoing_ssa_phi hfront, h.kind?_target hphi hfront⟩
  source {p link} hp hlink := by
    obtain ⟨target, hfront⟩ := h.front_of_kind hphi hp
    rw [h.shape.incoming, h.mem_incoming_phi h.wellFormed.sound hfront] at hlink
    rw [h.kind?_of_contains (h.wellFormed.sound.contains_of_mem_movableIncoming hlink)]
    exact hphi link.1

end

/-- The outgoing edges fit in single assignment form. -/
theorem outgoingFits_ssa {kind : Kind} (hkind : ssa.kind? id = some kind) :
    ssa.OutgoingFits id kind := by
  rcases h.live_cases (contains_of_kind? hkind) with hlive | ⟨target, hp⟩
  · rw [h.kind?_of_contains hlive, kind?, Option.map_eq_some_iff] at hkind
    obtain ⟨node, hnode, rfl⟩ := hkind
    have hfits := h.wellFormed.outgoingFits hnode
    refine hfits.map (h.outgoing_ssa hlive) fun hspin link hlink => ?_
    rw [hspin] at hfits
    obtain ⟨label, hself⟩ := hfits
    obtain rfl : link = (id, label) := by simpa [hself] using hlink
    simp [entrance, keepsSelfEdge, kind?, hnode, hspin]
  · rw [h.kind?_phi hp] at hkind
    cases hkind
    exact ⟨target, none, h.outgoing_ssa_phi hp⟩

/-- A phi block has a slot for every edge, and does not lead to itself. -/
theorem slots_ssa (hp : front target = some p) {phi : Phi} {span : Span}
    (hnode : ssa.node? p = some (.phi phi span)) :
    (ssa.incoming p).length = phi.arity ∧ p ∉ ssa.successors p := by
  constructor
  · obtain ⟨old, span', hold, harity⟩ := h.outline.exists_phi hnode
    obtain ⟨-, -, span'', hplaced⟩ := h.phi hp
    rw [hplaced] at hold
    obtain ⟨rfl, -⟩ := Node.phi.inj (Option.some.inj hold)
    rw [h.shape.incoming, h.length_incoming_phi h.wellFormed.sound hp, ← harity]
    rfl
  · rw [Graph.successors, h.outgoing_ssa_phi hp]
    have hne := h.ne_phi (h.contains_target hp) hp
    simpa using Ne.symm hne

/-- Tidy graphs are tidy in single assignment form. -/
theorem tidy (htidy : cfg.Tidy) (hphi : ∀ id, cfg.kind? id ≠ some .phi) : ssa.Tidy := by
  have hstart : ssa.start = cfg.start := h.shape.start.trans h.start
  have hkept : ∀ {id}, cfg.contains id → ssa.Reaches ssa.start id := fun hid =>
    h.shape.reaches_iff.mpr (h.reaches (htidy.reached hid))
  refine ⟨h.shape.sound h.sound, ?_, fun {id} hid => ?_, fun id => ?_, fun {id} hkind => ?_,
    fun {id kind} hkind => ?_, fun {id phi span} hnode => ?_⟩
  · rw [hstart, h.kind?_of_contains htidy.sound.start, htidy.start]
  · rcases h.live_cases hid with hlive | ⟨target, hp⟩
    · exact hkept hlive
    · -- Some edge was moved to the phi block, and its source can be reached.
      obtain ⟨-, hmovable, -⟩ := h.phi hp
      obtain ⟨link, hlink⟩ := exists_mem_of_ne_nil _ hmovable
      have hsource := htidy.sound.contains_of_mem_movableIncoming hlink
      refine (hkept hsource).tail ?_
      rw [h.shape.successors, ← h.sound.graph.mem_predecessors_iff]
      exact mem_map.mpr ⟨link, (h.mem_incoming_phi htidy.sound hp).mpr hlink, rfl⟩
  · rw [h.shape.start, h.shape.successors]
    exact h.start_not_mem_successors h.wellFormed
  · rcases h.live_cases (contains_of_kind? hkind) with hlive | ⟨target, hp⟩
    · rw [hstart]
      exact htidy.only ((h.kind?_of_contains hlive).symm.trans hkind)
    · rw [h.kind?_phi hp] at hkind
      cases hkind
  · exact h.outgoingFits_ssa hkind
  · have hkind : ssa.kind? id = some .phi := by rw [kind?, hnode]; rfl
    obtain ⟨target, hp⟩ := h.front_of_kind hphi hkind
    exact h.slots_ssa hp hnode

end Converted

/-! ### The way back -/

/-- A graph, its conversion, and the graph that the way back leads to. -/
structure RoundTrip (cfg ssa placed final : FlowGraph) (front : NodeId → Option NodeId)
    (entry : NodeId → Versions) (gone : List NodeId)
    (route : NodeId → Link → NodeId × List NodeId) : Prop
    extends Converted cfg ssa placed front entry where
  phiFree : ∀ id, cfg.kind? id ≠ some .phi
  reverting : Reverting ssa final gone route
  gone_iff : ∀ id, id ∈ gone ↔ ssa.Reaches ssa.start id ∧ ssa.kind? id = some .phi

/-- Control reaches no stub in a graph whose nodes can be written. -/
theorem reachesStub_eq_false (hnodes : ∀ id node, cfg.node? id = some node → node.isWritable) :
    cfg.reachesStub = false := by
  rw [reachesStub, any_eq_false]
  intro id _
  cases hnode : cfg.node? id with
  | none => simp
  | some node => simp [(Node.holds_of_isWritable (hnodes id node hnode)).1]

/-- A writable, well-formed graph goes through single assignment form and back. -/
theorem WellFormed.exists_roundTrip (h : cfg.WellFormed)
    (hnodes : ∀ id node, cfg.node? id = some node → node.isWritable) :
    ∃ ssa phis final copies placed front entry gone route, cfg.toSsa = .ok (ssa, phis) ∧
      ssa.fromSsa = (final, .done copies) ∧
      RoundTrip cfg ssa placed final front entry gone route := by
  have hphi : ∀ id, cfg.kind? id ≠ some .phi := by
    intro id hkind
    obtain ⟨node, hnode, hphi⟩ := Option.map_eq_some_iff.mp hkind
    exact (Node.kind_of_isWritable (hnodes id node hnode)).1 hphi
  obtain ⟨ssa, phis, placed, front, entry, hssa, hconverted⟩ :=
    h.exists_converted (reachesStub_eq_false hnodes)
  obtain ⟨final, copies, gone, route, hfinal, hreverting, hgone⟩ :=
    (hconverted.revertible hphi).exists_reverting
  exact ⟨ssa, phis, final, copies, placed, front, entry, gone, route, hssa, hfinal,
    hconverted, hphi, hreverting, hgone⟩

/-- Copies are assignments of names to targets of the phi block. -/
theorem mem_copiesFor {phi : Phi} {slot : Nat} {span : Span} {node : Node}
    (h : node ∈ copiesFor phi slot span) :
    ∃ name ∈ phi.targets, ∃ arg, node = .assign name (.temp arg) span := by
  obtain ⟨⟨name, args⟩, hentry, hnode⟩ := mem_filterMap.mp h
  dsimp only at hnode
  split at hnode
  · cases hnode
  next arg _ =>
  split at hnode
  · cases hnode
  · exact ⟨name, mem_map.mpr ⟨_, hentry, rfl⟩, arg, (Option.some.inj hnode).symm⟩

namespace RoundTrip

variable {gone : List NodeId} {route : NodeId → Link → NodeId × List NodeId} {link : Link}
  {source : NodeId}

section

variable (h : RoundTrip cfg ssa placed final front entry gone route)
include h

section

variable (hid : cfg.contains id)
include hid

/-- Old nodes do not go. -/
theorem not_mem_gone : id ∉ gone := by
  refine h.reverting.not_mem_of_kind ?_
  rw [h.kind?_of_contains hid]
  exact h.phiFree id

/-- The old nodes are left as they were after renaming. -/
theorem node_final : final.node? id = ssa.node? id :=
  h.reverting.node (h.contains_ssa hid) (h.not_mem_gone hid)

/-- Kinds after the round trip. -/
theorem kind?_final : final.kind? id = cfg.kind? id := by
  rw [kind?, h.node_final hid, ← kind?, h.kind?_of_contains hid]

end

/-- The start after the round trip. -/
theorem start_final : final.start = cfg.start :=
  h.reverting.start.trans (h.shape.start.trans h.start)

end

/-- Where an edge of the original graph leads. -/
def way (cfg : FlowGraph) (front : NodeId → Option NodeId)
    (route : NodeId → Link → NodeId × List NodeId) (id : NodeId) (link : Link) :
    NodeId × List NodeId :=
  route id (cfg.entrance front id link.1, link.2)

/-- The ways out of a node keep their order and their labels. -/
theorem outgoing_final (h : RoundTrip cfg ssa placed final front entry gone route)
    (hid : cfg.contains id) : final.outgoing id =
      (cfg.outgoing id).map fun link => ((way cfg front route id link).1, link.2) := by
  refine h.wellFormed.outgoing_eq_map h.reverting.sound.graph
    (fun link => (way cfg front route id link).1) fun other => ?_
  rw [h.reverting.outgoing (h.contains_ssa hid) (h.not_mem_gone hid), h.outgoing_ssa hid]
  simp only [mem_map, exists_exists_and_eq_and, way]

/-- An edge leads past no phi block, or past one that was taken out. -/
def Passes (cfg : FlowGraph) (front : NodeId → Option NodeId) (gone : List NodeId) (id : NodeId)
    (link : Link) : Prop :=
  cfg.entrance front id link.1 = link.1 ∨
    front link.1 = some (cfg.entrance front id link.1) ∧ cfg.entrance front id link.1 ∈ gone

variable (h : RoundTrip cfg ssa placed final front entry gone route)
include h

/-- Reached phi blocks were all taken out. -/
theorem passes (hid : cfg.Reaches cfg.start id) (hlink : link ∈ cfg.outgoing id) :
    Passes cfg front gone id link := by
  have hstands : Stands front (cfg.entrance front id link.1) link.1 := Placed.stands_entrance ..
  refine hstands.imp_right fun hp => ⟨hp, (h.gone_iff _).mpr ⟨?_, h.kind?_phi hp⟩⟩
  have hreach : ssa.Reaches ssa.start id := by
    simp only [Graph.Reaches, h.shape.successors, h.shape.start]
    exact h.reaches hid
  refine hreach.tail (Graph.mem_successors.mpr ⟨link.2, ?_⟩)
  rw [h.outgoing_ssa (Graph.contains_of_mem_outgoing hlink)]
  exact mem_map.mpr ⟨link, hlink, rfl⟩

/-- An edge leads by a lane to where it led before, with the copies of its slot if there was a phi
block. -/
theorem exists_lane (hlink : link ∈ cfg.outgoing id) (hpasses : Passes cfg front gone id link) :
    ∃ copies, final.Lane link.1 (way cfg front route id link).1 copies
        (way cfg front route id link).2 ∧
      (cfg.entrance front id link.1 = link.1 ∧ copies = [] ∨
        ∃ p phi span slot, front link.1 = some p ∧ cfg.entrance front id link.1 = p ∧
          ssa.node? p = some (.phi phi span) ∧ (ssa.incoming p)[slot]? = some (id, link.2) ∧
          copies = copiesFor phi slot (ssa.spanOf link.1)) := by
  rcases hpasses with heq | ⟨hp, hgone⟩
  · have htarget : cfg.contains link.1 := h.wellFormed.sound.graph.contains_target hlink
    have hkept : way cfg front route id link = (link.1, []) := by
      rw [way, heq]
      exact h.reverting.kept (h.not_mem_gone htarget)
    rw [hkept]
    exact ⟨[], .nil, .inl ⟨heq, rfl⟩⟩
  · have hmem : (cfg.entrance front id link.1, link.2) ∈ ssa.outgoing id := by
      rw [h.outgoing_ssa (Graph.contains_of_mem_outgoing hlink)]
      exact mem_map.mpr ⟨link, hlink, rfl⟩
    generalize hentrance : cfg.entrance front id link.1 = p at hmem hp hgone
    obtain ⟨phi, span, hnode⟩ := exists_phi_of_kind? (h.kind?_phi hp)
    have hssa : ssa.Sound := h.shape.sound h.sound
    obtain ⟨slot, hslot⟩ := getElem?_of_mem (hssa.graph.mirrored.mp hmem)
    refine ⟨copiesFor phi slot (ssa.spanOf link.1), ?_,
      .inr ⟨p, phi, span, slot, hp, rfl, hnode, hslot, rfl⟩⟩
    rw [way, hentrance]
    exact h.reverting.lane hgone hnode (h.outgoing_ssa_phi hp) hslot

/-- A node on a lane is a copy that leads on along the lane. -/
theorem lane_node (hlink : link ∈ cfg.outgoing source) (hpasses : Passes cfg front gone source link)
    (hid : id ∈ (way cfg front route source link).2) : ∃ name arg span next,
      final.node? id = some (.assign name (.temp arg) span) ∧ final.outgoing id = [(next, none)] ∧
        (next = link.1 ∨ next ∈ (way cfg front route source link).2) := by
  obtain ⟨copies, hlane, hcopies⟩ := h.exists_lane hlink hpasses
  obtain ⟨node, hmem, hnode, next, hnext, hwhere⟩ := hlane.node_of_mem hid
  rcases hcopies with ⟨-, rfl⟩ | ⟨p, phi, span, slot, -, -, -, -, rfl⟩
  · exact absurd hmem not_mem_nil
  · obtain ⟨name, -, arg, rfl⟩ := mem_copiesFor hmem
    exact ⟨name, arg, _, next, hnode, hnext, hwhere⟩

/-- The nodes on lanes are new. -/
theorem lane_fresh (hlink : link ∈ cfg.outgoing source)
    (hid : id ∈ (way cfg front route source link).2) : cfg.contains id = false := by
  by_contra hlive
  rw [Bool.not_eq_false] at hlive
  refine h.not_mem_gone hlive (h.reverting.fresh ?_ id hid (h.contains_ssa hlive))
  rw [h.outgoing_ssa (Graph.contains_of_mem_outgoing hlink)]
  exact mem_map.mpr ⟨link, hlink, rfl⟩

/-- Control gets wherever it got in the original graph. -/
theorem reaches_final (hid : cfg.Reaches cfg.start id) : final.Reaches final.start id := by
  rw [h.start_final]
  induction hid with
  | refl => exact .refl _
  | @tail middle last hmiddle hlast ih =>
    obtain ⟨label, hlink⟩ := Graph.mem_successors.mp hlast
    obtain ⟨copies, hlane, -⟩ := h.exists_lane hlink (h.passes hmiddle hlink)
    refine (ih.tail (Graph.mem_successors.mpr ⟨label, ?_⟩)).trans hlane.reaches_target
    rw [h.outgoing_final (Graph.contains_of_mem_outgoing hlink)]
    exact mem_map.mpr ⟨(last, label), hlink, rfl⟩

/-- A reached node is an old one or stands on a lane between two. -/
theorem reached_cases (hid : final.Reaches final.start id) : cfg.Reaches cfg.start id ∨
      ∃ source link, cfg.Reaches cfg.start source ∧ link ∈ cfg.outgoing source ∧
        id ∈ (way cfg front route source link).2 := by
  have hcfg := h.wellFormed.sound
  refine hid.closed (S := fun id => cfg.Reaches cfg.start id ∨ ∃ source link,
    cfg.Reaches cfg.start source ∧ link ∈ cfg.outgoing source ∧
      id ∈ (way cfg front route source link).2) (.inl (h.start_final ▸ .refl _)) ?_
  intro id hcases next hnext
  obtain ⟨label, hmem⟩ := Graph.mem_successors.mp hnext
  have hlands : ∀ {source link}, cfg.Reaches cfg.start source → link ∈ cfg.outgoing source →
      next = link.1 ∨ next ∈ (way cfg front route source link).2 → cfg.Reaches cfg.start next ∨
        ∃ source link, cfg.Reaches cfg.start source ∧ link ∈ cfg.outgoing source ∧
          next ∈ (way cfg front route source link).2 := by
    intro source link hsource hlink hwhere
    rcases hwhere with rfl | hwhere
    · exact .inl (hsource.tail (Graph.mem_successors.mpr ⟨link.2, hlink⟩))
    · exact .inr ⟨source, link, hsource, hlink, hwhere⟩
  rcases hcases with hreach | ⟨source, link, hsource, hlink, hlane⟩
  · rw [h.outgoing_final (hreach.contains hcfg.graph hcfg.start)] at hmem
    obtain ⟨link, hlink, heq⟩ := mem_map.mp hmem
    cases heq
    obtain ⟨copies, hlane, -⟩ := h.exists_lane hlink (h.passes hreach hlink)
    exact hlands hreach hlink hlane.first_cases
  · obtain ⟨name, arg, span, other, -, hout, hwhere⟩ :=
      h.lane_node hlink (h.passes hsource hlink) hlane
    rw [hout, mem_singleton] at hmem
    cases hmem
    exact hlands hsource hlink hwhere

/-- Nodes of the original graph go on to fit. -/
theorem outgoingFits {kind : Kind} (hkind : cfg.kind? id = some kind)
    (hfits : cfg.OutgoingFits id kind) : final.OutgoingFits id kind := by
  have hlive := contains_of_kind? hkind
  refine hfits.map (h.outgoing_final hlive) fun hspin link hlink => ?_
  subst hspin
  obtain ⟨label, hself⟩ := hfits
  obtain rfl : link = (id, label) := by simpa [hself] using hlink
  have hentrance : cfg.entrance front id id = id := by simp [entrance, keepsSelfEdge, hkind]
  have hkept : way cfg front route id (id, label) = (id, []) := by
    rw [way, hentrance]
    exact h.reverting.kept (h.not_mem_gone hlive)
  rw [hkept]

/-- What can be written before can be written after. -/
theorem writable (hnodes : ∀ id node, cfg.node? id = some node → node.isWritable) :
    final.Writable := by
  intro id node hreach hnode
  rcases h.reached_cases hreach with hid | ⟨source, link, hsource, hlink, hlane⟩
  · have hlive := hid.contains h.wellFormed.sound.graph h.wellFormed.sound.start
    have hkind : cfg.kind? id = some node.kind := by
      rw [← h.kind?_final hlive, kind?, hnode, Option.map_some]
    obtain ⟨old, hold, houtline⟩ := h.outline.exists_node ((h.node_final hlive).symm.trans hnode)
    rw [h.node hlive] at hold
    refine ⟨?_, h.outgoingFits hkind ?_⟩
    · rw [← show old.isWritable = node.isWritable from
        congrArg (fun outline => outline.2.2) houtline]
      exact hnodes id old hold
    · rw [← show old.kind = node.kind from congrArg Prod.fst houtline]
      exact h.wellFormed.outgoingFits hold
  · obtain ⟨name, arg, span, next, hcopy, hout, -⟩ :=
      h.lane_node hlink (h.passes hsource hlink) hlane
    obtain rfl := Option.some.inj (hcopy.symm.trans hnode)
    exact ⟨rfl, next, none, hout⟩

/-- In a tidy graph nothing is left that control does not reach. -/
theorem reached_final (htidy : cfg.Tidy) (hid : final.contains id) :
    final.Reaches final.start id := by
  have hssa : ssa.Tidy := h.toConverted.tidy htidy h.phiFree
  rcases h.reverting.live hid with ⟨hlive, hnot⟩ | ⟨source, link, hlink, hgone, hlane⟩
  · rcases h.live_cases hlive with hold | ⟨target, hp⟩
    · exact h.reaches_final (htidy.reached hold)
    · exact absurd ((h.gone_iff id).mpr ⟨hssa.reached hlive, h.kind?_phi hp⟩) hnot
  · -- The source of a lane is a node of the original graph.
    have hphi := h.reverting.phis _ hgone
    have hsource : cfg.contains source := by
      refine (h.live_cases (Graph.contains_of_mem_outgoing hlink)).resolve_right
        fun ⟨target, hp⟩ => ?_
      exact (h.revertible h.phiFree).source hphi
        ((h.shape.sound h.sound).graph.mirrored.mp hlink) (h.kind?_phi hp)
    rw [h.outgoing_ssa hsource] at hlink
    obtain ⟨old, hold, rfl⟩ := mem_map.mp hlink
    have hreach := htidy.reached hsource
    obtain ⟨copies, hway, -⟩ := h.exists_lane hold (h.passes hreach hold)
    refine ((h.reaches_final hreach).tail (Graph.mem_successors.mpr ⟨old.2, ?_⟩)).trans
      (hway.reaches_of_mem hlane)
    rw [h.outgoing_final hsource]
    exact mem_map.mpr ⟨old, hold, rfl⟩

/-- A tidy graph is tidy again after the way back. -/
theorem tidy (htidy : cfg.Tidy) : final.Tidy := by
  have hstart := h.start_final
  have hcfg := htidy.sound
  have hcases : ∀ {id}, final.contains id → cfg.contains id ∨
      ∃ source link, cfg.Reaches cfg.start source ∧ link ∈ cfg.outgoing source ∧
        id ∈ (way cfg front route source link).2 := fun hid =>
    (h.reached_cases (h.reached_final htidy hid)).imp_left fun hreach =>
      hreach.contains hcfg.graph hcfg.start
  have hlane : ∀ {id source link}, cfg.Reaches cfg.start source → link ∈ cfg.outgoing source →
      id ∈ (way cfg front route source link).2 → final.kind? id = some .assign := by
    intro id source link hsource hlink hid
    obtain ⟨name, arg, span, next, hnode, -⟩ := h.lane_node hlink (h.passes hsource hlink) hid
    rw [kind?, hnode]
    rfl
  -- An edge leads to the target of an edge of the original graph, or to a node on its lane.
  have hlands : ∀ {id source link}, cfg.Reaches cfg.start source → link ∈ cfg.outgoing source →
      id = link.1 ∨ id ∈ (way cfg front route source link).2 → id ≠ cfg.start := by
    intro id source link hsource hlink hwhere heq
    subst heq
    rcases hwhere with heq | hmem
    · exact htidy.entry source (heq ▸ Graph.mem_successors.mpr ⟨link.2, hlink⟩)
    · exact Bool.noConfusion ((h.lane_fresh hlink hmem).symm.trans hcfg.start)
  refine ⟨h.reverting.sound, ?_, h.reached_final htidy, fun id hmem => ?_, fun {id} hkind => ?_,
    fun {id kind} hkind => ?_, fun {id phi span} hnode => ?_⟩
  · rw [hstart, h.kind?_final hcfg.start, htidy.start]
  · rw [hstart] at hmem
    obtain ⟨label, hlink⟩ := Graph.mem_successors.mp hmem
    rcases hcases (Graph.contains_of_mem_outgoing hlink) with
      hid | ⟨source, old, hsource, hold, hid⟩
    · rw [h.outgoing_final hid] at hlink
      obtain ⟨old, hold, heq⟩ := mem_map.mp hlink
      obtain ⟨copies, hway, -⟩ := h.exists_lane hold (h.passes (htidy.reached hid) hold)
      have hfirst := hway.first_cases
      rw [(Prod.mk.inj heq).1] at hfirst
      exact hlands (htidy.reached hid) hold hfirst rfl
    · obtain ⟨name, arg, span, next, -, hout, hwhere⟩ :=
        h.lane_node hold (h.passes hsource hold) hid
      rw [hout, mem_singleton] at hlink
      cases hlink
      exact hlands hsource hold hwhere rfl
  · rcases hcases (contains_of_kind? hkind) with hid | ⟨source, link, hsource, hlink, hid⟩
    · rw [hstart]
      exact htidy.only ((h.kind?_final hid).symm.trans hkind)
    · cases (hlane hsource hlink hid).symm.trans hkind
  · rcases hcases (contains_of_kind? hkind) with hid | ⟨source, link, hsource, hlink, hid⟩
    · rw [h.kind?_final hid] at hkind
      exact h.outgoingFits hkind (htidy.fits hkind)
    · obtain rfl := Option.some.inj ((hlane hsource hlink hid).symm.trans hkind)
      obtain ⟨_, _, _, next, -, hout, -⟩ := h.lane_node hlink (h.passes hsource hlink) hid
      exact ⟨next, none, hout⟩
  · have hkind : final.kind? id = some .phi := by rw [kind?, hnode]; rfl
    rcases hcases (contains_of_kind? hkind) with hid | ⟨source, link, hsource, hlink, hid⟩
    · exact absurd ((h.kind?_final hid).symm.trans hkind) (h.phiFree id)
    · cases (hlane hsource hlink hid).symm.trans hkind

end RoundTrip

end FlowGraph

end Flowgraph

import Flowgraph.Proofs.Flow.EntryOrder
import Flowgraph.Proofs.Ssa.IteratedFrontier
import Flowgraph.Proofs.Ssa.RoundTrip
import Mathlib.Data.Set.Card

/-!
# The shape of single assignment form

The conversion adds phi blocks to a graph and changes no other edge. A phi block stands in front of
every node in the iterated dominance frontier of some variable, and takes over the edges that
entered the node, in their order (`FlowGraph.Fronted`). What comes out is well formed
(`FlowGraph.WellFormed.fronted_toSsa`).
-/

namespace Flowgraph

open List

namespace Graph

variable {α : Type} {g : Graph α} {links : List Link} {target first : NodeId}

variable (hg : g.Sound) (hne : target ≠ first) (hfirst : g.contains first)
  (hlinks : ∀ link ∈ links, g.contains link.1)
include hg hne hfirst hlinks

/-- The edges that are redirected enter their new target in order. -/
theorem Sound.incoming_redirectAll_first (hnodup : links.Nodup)
    (hnew : ∀ link ∈ links, link ∉ g.incoming first) :
    (g.redirectAll links target first).incoming first = g.incoming first ++ links := by
  induction links generalizing g with
  | nil => simp [redirectAll]
  | cons head rest ih =>
    obtain ⟨hhead, hrest⟩ := forall_mem_cons.mp hlinks
    obtain ⟨hlast, hlater⟩ := forall_mem_cons.mp hnew
    obtain ⟨hother, hnodup⟩ := nodup_cons.mp hnodup
    have hstep : (g.redirect ⟨head.1, target, head.2⟩ ⟨head.1, first, head.2⟩).incoming first =
        g.incoming first ++ [head] := by
      have herased : (g.eraseEdge ⟨head.1, target, head.2⟩).incoming first = g.incoming first := by
        rw [incoming_eraseEdge, if_neg hne]
      rw [redirect, (hg.eraseEdge _).incoming_addEdge_last (by simpa using hfirst)
        (by rwa [herased]), herased]
    rw [redirectAll, foldl_cons, ← redirectAll,
      ih ((Grown.refl hg).redirect hhead hfirst).sound (by simpa using hfirst)
      (by simpa using hrest)
        hnodup, hstep, append_assoc, singleton_append]
    intro link hlink
    rw [hstep, mem_append, mem_singleton]
    exact not_or.mpr ⟨hlater link hlink, fun heq => hother (heq ▸ hlink)⟩

/-- The edges that are redirected no longer enter their old target. -/
theorem Sound.incoming_redirectAll_target :
    (g.redirectAll links target first).incoming target =
      (g.incoming target).filter (· ∉ links) := by
  induction links generalizing g with
  | nil => simp [redirectAll]
  | cons head rest ih =>
    obtain ⟨hhead, hrest⟩ := forall_mem_cons.mp hlinks
    have hstep : (g.redirect ⟨head.1, target, head.2⟩ ⟨head.1, first, head.2⟩).incoming target =
        (g.incoming target).filter (· ≠ head) := by
      rw [redirect, incoming_addEdge_of_ne (Ne.symm hne), hg.incoming_eraseEdge_self]
    rw [redirectAll, foldl_cons, ← redirectAll,
      ih ((Grown.refl hg).redirect hhead hfirst).sound (by simpa using hfirst)
      (by simpa using hrest),
      hstep, filter_filter]
    refine filter_congr fun link _ => ?_
    by_cases hlink : link = head <;> simp [hlink]

end Graph

namespace FlowGraph

variable {cfg ssa placed : FlowGraph} {front : NodeId → Option NodeId} {entry : NodeId → Versions}
  {id target p : NodeId}

/-! ### The order of the edges into phi blocks -/

section Prepend

variable {node : Node}

/-- A chain in front of a node is entered by the edges that move. -/
theorem Sound.incoming_prependChain_first (h : cfg.Sound) (htarget : cfg.contains target)
    {chain : List Node} (hchain : chain ≠ []) :
    (cfg.prependChain target chain).incoming cfg.nextId = cfg.movableIncoming target := by
  have hne : target ≠ cfg.nextId := Nat.ne_of_lt (Graph.lt_nextId_of_contains htarget)
  have hinsert := Graph.Grown.insertChain h.graph chain
  have hempty : (cfg.insertChain chain).incoming cfg.nextId = [] := by
    rw [Graph.insertChain, Graph.incoming_joinRun_of_le (Nat.le_refl _),
      Graph.incoming_foldl_insert, eq_nil_iff_forall_not_mem]
    intro link hlink
    simpa using Graph.contains_of_mem_incoming hlink
  rw [toGraph_prependChain, Graph.incoming_addEdge_of_ne hne]
  refine (hinsert.sound.incoming_redirectAll_first hne (Graph.contains_chainEnds hchain).1
    (fun link hlink => hinsert.live (h.contains_of_mem_movableIncoming hlink))
    (h.nodup_movableIncoming target) (by simp [hempty])).trans ?_
  rw [hempty, nil_append]

/-- The node behind it is entered from there and by edges that stay. -/
theorem Sound.incoming_prependNode_target (h : cfg.Sound) (htarget : cfg.contains target) :
    (cfg.prependChain target [node]).incoming target =
      (cfg.incoming target).filter (· ∉ cfg.movableIncoming target) ++ [(cfg.nextId, none)] := by
  have hne : target ≠ cfg.nextId := Nat.ne_of_lt (Graph.lt_nextId_of_contains htarget)
  have hlinks : ∀ link ∈ cfg.movableIncoming target, (cfg.insert node).contains link.1 :=
    fun link hlink => by simp [Graph.contains_insert, h.contains_of_mem_movableIncoming hlink]
  have hnew := cfg.contains_insert_self node
  have hmoved : Graph.Grown (cfg.insert node)
      ((cfg.insert node).redirectAll (cfg.movableIncoming target) target cfg.nextId) :=
    (Graph.Grown.refl (h.graph.insert node)).foldl fun link hlink _ hg =>
      hg.redirect (hg.live (hlinks link hlink)) (hg.live hnew)
  have hkept : ((cfg.insert node).redirectAll (cfg.movableIncoming target) target
      cfg.nextId).incoming
      target = (cfg.incoming target).filter (· ∉ cfg.movableIncoming target) := by
    rw [(h.graph.insert node).incoming_redirectAll_target hne hnew hlinks, Graph.incoming_insert]
  have hfresh : (cfg.nextId, none) ∉ (cfg.incoming target).filter
      (· ∉ cfg.movableIncoming target) :=
    fun hmem => h.graph.fresh_not_mem_incoming (Nat.le_refl _) none (mem_filter.mp hmem).1
  have hlive : (cfg.insert node).contains target := by simp [Graph.contains_insert, htarget]
  rw [toGraph_prependNode, hmoved.sound.incoming_addEdge_last (hmoved.live hlive) (by rwa [hkept]),
    hkept]

end Prepend

/-- The links that enter a node, but for the own link of a spin. -/
def entries (cfg : FlowGraph) (id : NodeId) : List Link :=
  (cfg.incoming id).filter fun link => !(cfg.kind? id == some .spin && link.1 == id)

/-- Links that move are the entries. -/
theorem movableIncoming_eq_entries (cfg : FlowGraph) (id : NodeId) :
    cfg.movableIncoming id = cfg.entries id := by
  rw [movableIncoming, entries, keepsSelfEdge]
  split
  · next hspin => simp [hspin, bne]
  · next hspin => simp [hspin]

/-- The incoming edges in a graph with phi blocks, in order. -/
structure Queued (cfg placed : FlowGraph) (front : NodeId → Option NodeId) : Prop where
  kept : ∀ {id}, cfg.contains id → front id = none → placed.incoming id = cfg.incoming id
  behind : ∀ {target p}, front target = some p →
    placed.incoming target = (cfg.incoming target).filter (· ∉ cfg.entries target) ++ [(p, none)]
  slots : ∀ {target p}, front target = some p → placed.incoming p = cfg.entries target

namespace Queued

/-- No phi block is placed. -/
theorem refl (cfg : FlowGraph) : Queued cfg cfg fun _ => none where
  kept _ _ := rfl
  behind := nofun
  slots := nofun

/-- One more phi block takes over the edges that entered its node. -/
theorem prepend (h : Queued cfg placed front) (hplaced : Placed cfg placed front)
    (hlive : cfg.contains target) (hnone : front target = none) (node : Node) :
    Queued cfg (placed.prependChain target [node])
      (Function.update front target (some placed.nextId)) := by
  have hmovable : placed.movableIncoming target = cfg.entries target := by
    rw [movableIncoming_eq_entries, entries, h.kept hlive hnone, kind?, hplaced.node hlive]
    rfl
  have hother : ∀ {id}, placed.contains id → id ≠ target →
      (placed.prependChain target [node]).incoming id = placed.incoming id := fun hid hne =>
    incoming_prependChain_of_ne hid (Ne.symm hne)
  have hlater : ∀ {other p}, Function.update front target (some placed.nextId) other = some p →
      other ≠ target → front other = some p := fun hp hne => by
        rwa [Function.update_of_ne hne] at hp
  refine ⟨fun {id} hid hfront => ?_, fun {other p} hp => ?_, fun {other p} hp => ?_⟩
  · have hne : id ≠ target := by
      rintro rfl
      simp at hfront
    rw [Function.update_of_ne hne] at hfront
    rw [hother (hplaced.contains hid) hne, h.kept hid hfront]
  · by_cases hne : other = target
    · subst hne
      obtain rfl : placed.nextId = p := by simpa using hp
      rw [hplaced.sound.incoming_prependNode_target (hplaced.contains hlive), hmovable,
        h.kept hlive hnone]
    · have hold := hlater hp hne
      rw [hother (hplaced.contains (hplaced.contains_target hold)) hne, h.behind hold]
  · by_cases hne : other = target
    · subst hne
      obtain rfl : placed.nextId = p := by simpa using hp
      rw [hplaced.sound.incoming_prependChain_first (hplaced.contains hlive) (cons_ne_nil _ _),
        hmovable]
    · have hold := hlater hp hne
      have hphi : p ≠ target := Ne.symm (hplaced.ne_phi hlive hold)
      rw [hother (hplaced.contains_phi hold) hphi, h.slots hold]

end Queued

/-- Where the phi blocks stand can be read off the graph. -/
theorem Placed.front_unique {front' : NodeId → Option NodeId} (h : Placed cfg placed front)
    (h' : Placed cfg placed front') : front = front' := by
  have hhalf : ∀ {f f' : NodeId → Option NodeId}, Placed cfg placed f → Placed cfg placed f' →
      ∀ {target p}, f target = some p → f' target = some p := by
    intro f f' hf hf' target p hp
    have hdead := (hf.phi hp).1
    obtain ⟨other, hother⟩ := (hf'.live (hf.contains_phi hp)).resolve_left (by simp [hdead])
    obtain ⟨rfl, -⟩ := Prod.mk.inj ((hf'.outgoing_phi hother).mp ((hf.outgoing_phi hp).mpr rfl))
    exact hother
  funext target
  exact Option.ext fun p => ⟨hhalf h h', hhalf h' h⟩

/-! ### Nodes that need a phi block -/

/-- A node needs a phi block if it is in the iterated dominance frontier of the sites of a variable.
-/
def NeedsPhi (cfg : FlowGraph) (id : NodeId) : Prop :=
  ∃ var, ∀ nodes : Set NodeId, cfg.frontierOf (cfg.definitionSites var ∪ nodes) ⊆ nodes → id ∈ nodes

/-- Targets are the nodes that need a phi. -/
theorem Sound.mem_phiTargets_iff (h : cfg.Sound) : id ∈ cfg.phiTargets ↔ cfg.NeedsPhi id := by
  rw [h.mem_phiTargets]
  refine exists_congr fun var => ⟨fun hvar nodes hclosed => ?_, fun hneeds => ?_⟩
  · exact h.mem_of_mem_phiSites hclosed (mem_phiVars.mp hvar).2
  · have hmem : id ∈ cfg.phiRequests var := by
      refine hneeds _ ?_
      rintro y ⟨x, hx, hxy⟩
      refine h.mem_phiRequests.mpr (h.phiSites_closed (x := x) ?_ hxy)
      exact hx.imp h.mem_sites_iff.mpr h.mem_phiRequests.mp
    obtain ⟨vars, hplaced, hvar⟩ := hmem
    rw [placements_eq] at hplaced
    obtain ⟨other, -, heq⟩ := mem_map.mp hplaced
    cases heq
    exact hvar

/-- The number of nodes that need a phi. -/
theorem Sound.ncard_needsPhi (h : cfg.Sound) :
    Set.ncard {id | cfg.NeedsPhi id} = cfg.phiTargets.length := by
  have hset : {id | cfg.NeedsPhi id} = ↑cfg.phiTargets.toFinset := by
    ext id
    simp [h.mem_phiTargets_iff]
  rw [hset, Set.ncard_coe_finset, toFinset_card_of_nodup (nodup_phiTargets cfg)]

/-! ### The shape of the converted graph -/

/-- Where a link leads if a phi block is passed by. -/
def pastPhi (cfg : FlowGraph) (link : Link) : Link :=
  if cfg.kind? link.1 = some .phi then ((cfg.successors link.1).head?.getD link.1, link.2) else link

/-- A graph with phi blocks in front of some nodes of another. -/
structure Fronted (cfg ssa : FlowGraph) (front : NodeId → Option NodeId) : Prop
    extends Queued cfg ssa front where
  start : ssa.start = cfg.start
  kind : ∀ {id}, cfg.contains id → ssa.kind? id = cfg.kind? id
  live : ∀ {id}, ssa.contains id → cfg.contains id ∨ ∃ target, front target = some id
  unique : ∀ {target other p}, front target = some p → front other = some p → target = other
  bypassed : ∀ {id}, cfg.contains id → (ssa.outgoing id).map ssa.pastPhi = cfg.outgoing id
  phi : ∀ {target p}, front target = some p → cfg.contains p = false ∧
    ssa.outgoing p = [(target, none)] ∧
    ∃ phi span, ssa.node? p = some (.phi phi span) ∧ phi.arity = (cfg.entries target).length

/-- Only the shape matters. -/
theorem Queued.congr (h : Queued cfg placed front) (hshape : SameShape placed ssa) :
    Queued cfg ssa front where
  kept hid hnone := (hshape.incoming _).trans (h.kept hid hnone)
  behind hp := (hshape.incoming _).trans (h.behind hp)
  slots hp := (hshape.incoming _).trans (h.slots hp)

namespace Converted

/-- The edges into phi blocks are those into their nodes, in order, and each node that needs one has
one. -/
theorem queued (h : Converted cfg ssa placed front entry) :
    Queued cfg ssa front ∧ cfg.placePhis.2 = Set.ncard {id | cfg.NeedsPhi id} ∧
      ∀ id, (front id).isSome ↔ cfg.NeedsPhi id := by
  obtain ⟨front', placed', hresult, hplaced, hqueued, hfront⟩ :=
    h.wellFormed.exists_placed (P := Queued cfg) (.refl cfg)
      fun span hplaced hlive hnone hqueued => hqueued.prepend hplaced hlive hnone _
  obtain rfl : placed = placed' := by rw [h.eq, hresult]
  obtain rfl := h.toPlaced.front_unique hplaced
  refine ⟨hqueued.congr h.shape, ?_, fun id => ?_⟩
  · rw [hresult, h.wellFormed.sound.ncard_needsPhi]
  · rw [hfront, h.wellFormed.sound.mem_phiTargets_iff]

variable (h : Converted cfg ssa placed front entry) (hphi : ∀ id, cfg.kind? id ≠ some .phi)
include h hphi

/-- Past a phi block a link leads where it led before. -/
theorem pastPhi_entrance {link : Link} (hlink : link ∈ cfg.outgoing id) :
    ssa.pastPhi (cfg.entrance front id link.1, link.2) = link := by
  have hlive := h.wellFormed.sound.graph.contains_target hlink
  have hstands : Stands front (cfg.entrance front id link.1) link.1 := Placed.stands_entrance ..
  rcases hstands with heq | hp
  · rw [heq, pastPhi, if_neg]
    rw [h.kind?_of_contains hlive]
    exact hphi _
  · rw [pastPhi, if_pos (h.kind?_phi hp), Graph.successors, h.outgoing_ssa_phi hp]
    rfl

/-- Conversion fronts the graph. -/
theorem fronted : Fronted cfg ssa front where
  toQueued := h.queued.1
  start := h.shape.start.trans h.start
  kind := h.kind?_of_contains
  live := h.live_cases
  unique := h.unique
  bypassed {id} hid := by
    rw [h.outgoing_ssa hid, map_map]
    conv_rhs => rw [← map_id (cfg.outgoing id)]
    exact map_congr_left fun link hlink => h.pastPhi_entrance hphi hlink
  phi {target p} hp := by
    refine ⟨(h.phi hp).1, h.outgoing_ssa_phi hp, ?_⟩
    obtain ⟨node, hnode⟩ := exists_node (contains_of_kind? (h.kind?_phi hp))
    have hkind := h.kind?_phi hp
    rw [kind?, hnode, Option.map_some, Option.some.injEq] at hkind
    cases node with
    | phi phi span =>
      refine ⟨phi, span, hnode, ?_⟩
      rw [← (h.slots_ssa hp hnode).1, h.queued.1.slots hp]
    | _ => cases hkind

/-- What is entered still is, by its phi block if it has one. -/
theorem incomingFits_ssa {kind : Kind} (hkind : ssa.kind? id = some kind) :
    ssa.IncomingFits id kind := by
  have hqueued := h.queued.1
  rcases h.live_cases (contains_of_kind? hkind) with hlive | ⟨target, hp⟩
  · rw [h.kind?_of_contains hlive] at hkind
    refine ((wellFormed_iff_fitting.mp h.wellFormed).incoming hkind).of_entered
      (fun heq => hphi id (heq ▸ hkind)) (h.shape.start.trans h.start) (fun hnone => ?_)
      (fun hsome => ?_) fun _ hother => ?_
    all_goals cases hfront : front id with
    | none => rw [hqueued.kept hlive hfront]; assumption
    | some p => ?_
    · obtain ⟨-, hmovable, -⟩ := h.phi hfront
      exact absurd (by simp [movableIncoming, hnone]) hmovable
    · simp [hqueued.behind hfront]
    · have hne := Ne.symm (h.ne_phi hlive hfront)
      exact ⟨(p, none), by simp [hqueued.behind hfront], hne⟩
  · obtain rfl := Option.some.inj ((h.kind?_phi hp).symm.trans hkind)
    obtain ⟨phi, span, hnode, -⟩ := ((h.fronted hphi).phi hp).2.2
    exact (h.slots_ssa hp hnode).2

/-- The converted graph is well-formed. -/
theorem wellFormed_ssa : ssa.WellFormed := by
  have hcfg := wellFormed_iff_fitting.mp h.wellFormed
  refine wellFormed_iff_fitting.mpr ⟨h.shape.sound h.sound, ?_, h.outgoingFits_ssa,
    h.incomingFits_ssa hphi, fun {id phi span} hnode => ?_⟩
  · rw [h.shape.start, h.start, h.kind?_of_contains hcfg.sound.start, hcfg.start]
  · obtain ⟨target, hp⟩ := h.front_of_kind hphi (kind?_eq_some hnode)
    exact (h.slots_ssa hp hnode).1

end Converted

/-- Every well-formed flow graph without phi nodes, in which control reaches no block that holds a
stub, can be converted to single assignment form. The answer is the number of nodes that need a phi
block. The result is well formed, and is the original graph with phi blocks in front of these nodes.
-/
theorem WellFormed.fronted_toSsa (h : cfg.WellFormed) (hphi : ∀ id, cfg.kind? id ≠ some .phi)
    (hstub : ∀ id node, cfg.Reaches cfg.start id → cfg.node? id = some node →
      node.holdsStub = false) :
    ∃ ssa front, cfg.toSsa = .ok (ssa, Set.ncard {id | cfg.NeedsPhi id}) ∧ ssa.WellFormed ∧
      Fronted cfg ssa front ∧ ∀ id, (front id).isSome ↔ cfg.NeedsPhi id := by
  have hreach : cfg.reachesStub = false := by
    refine any_eq_false.mpr fun id hid => ?_
    cases hnode : cfg.node? id with
    | none => simp
    | some node => simp [hstub id node (h.sound.mem_reached.mp hid) hnode]
  obtain ⟨ssa, count, placed, front, entry, htoSsa, hconverted⟩ := h.exists_converted hreach
  obtain ⟨-, hcount, hfront⟩ := hconverted.queued
  rw [(h.converted_toSsa htoSsa).1, hcount] at htoSsa
  exact ⟨ssa, front, htoSsa, hconverted.wellFormed_ssa hphi, hconverted.fronted hphi, hfront⟩

/-- Two ways to a spin, one of them past an assignment. -/
def spinning : FlowGraph :=
  .ofNodes .dummy [.branch (.temp "c") .dummy, .assign "x" (.const 1) .dummy, .spin .dummy]
    [⟨0, 1, none⟩, ⟨1, 2, some true⟩, ⟨1, 3, some false⟩, ⟨2, 3, none⟩, ⟨3, 3, none⟩]

/-- The spin gets a phi block with two slots and keeps its own edge. -/
theorem fronted_toSsa_spinning : spinning.WellFormed ∧ (∀ id, spinning.kind? id ≠ some .phi) ∧
    (∀ id node, spinning.Reaches spinning.start id → spinning.node? id = some node →
      node.holdsStub = false) ∧
    ∃ ssa front, spinning.toSsa = .ok (ssa, 1) ∧ ssa.WellFormed ∧ Fronted spinning ssa front ∧
      front 3 = some 4 ∧ ssa.incoming 4 = [(1, some false), (2, none)] ∧
      ssa.incoming 3 = [(3, none), (4, none)] := by
  have hwell : spinning.WellFormed := ⟨by decide +kernel, .dummy, rfl⟩
  have hphi : ∀ id, spinning.kind? id ≠ some .phi := kind?_ne_of_nodes (by decide +kernel)
  have hstubs : ∀ id node, spinning.node? id = some node → node.holdsStub = false :=
    forall_node_of_nodes (by decide +kernel)
  have hstub : ∀ id node, spinning.Reaches spinning.start id → spinning.node? id = some node →
      node.holdsStub = false := fun id node _ => hstubs id node
  have hresult : spinning.toSsa.toOption.any (fun result => decide (result.2 = 1 ∧
      result.1.outgoing 4 = [(3, none)] ∧ result.1.kind? 4 = some .phi)) := by decide +kernel
  obtain ⟨ssa, front, htoSsa, hssa, hfronted, -⟩ := WellFormed.fronted_toSsa hwell hphi hstub
  rw [htoSsa] at hresult
  obtain ⟨hcount, hout, hkind⟩ := of_decide_eq_true hresult
  dsimp only at hcount hout hkind
  rw [hcount] at htoSsa
  obtain ⟨target, hp⟩ := (hfronted.live (contains_of_kind? hkind)).resolve_left (by decide +kernel)
  obtain rfl : target = 3 := by simpa [(hfronted.phi hp).2.1] using hout
  refine ⟨hwell, hphi, hstub, ssa, front, htoSsa, hssa, hfronted, hp, ?_, ?_⟩
  · rw [hfronted.slots hp]
    decide +kernel
  · rw [hfronted.behind hp]
    decide +kernel

/-- A block with a stub in it. -/
def stubbed : FlowGraph :=
  .ofNodes .dummy [.block [.stub .dummy] .dummy, .ret .dummy]
    [⟨0, 1, none⟩, ⟨1, 2, none⟩]

/-- Well-formedness does not look into blocks, and the conversion refuses a stub in one. -/
theorem not_toSsa_stubbed : stubbed.WellFormed ∧ (∀ id, stubbed.kind? id ≠ some .phi) ∧
    stubbed.toSsa = .error .stubInRenaming := by
  refine ⟨⟨by decide +kernel, .dummy, rfl⟩, kind?_ne_of_nodes (by decide +kernel), ?_⟩
  have hstub : stubbed.reachesStub := by decide +kernel
  rw [toSsa, if_pos hstub]

end FlowGraph

end Flowgraph

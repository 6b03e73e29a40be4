import Flowgraph.Proofs.Flow.Splicing

/-!
# Splices

The operations that put new nodes into a flow graph, as data. A splice is carried out step by step
or as a whole, with the same outcome (`Splice.perform_eq`). It gives some edges other ends and adds
edges. The image of an edge tells the edge (`Splice.restore_image`), as a new end is a new number.

An edge that gets another source comes last at its target (`Splice.requeued`), so the slots of a phi
block are kept only if the redirected edges were last already (`Splice.slots_kept_iff_suffix`). A
chain into another edge gives an argument to the wrong edge (`Splice.slots_moved_overwriting`).
-/

namespace Flowgraph

open List FlowGraph Graph

namespace Graph

variable {α : Type} {g : Graph α} {chain : List α} {edge : Edge}

/-- The edges along a chain that is inserted next. -/
def chainEdges (g : Graph α) (chain : List α) : List Edge :=
  (List.range (chain.length - 1)).map fun k => ⟨g.nextId + k, g.nextId + k + 1, none⟩

/-- The edges of a chain. -/
theorem mem_chainEdges : edge ∈ g.chainEdges chain ↔
    ∃ k < chain.length - 1, ⟨g.nextId + k, g.nextId + k + 1, none⟩ = edge := by
  simp [chainEdges]

/-- Chain edges have new ends, and none leads to the first node. -/
theorem lt_of_mem_chainEdges (h : edge ∈ g.chainEdges chain) :
    g.nextId ≤ edge.source ∧ g.nextId < edge.target := by
  obtain ⟨k, -, rfl⟩ := mem_chainEdges.mp h
  exact ⟨Nat.le_add_right .., Nat.lt_succ_of_le (Nat.le_add_right ..)⟩

/-- The last node has no chain edge. -/
theorem source_lt_of_mem_chainEdges (h : edge ∈ g.chainEdges chain) :
    edge.source < (g.chainEnds chain).2 := by
  obtain ⟨k, hk, rfl⟩ := mem_chainEdges.mp h
  exact Nat.add_lt_add_left hk _

/-- Chain edges are listed once. -/
theorem nodup_chainEdges (g : Graph α) (chain : List α) : (g.chainEdges chain).Nodup := by
  refine nodup_range.map fun first second heq => ?_
  have hsource : g.nextId + first = g.nextId + second := (Edge.mk.inj heq).1
  exact Nat.add_left_cancel hsource

end Graph

/-- An operation that puts new nodes into a flow graph. -/
inductive Splice where
  | prepend (id : NodeId) (chain : List Node)
  | postpend (id : NodeId) (chain : List Node)
  | innerInsert (edge : Edge) (chain : List Node)
  | replace (id : NodeId) (node : Node)

namespace Splice

open Graph (entering)

variable {cfg cfg' : FlowGraph} {p : NodeId} {edge : Edge} {splice : Splice}

/-! ### Carrying out -/

/-- Do a splice and keep the graph that comes out. -/
def run (cfg : FlowGraph) : Splice → Except GraphError FlowGraph
  | prepend id chain => (cfg.prepend id chain).map Prod.fst
  | postpend id chain => (cfg.postpend id chain).map Prod.fst
  | innerInsert edge chain => (cfg.innerInsert edge chain).map Prod.fst
  | replace id node => (cfg.replace id node).map Prod.fst

/-- Carry out a splice step by step, and answer the ends of what was put in. -/
def perform : Splice → Splicing (Option (NodeId × NodeId))
  | prepend id chain => Splicing.prepend id chain
  | postpend id chain => Splicing.postpend id chain
  | innerInsert edge chain => Splicing.innerInsert edge chain
  | replace id node => (fun new => some (new, new)) <$> Splicing.replace id node

/-- The nodes that a splice puts in. -/
def chain : Splice → List Node
  | prepend _ chain | postpend _ chain | innerInsert _ chain => chain
  | replace _ node => [node]

/-- Whether the node or the edge at which a splice acts is there. -/
def present (cfg : FlowGraph) : Splice → Bool
  | prepend id _ | postpend id _ | replace id _ => cfg.contains id
  | innerInsert edge _ => cfg.hasEdge edge

/-- Why a splice is refused whose node or edge is not there. -/
def missing : Splice → GraphError
  | prepend id _ | postpend id _ | replace id _ => .missingNode id
  | innerInsert edge _ => .missingEdge edge.source edge.target (some edge.label)

/-- The graph behind a splice. -/
def result (cfg : FlowGraph) : Splice → FlowGraph
  | prepend id chain => cfg.prependChain id chain
  | postpend id chain => cfg.postpendChain id chain
  | innerInsert edge chain => cfg.splitEdge edge chain
  | replace id node => cfg.substitute id node

/-- The steps of a splice are carried out all, or none of them shows. -/
theorem perform_eq (h : cfg.Sound) (splice : Splice) : splice.perform.run cfg =
    if splice.present cfg then
      if splice.chain = [] then .ok none cfg
      else .ok (some (cfg.chainEnds splice.chain)) (splice.result cfg)
    else .error splice.missing cfg := by
  have hat : ∀ (put : FlowGraph → NodeId → List Node → FlowGraph) (id : NodeId) (chain : List Node),
      Splicing.settled cfg (FlowGraph.spliceAt put cfg id chain) =
        if cfg.contains id then
          if chain = [] then .ok none cfg else .ok (some (cfg.chainEnds chain)) (put cfg id chain)
        else .error (.missingNode id) cfg := by
    intro put id chain
    cases hid : cfg.contains id <;> cases chain <;> simp [FlowGraph.spliceAt, hid, Splicing.settled]
  cases splice with
  | prepend id chain => exact (Splicing.run_prepend h id chain).trans (hat ..)
  | postpend id chain => exact (Splicing.run_postpend h id chain).trans (hat ..)
  | innerInsert edge chain =>
    rw [perform, Splicing.run_innerInsert h]
    cases hedge : cfg.hasEdge edge <;> cases chain <;>
      simp [FlowGraph.innerInsert, hedge, Splicing.settled, present, chain, missing, result]
  | replace id node =>
    have hmap : ∀ outcome : Except GraphError (FlowGraph × NodeId),
        (Splicing.replace id node).run cfg = Splicing.settled cfg outcome →
          (perform (.replace id node)).run cfg =
            Splicing.settled cfg (outcome.map fun found => (found.1, some (found.2, found.2))) := by
      intro outcome houtcome
      rw [perform, map_eq_pure_bind, EStateM.run_bind, houtcome]
      cases outcome <;> rfl
    rw [hmap _ (Splicing.run_replace h id node), FlowGraph.replace]
    cases hid : cfg.contains id <;> simp [present, chain, missing, result, hid, Except.map,
      Splicing.settled]
    rfl

/-! ### Edges that move and edges that are added -/

/-- Whether a splice gives an edge other ends. A spin keeps its edge to itself. -/
def moves (cfg : FlowGraph) : Splice → Edge → Bool
  | prepend id _, edge => edge.target = id ∧ ¬ (edge.source = id ∧ cfg.kind? id = some .spin)
  | postpend id _, edge => edge.source = id ∧ ¬ (edge.target = id ∧ cfg.kind? id = some .spin)
  | innerInsert cut _, edge => edge = cut
  | replace id _, edge => edge.source = id ∨ edge.target = id

/-- An edge with its new ends. -/
def shift (cfg : FlowGraph) : Splice → Edge → Edge
  | prepend _ chain, edge | innerInsert _ chain, edge =>
    { edge with target := (cfg.chainEnds chain).1 }
  | postpend _ chain, edge => { edge with source := (cfg.chainEnds chain).2 }
  | replace id _, edge =>
    { edge with
      source := if edge.source = id then cfg.nextId else edge.source
      target := if edge.target = id then cfg.nextId else edge.target }

/-- What becomes of an edge. -/
def image (cfg : FlowGraph) (splice : Splice) (edge : Edge) : Edge :=
  if splice.moves cfg edge then splice.shift cfg edge else edge

/-- The edges along the chain, and the one that ties it in. -/
def added (cfg : FlowGraph) : Splice → List Edge
  | prepend id chain => ⟨(cfg.chainEnds chain).2, id, none⟩ :: cfg.chainEdges chain
  | postpend id chain => ⟨id, (cfg.chainEnds chain).1, none⟩ :: cfg.chainEdges chain
  | innerInsert edge chain => ⟨(cfg.chainEnds chain).2, edge.target, none⟩ :: cfg.chainEdges chain
  | replace .. => []

/-- The node that a splice takes away, if it takes one away. -/
def removed? : Splice → Option NodeId
  | replace id _ => some id
  | _ => none

/-! ### Edges stay apart -/

/-- The node that stands for new ends of edges. -/
def site : Splice → NodeId
  | prepend id _ | postpend id _ | replace id _ => id
  | innerInsert edge _ => edge.target

/-- The edge with the site in the place of new numbers. -/
def restore (cfg : FlowGraph) (splice : Splice) (edge : Edge) : Edge :=
  { edge with
    source := if edge.source < cfg.nextId then edge.source else splice.site
    target := if edge.target < cfg.nextId then edge.target else splice.site }

/-- Edges join old nodes. -/
theorem lt_nextId_of_hasEdge (h : cfg.Sound) (hedge : cfg.hasEdge edge) :
    edge.source < cfg.nextId ∧ edge.target < cfg.nextId :=
  have hlive := h.contains_ends hedge
  ⟨lt_nextId_of_contains hlive.1, lt_nextId_of_contains hlive.2⟩

/-- The image of an edge tells which edge it was. -/
theorem restore_image (h : cfg.Sound) (splice : Splice) (hedge : cfg.hasEdge edge) :
    splice.restore cfg (splice.image cfg edge) = edge := by
  obtain ⟨hsource, htarget⟩ := lt_nextId_of_hasEdge h hedge
  have hends : ∀ chain : List Node, ¬ (cfg.chainEnds chain).1 < cfg.nextId ∧
      ¬ (cfg.chainEnds chain).2 < cfg.nextId :=
    fun chain => ⟨Nat.not_lt.mpr (le_chainEnds cfg chain).1,
      Nat.not_lt.mpr (le_chainEnds cfg chain).2⟩
  rw [image]
  split
  · next hmoves =>
    cases splice with
    | prepend id chain =>
      obtain ⟨rfl, -⟩ := of_decide_eq_true hmoves
      simp [restore, shift, site, hsource, hends]
    | postpend id chain =>
      obtain ⟨rfl, -⟩ := of_decide_eq_true hmoves
      simp [restore, shift, site, htarget, hends]
    | innerInsert cut chain =>
      obtain rfl := of_decide_eq_true hmoves
      simp [restore, shift, site, hsource, hends]
    | replace id node =>
      obtain ⟨source, target, label⟩ := edge
      by_cases hs : source = id <;> by_cases ht : target = id <;>
        simp_all [restore, shift, site]
  · simp [restore, hsource, htarget]

/-- An edge keeps its ends or gets new numbers there. -/
theorem shift_ends (cfg : FlowGraph) (splice : Splice) (edge : Edge) :
    ((splice.shift cfg edge).source = edge.source ∨ cfg.nextId ≤ (splice.shift cfg edge).source) ∧
      ((splice.shift cfg edge).target = edge.target ∨
        cfg.nextId ≤ (splice.shift cfg edge).target) := by
  cases splice with
  | prepend id chain | innerInsert cut chain => exact ⟨.inl rfl, .inr (Nat.le_refl _)⟩
  | postpend id chain => exact ⟨.inr (Nat.le_add_right ..), .inl rfl⟩
  | replace id node =>
    refine ⟨?_, ?_⟩
    · by_cases hid : edge.source = id <;> simp [shift, hid]
    · by_cases hid : edge.target = id <;> simp [shift, hid]

/-- An end that stays or is new is no old node but the one it was. -/
theorem ne_of_shifted {old new : NodeId} (h : new = old ∨ cfg.nextId ≤ new) (hp : p < cfg.nextId)
    (hne : old ≠ p) : new ≠ p := by
  rcases h with hsame | hfresh
  · rwa [hsame]
  · exact Nat.ne_of_gt (Nat.lt_of_lt_of_le hp hfresh)

/-- No edge moves to a place that is taken. -/
theorem hasEdge_shift (h : cfg.Sound) (hmoves : splice.moves cfg edge) :
    cfg.hasEdge (splice.shift cfg edge) = false := by
  refine Bool.eq_false_iff.mpr fun hshifted => ?_
  obtain ⟨hsource, htarget⟩ := lt_nextId_of_hasEdge h hshifted
  cases splice with
  | prepend id chain => exact Nat.lt_irrefl _ htarget
  | postpend id chain => exact Nat.not_lt.mpr (Nat.le_add_right ..) hsource
  | innerInsert cut chain => exact Nat.lt_irrefl _ htarget
  | replace id node =>
    rcases of_decide_eq_true hmoves with hid | hid
    · simp [shift, hid] at hsource
    · simp [shift, hid] at htarget

/-- Added edges are listed once. -/
theorem nodup_added (hpresent : splice.present cfg) (h : cfg.Sound) : (splice.added cfg).Nodup := by
  have hlate : ∀ {target : NodeId}, cfg.contains target → ∀ (source : NodeId) (chain : List Node),
      (⟨source, target, none⟩ : Edge) ∉ cfg.chainEdges chain := by
    intro target hlive source chain hmem
    exact Nat.lt_asymm (lt_nextId_of_contains hlive) (lt_of_mem_chainEdges hmem).2
  cases splice with
  | prepend id chain => exact nodup_cons.mpr ⟨hlate hpresent _ _, nodup_chainEdges ..⟩
  | postpend id chain =>
    refine nodup_cons.mpr ⟨fun hmem => ?_, nodup_chainEdges ..⟩
    exact Nat.lt_irrefl _ (lt_of_mem_chainEdges hmem).2
  | innerInsert cut chain =>
    exact nodup_cons.mpr ⟨hlate (h.contains_ends hpresent).2 _ _, nodup_chainEdges ..⟩
  | replace id node => exact nodup_nil

/-- No edge becomes one that is added. -/
theorem image_not_mem_added (h : cfg.Sound) (splice : Splice) (hedge : cfg.hasEdge edge) :
    splice.image cfg edge ∉ splice.added cfg := by
  obtain ⟨hsource, htarget⟩ := lt_nextId_of_hasEdge h hedge
  -- What is added has a new number at one end, and there an edge that moves keeps its own.
  have hnewSource : ∀ (image tie : Edge) (chain : List Node), image.source = edge.source →
      cfg.nextId ≤ tie.source → image ∉ tie :: cfg.chainEdges chain := by
    intro image tie chain himage htie hmem
    rw [← himage] at hsource
    rcases mem_cons.mp hmem with rfl | hmem
    · exact Nat.not_lt.mpr htie hsource
    · exact Nat.not_lt.mpr (lt_of_mem_chainEdges hmem).1 hsource
  have hnewTarget : ∀ (image tie : Edge) (chain : List Node), image.target = edge.target →
      cfg.nextId ≤ tie.target → image ∉ tie :: cfg.chainEdges chain := by
    intro image tie chain himage htie hmem
    rw [← himage] at htarget
    rcases mem_cons.mp hmem with rfl | hmem
    · exact Nat.not_lt.mpr htie htarget
    · exact Nat.lt_asymm (lt_of_mem_chainEdges hmem).2 htarget
  cases splice with
  | prepend id chain | innerInsert cut chain =>
    refine hnewSource _ _ _ ?_ (Nat.le_add_right ..)
    rw [image]
    split <;> rfl
  | postpend id chain =>
    refine hnewTarget _ _ _ ?_ (Nat.le_refl _)
    rw [image]
    split <;> rfl
  | replace id node => exact not_mem_nil

/-! ### Edges that come last -/

/-- The node at which a splice acts, if it acts at a node. -/
def site? : Splice → Option NodeId
  | prepend id _ | postpend id _ | replace id _ => some id
  | innerInsert .. => none

/-- The edges into a node that get another source, in order. -/
def redirected (cfg : FlowGraph) (p : NodeId) : Splice → List Link
  | prepend .. => []
  | postpend id chain => if chain = [] then [] else entering (cfg.outgoing id) id p
  | innerInsert edge chain =>
    if chain = [] then [] else entering [(edge.target, edge.label)] edge.source p
  | replace id _ => entering (cfg.outgoing id) id p

/-- What enters a node in the place of an edge that was redirected. -/
def rerouted (cfg : FlowGraph) : Splice → Link → Link
  | prepend .., link => link
  | postpend _ chain, link => ((cfg.chainEnds chain).2, link.2)
  | innerInsert _ chain, _ => ((cfg.chainEnds chain).2, none)
  | replace .., link => (cfg.nextId, link.2)

/-- The edge that takes the place of another at a node. -/
def follow (cfg : FlowGraph) (p : NodeId) (splice : Splice) : Link → Link :=
  Requeued.follow (splice.redirected cfg p) (splice.rerouted cfg)

/-- The graph of an answer. -/
theorem exists_spliced {ε β : Type} {answer : Except ε (FlowGraph × β)}
    (h : answer.map Prod.fst = .ok cfg') : ∃ spliced, answer = .ok spliced ∧ spliced.1 = cfg' := by
  cases answer with
  | error => cases h
  | ok spliced => exact ⟨spliced, rfl, Except.ok.inj h⟩

/-- Splices elsewhere leave a node alone, and redirected edges come last. -/
theorem requeued (h : cfg.Sound) (hrun : splice.run cfg = .ok cfg') (hp : cfg.contains p)
    (hsite : splice.site? ≠ some p) :
    cfg'.node? p = cfg.node? p ∧
      Requeued (cfg.incoming p) (cfg'.incoming p) (splice.redirected cfg p)
        (splice.rerouted cfg) := by
  -- Without a chain nothing happens, and a chain in front of another node redirects no edge into
  -- this one.
  have hsame : ∀ next, Requeued (cfg.incoming p) (cfg.incoming p) [] next :=
    Requeued.refl (h.graph.incoming_nodup p)
  cases splice with
  | prepend id chain =>
    have hne : id ≠ p := fun heq => hsite (congrArg some heq)
    obtain ⟨spliced, hspliced, rfl⟩ := exists_spliced hrun
    obtain ⟨-, ⟨-, heq⟩ | ⟨-, heq⟩⟩ := spliceAt_cases hspliced
    · rw [heq]
      exact ⟨rfl, hsame _⟩
    · rw [heq, node?_prependChain_of_contains hp,
        incoming_prependChain_of_ne hp hne]
      exact ⟨rfl, hsame _⟩
  | postpend id chain =>
    have hne : id ≠ p := fun heq => hsite (congrArg some heq)
    obtain ⟨spliced, hspliced, rfl⟩ := exists_spliced hrun
    obtain ⟨hid, ⟨hchain, heq⟩ | ⟨hchain, heq⟩⟩ := spliceAt_cases hspliced
    · rw [heq, redirected, if_pos hchain]
      exact ⟨rfl, hsame _⟩
    · rw [heq, redirected, if_neg hchain]
      exact ⟨node?_postpendChain_of_contains hp, h.requeued_postpendChain hid hp hne hchain⟩
  | innerInsert edge chain =>
    obtain ⟨spliced, hspliced, rfl⟩ := exists_spliced hrun
    obtain ⟨hedge, ⟨hchain, heq⟩ | ⟨hchain, heq⟩⟩ := innerInsert_cases hspliced
    · rw [heq, redirected, if_pos hchain]
      exact ⟨rfl, hsame _⟩
    · rw [heq, redirected, if_neg hchain]
      exact ⟨node?_splitEdge_of_contains hp, h.requeued_splitEdge hedge hp hchain⟩
  | replace id node =>
    have hne : id ≠ p := fun heq => hsite (congrArg some heq)
    obtain ⟨⟨_, _⟩, hspliced, rfl⟩ := exists_spliced hrun
    obtain ⟨hid, rfl⟩ := replace_cases hspliced
    exact ⟨node?_substitute_of_contains hp hne, h.requeued_substitute node hid hp hne⟩

/-- A splice elsewhere leaves a phi block as it is and takes no edge from it without putting one in
its place. Every slot still belongs to its edge exactly if the edges that get another source were
the last ones already, in the order in which they get it. -/
theorem slots_kept_iff_suffix (hcfg : cfg.Assembled) (hrun : splice.run cfg = .ok cfg') {phi : Phi}
    {span : Span} (hphi : cfg.node? p = some (.phi phi span)) (hsite : splice.site? ≠ some p) :
    cfg'.node? p = some (.phi phi span) ∧
      (cfg'.incoming p).Perm ((cfg.incoming p).map (splice.follow cfg p)) ∧
      ((∀ slot : Nat, (cfg'.incoming p)[slot]? =
        (cfg.incoming p)[slot]?.map (splice.follow cfg p)) ↔
        splice.redirected cfg p <:+ cfg.incoming p) := by
  have hp : cfg.contains p := Graph.contains_of_payload? hphi
  obtain ⟨hnode, hrequeued⟩ := requeued hcfg.sound hrun hp hsite
  refine ⟨hnode.trans hphi, hrequeued.perm, ?_⟩
  rw [← hrequeued.eq_map_iff, List.ext_getElem?_iff]
  simp only [getElem?_map]
  rfl

/-- A store that is reached with an assignment in between and without. -/
def overwriting : Stmt :=
  .seq [
    .instr (.move (.temp "x") (.const 1)) .dummy,
    .instr (.branch (.temp "c") "L") .dummy,
    .instr (.move (.temp "x") (.const 2)) .dummy,
    .instr (.label "L") .dummy,
    .instr (.move (.mem (.temp "p")) (.temp "x")) .dummy,
    .instr .ret .dummy] .dummy

/-- The phi block is entered from the second assignment and from the branch. -/
theorem exists_toSsa_overwriting : ∃ cfg ssa phi span, FlowGraph.ofBody overwriting = .ok cfg ∧
    cfg.toSsa = .ok (ssa, 1) ∧ ssa.node? 7 = some (.phi phi span) ∧
    phi.mappings.toList = [("x_2", ["x_3", "x_1"])] ∧ ssa.incoming 7 = [(4, none), (5, some true)] ∧
    (ssa.node? 4).map Node.render = some "x_3 := 2" ∧ ssa.nextId = 8 := by
  obtain ⟨cfg, hcfg, hconverts⟩ : ∃ cfg, FlowGraph.ofBody overwriting = .ok cfg ∧
      cfg.toSsa.toOption.any fun result => decide (result.2 = 1 ∧
        ((result.1.node? 7).bind Node.phi?).map (·.mappings.toList) =
          some [("x_2", ["x_3", "x_1"])] ∧
        result.1.incoming 7 = [(4, none), (5, some true)] ∧
        (result.1.node? 4).map Node.render = some "x_3 := 2" ∧ result.1.nextId = 8) := by
    apply exists_ok_of_any
    decide +kernel
  obtain ⟨⟨ssa, _⟩, hssa, rfl, hphi, hincoming, hassign, hnext⟩ := exists_ok_of_any hconverts
  obtain ⟨phi, span, hnode, hmappings⟩ := exists_phi_of_map hphi
  exact ⟨cfg, ssa, phi, span, hcfg, hssa, hnode, hmappings, hincoming, hassign, hnext⟩

/-- A node put into an edge. -/
theorem run_innerInsert {edge : Edge} {node : Node} (hedge : cfg.hasEdge edge) :
    (innerInsert edge [node]).run cfg = .ok (cfg.splitEdge edge [node]) := by
  simp [run, FlowGraph.innerInsert, hedge, Except.map]

/-- A chain into the last edge of the phi block keeps the slots. -/
theorem slots_kept_iff_suffix_overwriting : ∃ cfg ssa after phi span,
    FlowGraph.ofBody overwriting = .ok cfg ∧ cfg.toSsa = .ok (ssa, 1) ∧
    (innerInsert ⟨5, 7, some true⟩ [.assign "y" (.const 0) .dummy]).run ssa = .ok after ∧
    ssa.node? 7 = some (.phi phi span) ∧ after.node? 7 = some (.phi phi span) ∧
    ∀ slot : Nat, (after.incoming 7)[slot]? = (ssa.incoming 7)[slot]?.map
      ((innerInsert ⟨5, 7, some true⟩ [.assign "y" (.const 0) .dummy]).follow ssa 7) := by
  obtain ⟨cfg, ssa, phi, span, hcfg, hssa, hphi, -, hincoming, -⟩ := exists_toSsa_overwriting
  have hassembled : ssa.Assembled := .toSsa (.ofBody hcfg) hssa
  have hedge : ssa.hasEdge ⟨5, 7, some true⟩ = true := by
    rw [hassembled.sound.graph.hasEdge_iff_incoming, hincoming]
    simp
  obtain ⟨hkept, -, hslots⟩ := slots_kept_iff_suffix hassembled (run_innerInsert hedge) hphi nofun
  refine ⟨cfg, ssa, _, phi, span, hcfg, hssa, run_innerInsert hedge, hphi, hkept, hslots.mpr ?_⟩
  rw [hincoming]
  exact ⟨[(4, none)], rfl⟩

/-- A chain into the first edge moves both slots: the branch gets the argument `x_3` that is
assigned on the other edge. -/
theorem slots_moved_overwriting : ∃ cfg ssa after phi span,
    FlowGraph.ofBody overwriting = .ok cfg ∧ cfg.toSsa = .ok (ssa, 1) ∧
    (innerInsert ⟨4, 7, none⟩ [.assign "y" (.const 0) .dummy]).run ssa = .ok after ∧
    (ssa.node? 4).map Node.render = some "x_3 := 2" ∧
    ssa.node? 7 = some (.phi phi span) ∧ after.node? 7 = some (.phi phi span) ∧
    phi.mappings.toList = [("x_2", ["x_3", "x_1"])] ∧
    ssa.incoming 7 = [(4, none), (5, some true)] ∧ after.incoming 7 = [(5, some true), (8, none)] ∧
    ¬ ∀ slot : Nat, (after.incoming 7)[slot]? = (ssa.incoming 7)[slot]?.map
      ((innerInsert ⟨4, 7, none⟩ [.assign "y" (.const 0) .dummy]).follow ssa 7) := by
  obtain ⟨cfg, ssa, phi, span, hcfg, hssa, hphi, hmappings, hincoming, hassign, hnext⟩ :=
    exists_toSsa_overwriting
  have hassembled : ssa.Assembled := .toSsa (.ofBody hcfg) hssa
  have hedge : ssa.hasEdge ⟨4, 7, none⟩ = true := by
    rw [hassembled.sound.graph.hasEdge_iff_incoming, hincoming]
    simp
  have hlive : ssa.contains 7 := Graph.contains_of_payload? hphi
  obtain ⟨hnode, hrequeued⟩ := requeued hassembled.sound (run_innerInsert hedge) hlive nofun
  have hafter : (ssa.splitEdge ⟨4, 7, none⟩ [.assign "y" (.const 0) .dummy]).incoming 7 =
      [(5, some true), (ssa.nextId, none)] := by
    rw [hrequeued.eq, hincoming]
    rfl
  rw [hnext] at hafter
  refine ⟨cfg, ssa, _, phi, span, hcfg, hssa, run_innerInsert hedge, hassign, hphi,
    hnode.trans hphi, hmappings, hincoming, hafter, fun hslots => ?_⟩
  have hsuffix := hrequeued.eq_map_iff.mp (ext_getElem? fun slot => by
    rw [hslots, getElem?_map, follow])
  rw [hincoming] at hsuffix
  exact absurd (show [((4 : NodeId), none)] <:+ [(4, none), (5, some true)] from hsuffix)
    (by decide)

end Splice

end Flowgraph

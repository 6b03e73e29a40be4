import Flowgraph.Proofs.Flow.Assembled
import Flowgraph.Proofs.Flow.Component

/-!
# The order of the components

`Components.Condense`: the components split the live nodes into the classes of mutually reachable
ones, each has all edges between its nodes, every other edge leads to a larger number, and one edge
is kept for each pair of neighbours (`FlowGraph.Assembled.condense_components`). A class that the
second search finds is closed under predecessors together with those found before
(`FlowGraph.Gathered.forward`).
-/

namespace Flowgraph

open List Relation

namespace Graph

variable {α : Type} {g : Graph α} {edge : Edge}

/-- The list of edges is complete. -/
theorem mem_edges : edge ∈ g.edges ↔ g.hasEdge edge := by
  simp only [edges, mem_flatMap, mem_edgesFrom, mem_nodes]
  constructor
  · rintro ⟨_, _, _, hedge⟩
    exact hedge
  · intro hedge
    exact ⟨_, contains_of_mem_outgoing (hasEdge_iff.mp hedge), rfl, hedge⟩

/-- Edges are listed once. -/
theorem Sound.nodup_edges (hg : g.Sound) : g.edges.Nodup := by
  refine nodup_flatMap.mpr ⟨fun source _ => hg.nodup_edgesFrom source, ?_⟩
  have hnodes : g.nodes.Nodup := nodup_range.filter _
  refine hnodes.imp fun hne edge hfirst hsecond => hne ?_
  rw [← (mem_edgesFrom.mp hfirst).1, (mem_edgesFrom.mp hsecond).1]

/-- Targets of edges are successors. -/
theorem hasEdge_successors (h : g.hasEdge edge) : edge.target ∈ g.successors edge.source :=
  mem_successors.mpr ⟨edge.label, hasEdge_iff.mp h⟩

end Graph

namespace Components

/-- Keeping one edge for each target component. -/
theorem foldl_keepCrossing (components : Components) (edges : List Edge) {kept : List Edge}
    (hkept : (kept.map fun edge => components.indexOf edge.target).Nodup) :
    ((edges.foldl components.keepCrossing kept).map fun edge =>
        components.indexOf edge.target).Nodup ∧
      (∀ edge ∈ edges.foldl components.keepCrossing kept, edge ∈ kept ∨ edge ∈ edges) ∧
      ∀ edge, edge ∈ kept ∨ edge ∈ edges → ∃ other ∈ edges.foldl components.keepCrossing kept,
        components.indexOf other.target = components.indexOf edge.target := by
  induction edges generalizing kept with
  | nil =>
    refine ⟨hkept, fun edge hedge => .inl hedge, fun edge hedge => ⟨edge, ?_, rfl⟩⟩
    exact hedge.resolve_right not_mem_nil
  | cons first rest ih =>
    rw [foldl_cons]
    by_cases hdone : kept.any fun other =>
        components.indexOf other.target == components.indexOf first.target
    · rw [keepCrossing, if_pos hdone]
      obtain ⟨hnodup, hfrom, hall⟩ := ih hkept
      obtain ⟨same, hsame, heq⟩ := any_eq_true.mp hdone
      refine ⟨hnodup, fun edge hedge => (hfrom edge hedge).imp_right (mem_cons_of_mem _), ?_⟩
      intro edge hedge
      rcases hedge with hedge | hedge
      · exact hall edge (.inl hedge)
      rcases mem_cons.mp hedge with hfirst | hrest
      · obtain ⟨other, hother, hindex⟩ := hall same (.inl hsame)
        exact ⟨other, hother, by rw [hindex, hfirst]; exact beq_iff_eq.mp heq⟩
      · exact hall edge (.inr hrest)
    · rw [keepCrossing, if_neg hdone]
      have hnew : ((kept ++ [first]).map fun edge => components.indexOf edge.target).Nodup := by
        rw [map_append]
        refine nodup_append.mpr ⟨hkept, nodup_singleton _, ?_⟩
        intro index hindex other hother heq
        obtain ⟨edge, hedge, rfl⟩ := mem_map.mp hindex
        obtain rfl : other = components.indexOf first.target := by simpa using hother
        exact hdone (any_eq_true.mpr ⟨edge, hedge, beq_iff_eq.mpr heq⟩)
      obtain ⟨hnodup, hfrom, hall⟩ := ih hnew
      have hmove : ∀ edge,
          edge ∈ kept ++ [first] ∨ edge ∈ rest ↔ edge ∈ kept ∨ edge ∈ first :: rest := by
        intro edge
        simp [or_assoc]
      exact ⟨hnodup, fun edge hedge => (hmove edge).mp (hfrom edge hedge),
        fun edge hedge => hall edge ((hmove edge).mpr hedge)⟩

/-- Numbered components are the classes of mutually reachable nodes, in an order in which every edge
between two of them leads forward. -/
structure Condense (cfg : FlowGraph) (components : Components) : Prop where
  /-- Every live node is listed in the component with its number only. -/
  partition : ∀ id, cfg.contains id → ∀ index,
    id ∈ components.nodesOf index ↔ index = components.indexOf id
  /-- The lists of nodes hold live nodes, each once, and at least one. -/
  listed : ∀ index < components.size, components.nodesOf index ≠ [] ∧
    (components.nodesOf index).Nodup ∧ ∀ id ∈ components.nodesOf index, cfg.contains id
  indexed : ∀ id, cfg.contains id → components.indexOf id < components.size
  /-- Two nodes have one number if each can be reached from the other. -/
  indexOf_eq_iff : ∀ source target, cfg.contains source → cfg.contains target →
    (components.indexOf source = components.indexOf target ↔
      cfg.Reaches source target ∧ cfg.Reaches target source)
  /-- No edge leads backward. -/
  forward : ∀ edge, cfg.hasEdge edge →
    components.indexOf edge.source ≤ components.indexOf edge.target
  /-- A component has the edges between its nodes, each once. -/
  edges : ∀ index < components.size, (components.component index).edges.Nodup ∧
    ∀ edge, edge ∈ (components.component index).edges ↔ cfg.hasEdge edge ∧
      edge.source ∈ components.nodesOf index ∧ edge.target ∈ components.nodesOf index
  /-- A component is cyclic if some node of it lies on a circle. -/
  cyclic : ∀ index < components.size, (components.component index).isCyclic ↔
    ∃ id ∈ components.nodesOf index,
      TransGen (fun source target => target ∈ cfg.successors source) id id
  /-- Kept edges lead forward, from the component that keeps them. -/
  crossing : ∀ index < components.size, ∀ edge ∈ components.crossEdges index,
    cfg.hasEdge edge ∧ edge.source ∈ components.nodesOf index ∧
      index < components.indexOf edge.target
  /-- One edge is kept for each component to which some edge leads. -/
  crossed : ∀ index < components.size,
    ((components.crossEdges index).map fun edge => components.indexOf edge.target).Nodup ∧
    ∀ edge, cfg.hasEdge edge → edge.source ∈ components.nodesOf index →
      edge.target ∉ components.nodesOf index →
      ∃! kept, kept ∈ components.crossEdges index ∧
        kept.target ∈ components.nodesOf (components.indexOf edge.target)
  /-- A start to which no edge leads is in the first component. -/
  start : cfg.incoming cfg.start = [] → components.start = 0

end Components

namespace FlowGraph

variable {cfg : FlowGraph} {id : NodeId}

/-! ### The start comes last in postorder -/

/-- A search that enters a node leaves it last. -/
theorem exists_finished_visitRoot {next : NodeId → List NodeId} {depth : Nat} {walk : Walk}
    (hdepth : 0 < depth) (hnew : walk.number.contains id = false) :
    ∃ rest, (Walk.visitRoot next depth walk id).finished = id :: rest := by
  obtain ⟨depth, rfl⟩ := Nat.exists_eq_succ_of_ne_zero (Nat.ne_of_gt hdepth)
  rw [Walk.visitRoot, Walk.visit, if_neg (by simp [hnew])]
  exact ⟨_, rfl⟩

/-- Nothing leads to an entry without links. -/
theorem Sound.not_reaches_start (h : cfg.Sound) (hstart : cfg.incoming cfg.start = [])
    (hway : cfg.Reaches id cfg.start) : id = cfg.start := by
  rcases ReflTransGen.cases_tail hway with heq | ⟨previous, -, hedge⟩
  · exact heq.symm
  · have hpredecessor := h.graph.mem_predecessors_iff.mpr hedge
    simp [Graph.predecessors, hstart] at hpredecessor

/-- If no edge leads to the start, the first search leaves it last. -/
theorem Sound.postorder_start (h : cfg.Sound) (hstart : cfg.incoming cfg.start = []) :
    ∃ rest, cfg.postorder.reverse = cfg.start :: rest := by
  obtain ⟨new, hleaves⟩ := Walk.leaves_foldl (Walk.visitRoot cfg.successors cfg.slots.size)
    (fun hmem hsmall => Walk.leaves_visit h.successors_live hmem hsmall)
    (fun id hid => Graph.mem_nodes.mpr (h.mem_unreached.mp hid).1)
    (Walk.length_unentered_le_size {} _)
  -- the searches from the nodes out of reach do not come to the start
  have hnew : (cfg.unreached.foldl (Walk.visitRoot cfg.successors cfg.slots.size)
      {}).number.contains cfg.start = false := by
    by_contra hentered
    have hmem : cfg.start ∈ new := by
      simpa using hleaves.entered.mp ((Bool.not_eq_false _).mp hentered)
    obtain ⟨root, hroot, -, hway⟩ := hleaves.reached cfg.start hmem
    have heq := h.not_reaches_start hstart (reaches_of_within hway)
    exact (h.mem_unreached.mp hroot).2 (heq ▸ .refl root)
  have hsize : 0 < cfg.slots.size := Nat.zero_lt_of_lt (Graph.lt_nextId_of_contains h.start)
  rw [postorder, Walk.postorder, reverse_reverse, Graph.depthFirst, foldl_append,
    foldl_cons, foldl_nil]
  exact exists_finished_visitRoot hsize hnew

/-- The lists found so far stay at the front. -/
theorem exists_gather_eq (cfg : FlowGraph) (order roots : List NodeId) (walk : Walk)
    (found : List (List NodeId)) :
    ∃ more, cfg.gather order roots walk found = found.reverse ++ more := by
  induction roots generalizing walk found with
  | nil => exact ⟨[], by rw [gather, append_nil]⟩
  | cons root rest ih =>
    rw [gather]
    split
    · exact ih walk found
    · obtain ⟨more, hmore⟩ := ih _ _
      exact ⟨_, by rw [hmore, reverse_cons, append_assoc]⟩

namespace Sound

variable (h : cfg.Sound) {index : Nat} {edge : Edge}
include h

/-- The component of the start comes first. -/
theorem indexOf_start (hstart : cfg.incoming cfg.start = []) :
    cfg.components.indexOf cfg.start = 0 := by
  obtain ⟨rest, hrest⟩ := h.postorder_start hstart
  obtain ⟨-, -, hentered⟩ := Gathered.nil.visitRoot h h.start (by simp)
  have hfirst : cfg.start ∈ cfg.postorder.reverse.filter fun id =>
      (Walk.visitRoot cfg.predecessors cfg.slots.size {} cfg.start).number.contains id &&
        !({} : Walk).number.contains id := by
    refine mem_filter.mpr ⟨by simp [hrest], ?_⟩
    simp [(hentered cfg.start).mpr (.inr (.refl _))]
  obtain ⟨more, hmore⟩ := exists_gather_eq cfg cfg.postorder.reverse rest
    (Walk.visitRoot cfg.predecessors cfg.slots.size {} cfg.start) [cfg.postorder.reverse.filter _]
  have hmembers : cfg.components.members.toList = _ := calc
    cfg.gather cfg.postorder.reverse cfg.postorder.reverse {} []
      = cfg.gather cfg.postorder.reverse (cfg.start :: rest) {} [] := by rw [← hrest]
    _ = _ := by rw [gather, if_neg (by simp)]
    _ = _ := hmore
  refine h.indexOf_eq (k := 0) ?_ hfirst
  rw [← Array.getElem?_toList, hmembers]
  rfl

/-- Components are not empty, and are in reverse postorder. -/
theorem nodesOf_sublist (hindex : index < cfg.components.size) : cfg.components.nodesOf index ≠ [] ∧
      (cfg.components.nodesOf index).Sublist cfg.postorder.reverse := by
  obtain ⟨after, hgathered, -⟩ := h.gathered_components
  obtain ⟨nodes, hk⟩ : ∃ nodes, cfg.components.members[index]? = some nodes :=
    ⟨_, Array.getElem?_eq_getElem hindex⟩
  have hfound : nodes ∈ cfg.components.members.toList.reverse :=
    mem_reverse.mpr (mem_of_getElem? (by rwa [Array.getElem?_toList]))
  rw [nodesOf_eq hk]
  exact ⟨hgathered.inhabited nodes hfound, hgathered.sublist nodes hfound⟩

/-- Live nodes have a component. -/
theorem indexOf_lt_size (hid : cfg.contains id) :
    cfg.components.indexOf id < cfg.components.size := by
  obtain ⟨nodes, hk, -⟩ := h.exists_members hid
  exact (Array.getElem?_eq_some_iff.mp hk).1

/-- The nodes of a component are the live nodes that have its number. -/
theorem mem_nodesOf : id ∈ cfg.components.nodesOf index ↔
      cfg.contains id ∧ cfg.components.indexOf id = index := by
  constructor
  · intro hid
    by_cases hindex : index < cfg.components.size
    · have hmem := (h.nodesOf_sublist hindex).2.subset hid
      refine ⟨h.mem_postorder.mp (mem_reverse.mp hmem), ?_⟩
      rw [Components.nodesOf, Array.getD_eq_getD_getElem?, Array.getElem?_eq_getElem hindex,
        Option.getD_some] at hid
      exact h.indexOf_eq (Array.getElem?_eq_getElem hindex) hid
    · have hnone : cfg.components.members[index]? = none :=
        Array.getElem?_eq_none (Nat.le_of_not_lt hindex)
      simp [Components.nodesOf, hnone] at hid
  · rintro ⟨hlive, hindex⟩
    rw [← hindex, h.mem_nodesOf_iff hlive]
    exact ⟨.refl id, .refl id⟩

/-- Components are mutual reachability. -/
theorem indexOf_eq_iff {source target : NodeId} (hsource : cfg.contains source)
    (htarget : cfg.contains target) :
    cfg.components.indexOf source = cfg.components.indexOf target ↔ cfg.Mutual source target := by
  rw [← h.mem_nodesOf_iff hsource, h.mem_nodesOf]
  exact ⟨fun heq => ⟨htarget, heq.symm⟩, fun hmem => hmem.2.symm⟩

/-- No edge leads to a component with a smaller number. -/
theorem indexOf_le (hedge : cfg.hasEdge edge) :
    cfg.components.indexOf edge.source ≤ cfg.components.indexOf edge.target := by
  have hlink := Graph.hasEdge_iff.mp hedge
  obtain ⟨after, hgathered, -⟩ := h.gathered_components
  obtain ⟨later, hlater, hsource⟩ := h.exists_members (Graph.contains_of_mem_outgoing hlink)
  obtain ⟨earlier, hearlier, htarget⟩ := h.exists_members (h.graph.contains_target hlink)
  by_contra hgt
  -- the list with the source would then be found after the one with the target
  rw [← Array.getElem?_toList] at hlater hearlier
  obtain ⟨hi, rfl⟩ := List.getElem?_eq_some_iff.mp hearlier
  obtain ⟨hj, rfl⟩ := List.getElem?_eq_some_iff.mp hlater
  have hforward := pairwise_iff_getElem.mp (pairwise_reverse.mp hgathered.forward)
    _ _ hi hj (Nat.lt_of_not_le hgt)
  exact hforward _ hsource _ (Graph.hasEdge_successors hedge) htarget

/-- The edges of a component are those between its nodes. -/
theorem mem_edges_component :
    edge ∈ (cfg.components.component index).edges ↔ cfg.hasEdge edge ∧
      edge.source ∈ cfg.components.nodesOf index ∧ edge.target ∈ cfg.components.nodesOf index := by
  show edge ∈ cfg.edges.filter _ ↔ _
  rw [mem_filter, Graph.mem_edges, h.mem_nodesOf, h.mem_nodesOf, Bool.and_eq_true, beq_iff_eq,
    beq_iff_eq]
  constructor
  · intro ⟨hedge, hsource, htarget⟩
    have hlink := Graph.hasEdge_iff.mp hedge
    exact ⟨hedge, ⟨Graph.contains_of_mem_outgoing hlink, hsource⟩,
      ⟨h.graph.contains_target hlink, htarget⟩⟩
  · intro ⟨hedge, hsource, htarget⟩
    exact ⟨hedge, hsource.2, htarget.2⟩

/-- Components with two nodes or with an edge are those with a circle. -/
theorem isCyclic_iff (hindex : index < cfg.components.size) :
    (cfg.components.component index).isCyclic ↔ ∃ id ∈ cfg.components.nodesOf index,
      TransGen (fun source target => target ∈ cfg.successors source) id id := by
  have hmutual : ∀ {x y}, x ∈ cfg.components.nodesOf index → y ∈ cfg.components.nodesOf index →
      cfg.Mutual x y := by
    intro x y hx hy
    obtain ⟨hlive, hxindex⟩ := h.mem_nodesOf.mp hx
    rwa [← h.mem_nodesOf_iff hlive, hxindex]
  rw [Component.isCyclic, Bool.or_eq_true, decide_eq_true_eq, Bool.not_eq_true',
    isEmpty_eq_false_iff_exists_mem]
  constructor
  · intro hcyclic
    rcases hcyclic with hlength | ⟨edge, hedge⟩
    · have hnodup : (cfg.components.nodesOf index).Nodup :=
        (nodup_reverse.mpr h.nodup_postorder).sublist (h.nodesOf_sublist hindex).2
      change 1 < (cfg.components.nodesOf index).length at hlength
      match hnodes : cfg.components.nodesOf index, hlength with
      | x :: y :: _, _ =>
        rw [hnodes] at hnodup hmutual
        have hne : x ≠ y := fun heq => (nodup_cons.mp hnodup).1 (by simp [heq])
        obtain ⟨hto, hback⟩ := hmutual (x := x) (y := y) (by simp) (by simp)
        rcases ReflTransGen.cases_head hto with heq | ⟨next, hnext, hrest⟩
        · exact absurd heq hne
        · exact ⟨x, by simp, TransGen.head' hnext (hrest.trans hback)⟩
    · obtain ⟨hedge, hsource, htarget⟩ := h.mem_edges_component.mp hedge
      exact ⟨edge.source, hsource,
        TransGen.head' (Graph.hasEdge_successors hedge) (hmutual hsource htarget).2⟩
  · intro ⟨id, hid, hcircle⟩
    obtain ⟨next, hnext, hback⟩ := TransGen.head'_iff.mp hcircle
    obtain ⟨hlive, hidIndex⟩ := h.mem_nodesOf.mp hid
    obtain ⟨label, hlabel⟩ := Graph.mem_successors.mp hnext
    refine .inr ⟨⟨id, next, label⟩, h.mem_edges_component.mpr
      ⟨Graph.hasEdge_iff.mpr hlabel, hid, ?_⟩⟩
    rw [← hidIndex, h.mem_nodesOf_iff hlive]
    exact ⟨.single hnext, hback⟩

/-- The edges among which those kept between components are chosen. -/
theorem mem_leaving :
    edge ∈ (cfg.edges.filter fun edge => cfg.components.indexOf edge.source == index &&
        cfg.components.indexOf edge.target != index) ↔
      cfg.hasEdge edge ∧ edge.source ∈ cfg.components.nodesOf index ∧
        index < cfg.components.indexOf edge.target := by
  rw [mem_filter, Graph.mem_edges, h.mem_nodesOf, Bool.and_eq_true, beq_iff_eq, bne_iff_ne]
  constructor
  · intro ⟨hedge, hsource, htarget⟩
    have hle := h.indexOf_le hedge
    exact ⟨hedge, ⟨Graph.contains_of_mem_outgoing (Graph.hasEdge_iff.mp hedge), hsource⟩, by omega⟩
  · intro ⟨hedge, hsource, htarget⟩
    exact ⟨hedge, hsource.2, by omega⟩

end Sound

open Components in
/-- The components of a flow graph are its classes of mutually reachable nodes in topological order.
-/
theorem Assembled.condense_components (hcfg : cfg.Assembled) : Condense cfg cfg.components := by
  have h := hcfg.sound
  have hpostorder : cfg.postorder.reverse.Nodup := nodup_reverse.mpr h.nodup_postorder
  have hcross (index : Nat) := foldl_keepCrossing cfg.components
    (cfg.edges.filter fun edge => cfg.components.indexOf edge.source == index &&
      cfg.components.indexOf edge.target != index) (show (List.map _ []).Nodup from nodup_nil)
  refine ⟨?_, ?_, ?_, ?_, ?_, ?_, ?_, ?_, ?_, ?_⟩
  · intro id hid index
    rw [h.mem_nodesOf, and_iff_right hid]
    exact eq_comm
  · intro index hindex
    obtain ⟨hne, hsublist⟩ := h.nodesOf_sublist hindex
    exact ⟨hne, hpostorder.sublist hsublist, fun id hid => (h.mem_nodesOf.mp hid).1⟩
  · exact fun id hid => h.indexOf_lt_size hid
  · exact fun source target hsource htarget => h.indexOf_eq_iff hsource htarget
  · exact fun edge hedge => h.indexOf_le hedge
  · exact fun index _ => ⟨h.graph.nodup_edges.filter _, fun edge => h.mem_edges_component⟩
  · exact fun index hindex => h.isCyclic_iff hindex
  · intro index _ edge hedge
    exact h.mem_leaving.mp (((hcross index).2.1 edge hedge).resolve_left not_mem_nil)
  · intro index _
    obtain ⟨hnodup, hfrom, hall⟩ := hcross index
    refine ⟨hnodup, fun edge hedge hsource htarget => ?_⟩
    have hlive := h.graph.contains_target (Graph.hasEdge_iff.mp hedge)
    have hleaving : index < cfg.components.indexOf edge.target := by
      have hle := h.indexOf_le hedge
      rw [(h.mem_nodesOf.mp hsource).2] at hle
      exact Nat.lt_of_le_of_ne hle fun heq => htarget (h.mem_nodesOf.mpr ⟨hlive, heq.symm⟩)
    obtain ⟨kept, hkept, heq⟩ := hall edge (.inr (h.mem_leaving.mpr ⟨hedge, hsource, hleaving⟩))
    have hkeptEdge := (h.mem_leaving.mp ((hfrom kept hkept).resolve_left not_mem_nil)).1
    refine ⟨kept, ⟨hkept, h.mem_nodesOf.mpr ⟨?_, heq⟩⟩, fun other hother => ?_⟩
    · exact h.graph.contains_target (Graph.hasEdge_iff.mp hkeptEdge)
    · exact inj_on_of_nodup_map hnodup hother.1 hkept
        ((h.mem_nodesOf.mp hother.2).2.trans heq.symm)
  · exact fun hstart => h.indexOf_start hstart

/-- A loop with two ways out, entered from the start and twice from a circle out of reach. -/
def converging : FlowGraph :=
  .ofNodes .dummy [.branch (.temp "x") .dummy, .branch (.temp "y") .dummy, .ret .dummy,
      .branch (.temp "z") .dummy, .branch (.temp "z") .dummy]
    [⟨0, 1, none⟩, ⟨1, 2, some true⟩, ⟨1, 3, some false⟩, ⟨2, 1, some true⟩, ⟨2, 3, some false⟩,
      ⟨4, 5, some true⟩, ⟨4, 2, some false⟩, ⟨5, 1, some true⟩, ⟨5, 4, some false⟩]

/-- The circle is numbered between the start and the loop, and one of its edges into the loop is
kept. -/
theorem condense_components_converging :
    converging.Assembled ∧ Components.Condense converging converging.components ∧
      converging.components.toList.map (·.nodes) = [[0], [4, 5], [1, 2], [3]] ∧
      converging.components.crossEdges 1 = [⟨4, 2, some false⟩] := by
  have hconverging : converging.Assembled := .ofNodes ..
  exact ⟨hconverging, hconverging.condense_components, by decide +kernel, by decide +kernel⟩

end FlowGraph

end Flowgraph

import Flowgraph.Flow.Splicing
import Flowgraph.Proofs.Flow.EntryOrder
import Flowgraph.Proofs.Graph.Edit
import Flowgraph.Proofs.Ssa.Placed

/-!
# Splices are carried out as a whole or not at all

A splice takes many steps, and a refusal undoes nothing. In a sound graph this never shows: when the
node or the edge at which a splice acts is there, each edge that it moves is there when its turn
comes, because the edges are distinct, and all ends of new edges are live.
-/

namespace Flowgraph

variable {id : NodeId} {cfg : FlowGraph}

open FlowGraph Graph

/-- A step that is carried out hands its answer to the next one. -/
theorem run_bind_of_ok {ε σ β γ : Type} {step : EStateM ε σ β} {next : β → EStateM ε σ γ}
    {before after : σ} {answer : β} (h : step.run before = .ok answer after) :
    (step >>= next).run before = (next answer).run after := by
  rw [EStateM.run_bind, h]

namespace Graph

variable {α : Type} {g : Graph α} {other : Edge}

/-! ### Edges that move -/

/-- The edges after a new one. -/
theorem hasEdge_addEdge {edge : Edge} (hsource : g.contains edge.source) :
    (g.addEdge edge).hasEdge other ↔ g.hasEdge other ∨ other = edge := by
  obtain ⟨source, target, label⟩ := edge
  obtain ⟨source', target', label'⟩ := other
  rw [hasEdge_iff, mem_outgoing_addEdge hsource, hasEdge_iff]
  simp

/-- The edges after redirection. -/
theorem Sound.hasEdge_redirect (hg : g.Sound) {old new : Edge}
    (hsource : g.contains new.source) :
    (g.redirect old new).hasEdge other ↔ g.hasEdge other ∧ other ≠ old ∨ other = new := by
  have herased : (g.eraseEdges [old]).hasEdge other ↔ g.hasEdge other ∧ other ∉ [old] :=
    hg.hasEdge_eraseEdges
  rw [eraseEdges_cons, eraseEdges_nil, List.mem_singleton] at herased
  rw [redirect, hasEdge_addEdge (by simpa using hsource), herased]

/-- Put other edges in the place of some, one after another. -/
def redirectEach (g : Graph α) (edges : List Edge) (next : Edge → Edge) : Graph α :=
  edges.foldl (fun g edge => g.redirect edge (next edge)) g

/-- Redirection of edges keeps the nodes. -/
@[simp] theorem contains_redirectEach (g : Graph α) (edges : List Edge) (next : Edge → Edge)
    (id : NodeId) : (g.redirectEach edges next).contains id = g.contains id :=
  foldl_keeps (f := (·.contains id)) (fun _ _ _ => contains_redirect ..) g

/-- A chain leaves no old node. -/
theorem outgoing_insertChain_of_lt {chain : List α} (hid : id < g.nextId) :
    (g.insertChain chain).outgoing id = g.outgoing id := by
  suffices hrun : ∀ (count first : Nat) (g : Graph α), id < first →
      (g.joinRun first count).outgoing id = g.outgoing id by
    rw [insertChain, hrun _ _ _ hid, outgoing_foldl_insert]
  intro count
  induction count with
  | zero => exact fun _ _ _ => rfl
  | succ count ih =>
    intro first g hfirst
    rw [joinRun, ih _ _ (Nat.lt_succ_of_lt hfirst), outgoing_addEdge_of_ne (Nat.ne_of_gt hfirst)]

/-! ### Steps -/

namespace Editing

variable {ι : Type}

/-- Inserting a chain in place. -/
theorem run_insertAll (chain : List α) (g : Graph α) :
    (insertAll chain).run g = .ok (List.range' g.nextId chain.length)
      (chain.foldl Graph.insert g) := by
  induction chain generalizing g with
  | nil => rfl
  | cons payload rest ih =>
    have hinsert : (insert payload).run g = .ok g.nextId (g.insert payload) := rfl
    rw [insertAll, run_bind_of_ok hinsert, run_bind_of_ok (ih _), nextId_insert]
    rfl

/-- Joining live nodes in place. -/
theorem run_join_of_contains {edge : Edge} (hsource : g.contains edge.source)
    (htarget : g.contains edge.target) : (join edge).run g = .ok () (g.addEdge edge) := by
  rw [run_join, join_eq_ok hsource htarget]
  rfl

/-- Nodes with neighbouring numbers are joined one to the next. -/
theorem run_joinPairs {first : NodeId} {count : Nat}
    (hlive : ∀ k ≤ count, g.contains (first + k)) :
    (joinPairs (List.range' first (count + 1))).run g = .ok () (g.joinRun first count) := by
  induction count generalizing g first with
  | zero => rfl
  | succ count ih =>
    have hjoin : (join ⟨first, first + 1, none⟩).run g =
        .ok () (g.addEdge ⟨first, first + 1, none⟩) :=
      run_join_of_contains (hlive 0 (Nat.zero_le _)) (hlive 1 (by omega))
    rw [List.range'_succ, List.range'_succ, joinPairs, run_bind_of_ok hjoin, ← List.range'_succ,
      ih (contains_addEdge_run hlive)]
    rfl

/-- A chain is inserted as a whole. -/
theorem run_insertChain {chain : List α} (hchain : chain ≠ []) (g : Graph α) :
    (insertChain chain).run g = .ok (some (g.chainEnds chain)) (g.insertChain chain) := by
  obtain ⟨count, hcount⟩ : ∃ count, chain.length = count + 1 :=
    Nat.exists_eq_succ_of_ne_zero (by simpa using hchain)
  have hlive : ∀ k ≤ count, (chain.foldl Graph.insert g).contains (g.nextId + k) :=
    fun k hk => contains_foldl_insert_add (by omega)
  have hhead : (List.range' g.nextId (count + 1)).head? = some g.nextId := rfl
  have hlast : (List.range' g.nextId (count + 1)).getLast? = some (g.nextId + count) := by
    simp [List.getLast?_range']
  rw [insertChain, run_bind_of_ok (run_insertAll chain g), hcount, hhead, hlast]
  show (joinPairs (List.range' g.nextId (count + 1)) >>= _).run _ = _
  rw [run_bind_of_ok (run_joinPairs hlive), Graph.insertChain, chainEnds, hcount]
  rfl

/-- An empty chain is not tied in. -/
theorem run_tieIn_nil (tie : NodeId → NodeId → Editing α Unit) (g : Graph α) :
    (tieIn [] tie).run g = .ok none g := rfl

/-- Tying a chain in, in place. -/
theorem run_tieIn {chain : List α} (hchain : chain ≠ []) {tie : NodeId → NodeId → Editing α Unit}
    {g' : Graph α}
    (htie : (tie (g.chainEnds chain).1 (g.chainEnds chain).2).run (g.insertChain chain) =
      .ok () g') :
    (tieIn chain tie).run g = .ok (some (g.chainEnds chain)) g' := by
  rw [tieIn, run_bind_of_ok (run_insertChain hchain g)]
  show (tie (g.chainEnds chain).1 (g.chainEnds chain).2 >>= _).run _ = _
  rw [run_bind_of_ok htie]
  rfl

/-- An edge that is there moves between live nodes. -/
theorem run_redirect (hg : g.Sound) {old new : Edge} (hold : g.hasEdge old)
    (hsource : g.contains new.source) (htarget : g.contains new.target) :
    (redirect old new).run g = .ok () (g.redirect old new) := by
  rw [redirect, run_bind_of_ok (run_unlinkEdge_of_hasEdge hg hold),
    run_join_of_contains (by simpa using hsource) (by simpa using htarget)]
  rfl

/-- Edges that are there move one after another. -/
theorem run_forM_redirect (edgeOf : ι → Edge) (next : Edge → Edge) (items : List ι) (hg : g.Sound)
    (hnodup : (items.map edgeOf).Nodup) (hedges : ∀ edge ∈ items.map edgeOf, g.hasEdge edge)
    (hlive : ∀ edge ∈ items.map edgeOf,
      g.contains (next edge).source ∧ g.contains (next edge).target) :
    (items.forM fun item => redirect (edgeOf item) (next (edgeOf item))).run g =
      .ok () (g.redirectEach (items.map edgeOf) next) := by
  induction items generalizing g with
  | nil => rfl
  | cons item rest ih =>
    rw [List.map_cons] at hnodup hedges hlive
    obtain ⟨hfirst, hnodup⟩ := List.nodup_cons.mp hnodup
    obtain ⟨hedge, hedges⟩ := List.forall_mem_cons.mp hedges
    obtain ⟨⟨hsource, htarget⟩, hothers⟩ := List.forall_mem_cons.mp hlive
    have hsound : (g.redirect (edgeOf item) (next (edgeOf item))).Sound :=
      ((Grown.refl hg).redirect hsource htarget).sound
    have hrest : ∀ edge ∈ rest.map edgeOf,
        (g.redirect (edgeOf item) (next (edgeOf item))).hasEdge edge := by
      intro edge hmem
      have hne : edge ≠ edgeOf item := fun heq => hfirst (heq ▸ hmem)
      exact (hg.hasEdge_redirect hsource).mpr (.inl ⟨hedges edge hmem, hne⟩)
    rw [List.forM, run_bind_of_ok (run_redirect hg hedge hsource htarget)]
    exact ih hsound hnodup hrest fun edge hmem => by simpa using hothers edge hmem

/-- Edges between live nodes are added one after another. -/
theorem run_forM_join (edgeOf : ι → Edge) {items : List ι}
    (hlive : ∀ item ∈ items, g.contains (edgeOf item).source ∧ g.contains (edgeOf item).target) :
    (items.forM fun item => join (edgeOf item)).run g =
      .ok () (items.foldl (fun g item => g.addEdge (edgeOf item)) g) := by
  induction items generalizing g with
  | nil => rfl
  | cons item rest ih =>
    obtain ⟨⟨hsource, htarget⟩, hothers⟩ := List.forall_mem_cons.mp hlive
    rw [List.forM, run_bind_of_ok (run_join_of_contains hsource htarget)]
    exact ih fun other hother => by simpa using hothers other hother

/-- Steps that are left out for some items are steps for the others. -/
theorem forM_unless {skip : ι → Prop} [DecidablePred skip] (step : ι → Editing α Unit)
    (items : List ι) : (items.forM fun item => unless skip item do step item) =
      (items.filter (¬ skip ·)).forM step := by
  induction items with
  | nil => rfl
  | cons item rest ih =>
    by_cases hskip : skip item
    · simp [List.forM, hskip, ih]
    · simp [List.forM, hskip, ih]

end Editing

end Graph

namespace FlowGraph

variable {edge : Edge} {chain : List Node}

/-- The edges that move when a chain is put in front of a node. -/
def edgesMovedIn (cfg : FlowGraph) (id : NodeId) : List Edge :=
  (cfg.movableIncoming id).map fun link => ⟨link.1, id, link.2⟩

/-- The edges that move when a chain is put behind a node. -/
def edgesMovedOut (cfg : FlowGraph) (id : NodeId) : List Edge :=
  (cfg.movableOutgoing id).map fun link => ⟨id, link.1, link.2⟩

/-- The edges that prepending moves. -/
theorem Sound.mem_edgesMovedIn (h : cfg.Sound) : edge ∈ cfg.edgesMovedIn id ↔
    cfg.hasEdge edge ∧ edge.target = id ∧ ¬ (edge.source = id ∧ cfg.keepsSelfEdge id) := by
  rw [edgesMovedIn, List.mem_map, Graph.hasEdge_iff]
  constructor
  · intro hmem
    obtain ⟨link, hlink, rfl⟩ := hmem
    obtain ⟨hedge, hkept⟩ := (mem_movableIncoming h).mp hlink
    exact ⟨hedge, rfl, hkept⟩
  · intro hmem
    obtain ⟨hedge, rfl, hkept⟩ := hmem
    exact ⟨(edge.source, edge.label), (mem_movableIncoming h).mpr ⟨hedge, hkept⟩, rfl⟩

/-- The edges that postpending moves. -/
theorem mem_edgesMovedOut : edge ∈ cfg.edgesMovedOut id ↔
    cfg.hasEdge edge ∧ edge.source = id ∧ ¬ (edge.target = id ∧ cfg.keepsSelfEdge id) := by
  have hmovable : ∀ link, link ∈ cfg.movableOutgoing id ↔
      link ∈ cfg.outgoing id ∧ ¬ (link.1 = id ∧ cfg.keepsSelfEdge id) := by
    intro link
    rw [movableOutgoing]
    split
    · next hkeeps => simp [hkeeps]
    · next hkeeps => simp [hkeeps]
  rw [edgesMovedOut, List.mem_map, Graph.hasEdge_iff]
  constructor
  · intro hmem
    obtain ⟨link, hlink, rfl⟩ := hmem
    obtain ⟨hedge, hkept⟩ := (hmovable link).mp hlink
    exact ⟨hedge, rfl, hkept⟩
  · intro hmem
    obtain ⟨hedge, rfl, hkept⟩ := hmem
    exact ⟨(edge.target, edge.label), (hmovable _).mpr ⟨hedge, hkept⟩, rfl⟩

/-- Edges moved in are listed once. -/
theorem Sound.nodup_edgesMovedIn (h : cfg.Sound) (id : NodeId) : (cfg.edgesMovedIn id).Nodup := by
  refine (h.nodup_movableIncoming id).map fun first second heq => ?_
  simpa [Prod.ext_iff] using heq

/-- Edges moved out are listed once. -/
theorem Sound.nodup_edgesMovedOut (h : cfg.Sound) (id : NodeId) : (cfg.edgesMovedOut id).Nodup := by
  refine (h.nodup_movableOutgoing id).map fun first second heq => ?_
  simpa [Prod.ext_iff] using heq

/-- Prepending redirects the moved edges. -/
theorem toGraph_prependChain_eq (cfg : FlowGraph) (id : NodeId) (chain : List Node) :
    (cfg.prependChain id chain).toGraph =
      ((cfg.insertChain chain).redirectEach (cfg.edgesMovedIn id)
        fun edge => { edge with target := (cfg.chainEnds chain).1 }).addEdge
        ⟨(cfg.chainEnds chain).2, id, none⟩ := by
  rw [toGraph_prependChain, redirectEach, edgesMovedIn, List.foldl_map]

/-- Postpending redirects the moved edges. -/
theorem toGraph_postpendChain_eq (cfg : FlowGraph) (id : NodeId) (chain : List Node) :
    (cfg.postpendChain id chain).toGraph =
      ((cfg.insertChain chain).redirectEach (cfg.edgesMovedOut id)
        fun edge => { edge with source := (cfg.chainEnds chain).2 }).addEdge
        ⟨id, (cfg.chainEnds chain).1, none⟩ := by
  rw [toGraph_postpendChain, redirectEach, edgesMovedOut, List.foldl_map]

/-- The edges of a graph are still there when a chain was inserted. -/
theorem hasEdge_insertChain_of_hasEdge (hedge : cfg.hasEdge edge) (chain : List Node) :
    (cfg.insertChain chain).hasEdge edge := by
  have hlink := Graph.hasEdge_iff.mp hedge
  have hlt := lt_nextId_of_contains (contains_of_mem_outgoing hlink)
  rw [Graph.hasEdge_iff, outgoing_insertChain_of_lt hlt]
  exact hlink

/-- The ends of an edge are live. -/
theorem Sound.contains_ends (h : cfg.Sound) (hedge : cfg.hasEdge edge) :
    cfg.contains edge.source ∧ cfg.contains edge.target :=
  have hlink := Graph.hasEdge_iff.mp hedge
  ⟨contains_of_mem_outgoing hlink, h.graph.contains_target hlink⟩

end FlowGraph

/-! ### Splices -/

namespace Splicing

open Graph (Editing)

variable {β : Type} {chain : List Node} {editing : Editing Node β} {node : Node}

/-- A splice carried out as a whole or not at all. -/
def settled (cfg : FlowGraph) : Except GraphError (FlowGraph × β) →
    EStateM.Result GraphError FlowGraph β
  | .ok (after, answer) => .ok answer after
  | .error error => .error error cfg

/-- Edits of the graph that succeed. -/
theorem run_edit_of_ok {answer : β} {graph : Graph Node}
    (h : editing.run cfg.toGraph = .ok answer graph) :
    (edit editing).run cfg = .ok answer (cfg.withGraph graph) := by
  show edit editing cfg = _
  rw [edit, h]

/-- Edits of the graph that fail. -/
theorem run_edit_of_error {error : GraphError}
    (h : editing.run cfg.toGraph = .error error cfg.toGraph) :
    (edit editing).run cfg = .error error cfg := by
  show edit editing cfg = _
  rw [edit, h]
  rfl

section

variable (hnode : cfg.node? id = some node)
include hnode

/-- A chain that is inserted leaves the vertex of a node as it was. -/
theorem run_vertex_insertChain (chain : List Node) :
    (Editing.vertex id).run (cfg.insertChain chain) =
      .ok ⟨node, cfg.outgoing id, cfg.incoming id⟩ (cfg.insertChain chain) := by
  have hlt := lt_nextId_of_contains (contains_of_payload? hnode)
  have hpayload : (cfg.insertChain chain).payload? id = some node :=
    (payload?_insertChain_of_lt hlt).trans hnode
  rw [Editing.run_vertex_of_some (vertex?_of_payload? hpayload), outgoing_insertChain_of_lt hlt,
    incoming_insertChain_of_lt hlt]

/-- The links that prepending moves. -/
theorem movable_incoming :
    Vertex.movable id ⟨node, cfg.outgoing id, cfg.incoming id⟩ (cfg.incoming id) =
      cfg.movableIncoming id := by
  simp [Vertex.movable, movableIncoming, keepsSelfEdge, FlowGraph.kind?, hnode]

/-- The links that postpending moves. -/
theorem movable_outgoing :
    Vertex.movable id ⟨node, cfg.outgoing id, cfg.incoming id⟩ (cfg.outgoing id) =
      cfg.movableOutgoing id := by
  simp [Vertex.movable, movableOutgoing, keepsSelfEdge, FlowGraph.kind?, hnode]

end

section

variable (h : cfg.Sound) (hid : cfg.contains id) (hchain : chain ≠ [])
include h hid hchain

/-- The edges into a node are led to the chain in front of it. -/
theorem run_leadIn :
    (leadIn id (cfg.chainEnds chain).1 (cfg.chainEnds chain).2).run (cfg.insertChain chain) =
      .ok () (cfg.prependChain id chain).toGraph := by
  obtain ⟨node, hnode⟩ := FlowGraph.exists_node hid
  have hinsert := Grown.insertChain h.graph chain
  obtain ⟨hfirst, hlast⟩ := contains_chainEnds (g := cfg.toGraph) hchain
  have hmoved : ((cfg.movableIncoming id).forM fun link => Editing.redirect ⟨link.1, id, link.2⟩
      ⟨link.1, (cfg.chainEnds chain).1, link.2⟩).run (cfg.insertChain chain) =
        .ok () ((cfg.insertChain chain).redirectEach (cfg.edgesMovedIn id)
          fun edge => { edge with target := (cfg.chainEnds chain).1 }) := by
    refine Editing.run_forM_redirect (fun link : Link => ⟨link.1, id, link.2⟩)
      (fun edge => { edge with target := (cfg.chainEnds chain).1 }) (cfg.movableIncoming id)
      hinsert.sound
      (h.nodup_edgesMovedIn id) (fun edge hedge => ?_) (fun edge hedge => ?_)
    · exact hasEdge_insertChain_of_hasEdge (h.mem_edgesMovedIn.mp hedge).1 chain
    · exact ⟨hinsert.live (h.contains_ends (h.mem_edgesMovedIn.mp hedge).1).1, hfirst⟩
  rw [leadIn, run_bind_of_ok (run_vertex_insertChain hnode chain), movable_incoming hnode,
    run_bind_of_ok hmoved, Editing.run_join_of_contains (by simpa using hlast)
      (by simpa using hinsert.live hid), toGraph_prependChain_eq]

/-- The edges out of a node leave the chain behind it. -/
theorem run_leadOut :
    (leadOut id (cfg.chainEnds chain).1 (cfg.chainEnds chain).2).run (cfg.insertChain chain) =
      .ok () (cfg.postpendChain id chain).toGraph := by
  obtain ⟨node, hnode⟩ := FlowGraph.exists_node hid
  have hinsert := Grown.insertChain h.graph chain
  obtain ⟨hfirst, hlast⟩ := contains_chainEnds (g := cfg.toGraph) hchain
  have hmoved : ((cfg.movableOutgoing id).forM fun link => Editing.redirect ⟨id, link.1, link.2⟩
      ⟨(cfg.chainEnds chain).2, link.1, link.2⟩).run (cfg.insertChain chain) =
        .ok () ((cfg.insertChain chain).redirectEach (cfg.edgesMovedOut id)
          fun edge => { edge with source := (cfg.chainEnds chain).2 }) := by
    refine Editing.run_forM_redirect (fun link : Link => ⟨id, link.1, link.2⟩)
      (fun edge => { edge with source := (cfg.chainEnds chain).2 }) (cfg.movableOutgoing id)
      hinsert.sound
      (h.nodup_edgesMovedOut id) (fun edge hedge => ?_) (fun edge hedge => ?_)
    · exact hasEdge_insertChain_of_hasEdge (mem_edgesMovedOut.mp hedge).1 chain
    · exact ⟨hlast, hinsert.live (h.contains_ends (mem_edgesMovedOut.mp hedge).1).2⟩
  rw [leadOut, run_bind_of_ok (run_vertex_insertChain hnode chain), movable_outgoing hnode,
    run_bind_of_ok hmoved, Editing.run_join_of_contains (by simpa using hinsert.live hid)
      (by simpa using hfirst), toGraph_postpendChain_eq]

end

/-- An edge that is there leads through the chain. -/
theorem run_leadThrough (h : cfg.Sound) {edge : Edge} (hedge : cfg.hasEdge edge)
    (hchain : chain ≠ []) :
    (leadThrough edge (cfg.chainEnds chain).1 (cfg.chainEnds chain).2).run (cfg.insertChain chain) =
      .ok () (cfg.splitEdge edge chain).toGraph := by
  have hinsert := Grown.insertChain h.graph chain
  obtain ⟨hfirst, hlast⟩ := contains_chainEnds (g := cfg.toGraph) hchain
  obtain ⟨hsource, htarget⟩ := h.contains_ends hedge
  have hmoved : (Editing.redirect edge ⟨edge.source, (cfg.chainEnds chain).1, edge.label⟩).run
      (cfg.insertChain chain) = .ok () _ :=
    Editing.run_redirect hinsert.sound (hasEdge_insertChain_of_hasEdge hedge chain)
      (hinsert.live hsource) hfirst
  rw [leadThrough, run_bind_of_ok hmoved, Editing.run_join_of_contains (by simpa using hlast)
    (by simpa using hinsert.live htarget), toGraph_splitEdge]

/-- A splice at a node is carried out as a whole if its ties are. -/
theorem run_spliceAt {tie : NodeId → NodeId → NodeId → Editing Node Unit}
    {splice : FlowGraph → NodeId → List Node → FlowGraph}
    (hstart : (splice cfg id chain).start = cfg.start)
    (htie : cfg.contains id → chain ≠ [] →
      (tie id (cfg.chainEnds chain).1 (cfg.chainEnds chain).2).run (cfg.insertChain chain) =
        .ok () (splice cfg id chain).toGraph) :
    (spliceAt tie id chain).run cfg = settled cfg (FlowGraph.spliceAt splice cfg id chain) := by
  unfold spliceAt FlowGraph.spliceAt
  cases hvertex : cfg.vertex? id with
  | none =>
    have hdead : cfg.contains id = false := by simp [Graph.contains, hvertex]
    rw [hdead, run_edit_of_error]
    · rfl
    · rw [EStateM.run_bind, Editing.run_vertex_of_none hvertex]
  | some found =>
    have hid : cfg.contains id := by simp [Graph.contains, hvertex]
    have hfound : (Editing.vertex id >>= fun _ => Editing.tieIn chain (tie id)).run cfg.toGraph =
        (Editing.tieIn chain (tie id)).run cfg.toGraph :=
        run_bind_of_ok (Editing.run_vertex_of_some hvertex)
    rw [hid]
    by_cases hchain : chain = []
    · subst hchain
      rw [run_edit_of_ok (hfound.trans (Editing.run_tieIn_nil ..))]
      rfl
    · have hgraph : cfg.withGraph (splice cfg id chain).toGraph = splice cfg id chain := by
        rw [withGraph, ← hstart]
      rw [run_edit_of_ok (hfound.trans (Editing.run_tieIn hchain (htie hid hchain))), hgraph,
        if_neg (by simp), if_neg (by simpa using hchain)]
      rfl

variable (h : cfg.Sound)
include h

/-- Prepending in place. -/
theorem run_prepend (id : NodeId) (chain : List Node) :
    (prepend id chain).run cfg = settled cfg (cfg.prepend id chain) :=
  run_spliceAt rfl fun hid hchain => run_leadIn h hid hchain

/-- Postpending in place. -/
theorem run_postpend (id : NodeId) (chain : List Node) :
    (postpend id chain).run cfg = settled cfg (cfg.postpend id chain) :=
  run_spliceAt rfl fun hid hchain => run_leadOut h hid hchain

/-- Splitting in place. -/
theorem run_innerInsert (edge : Edge) (chain : List Node) :
    (innerInsert edge chain).run cfg = settled cfg (cfg.innerInsert edge chain) := by
  unfold innerInsert FlowGraph.innerInsert
  by_cases hedge : cfg.hasEdge edge
  · have hfound : ((do
        unless (← get).hasEdge edge do
          throw (.missingEdge edge.source edge.target (some edge.label))
        Editing.tieIn chain (leadThrough edge)) : Editing Node _).run cfg.toGraph =
          (Editing.tieIn chain (leadThrough edge)).run cfg.toGraph := by
      simp only [EStateM.run_bind, EStateM.run_get, hedge]
      rfl
    rw [hedge]
    by_cases hchain : chain = []
    · subst hchain
      rw [run_edit_of_ok (hfound.trans (Editing.run_tieIn_nil ..))]
      rfl
    · have hgraph : cfg.withGraph (cfg.splitEdge edge chain).toGraph =
          cfg.splitEdge edge chain := by
        rw [withGraph, ← start_splitEdge cfg edge chain]
      rw [run_edit_of_ok (hfound.trans (Editing.run_tieIn hchain (run_leadThrough h hedge hchain))),
        hgraph, if_neg (by simp), if_neg (by simpa using hchain)]
      rfl
  · rw [Bool.not_eq_true] at hedge
    rw [run_edit_of_error, hedge]
    · rfl
    · simp only [EStateM.run_bind, EStateM.run_get, hedge]
      rfl

/-- A node is inserted with the edges of another one. -/
theorem run_insertBeside {old : NodeId} (hold : cfg.contains old) (node : Node) :
    (insertBeside old node).run cfg.toGraph = .ok cfg.nextId (cfg.takeEdges old node) := by
  obtain ⟨replaced, hreplaced⟩ := FlowGraph.exists_node hold
  have hvertex := Editing.run_vertex_of_some (vertex?_of_payload? hreplaced)
  have hinsert : (Editing.insert node).run cfg.toGraph = .ok cfg.nextId (cfg.insert node) := rfl
  have hgrown := h.grown_insert node
  have hnew := cfg.contains_insert_self node
  have hentered := h.grown_takeIncoming old node
  have hsource : ∀ link ∈ cfg.incoming old,
      (cfg.insert node).contains (if link.1 = old then cfg.nextId else link.1) := by
    intro link hlink
    split
    · exact hnew
    · exact hgrown.live (h.graph.contains_source hlink)
  have hincoming := Editing.run_forM_join
    (fun link : Link => ⟨if link.1 = old then cfg.nextId else link.1, cfg.nextId, link.2⟩)
    fun link hlink => ⟨hsource link hlink, hnew⟩
  have houtgoing := Editing.run_forM_join (fun link : Link => ⟨cfg.nextId, link.1, link.2⟩)
    fun link (hlink : link ∈ (cfg.outgoing old).filter (·.1 != old)) =>
      ⟨hentered.live hnew, hentered.live (hgrown.live
        (h.graph.contains_target (List.mem_filter.mp hlink).1))⟩
  have hskip : (cfg.outgoing old).filter (¬ ·.1 = old) = (cfg.outgoing old).filter (·.1 != old) :=
    List.filter_congr fun link _ => by simp [bne, beq_eq_decide]
  rw [insertBeside, run_bind_of_ok hvertex, run_bind_of_ok hinsert, run_bind_of_ok hincoming]
  rw [Editing.forM_unless, hskip, run_bind_of_ok houtgoing]
  rfl

/-- Replacing in place. -/
theorem run_replace (old : NodeId) (node : Node) :
    (replace old node).run cfg = settled cfg (cfg.replace old node) := by
  unfold replace FlowGraph.replace
  cases hvertex : cfg.vertex? old with
  | none =>
    have hdead : cfg.contains old = false := by simp [Graph.contains, hvertex]
    have hrefused : (edit (insertBeside old node)).run cfg = .error (.missingNode old) cfg := by
      refine run_edit_of_error ?_
      rw [insertBeside, EStateM.run_bind, Editing.run_vertex_of_none hvertex]
    rw [EStateM.run_bind, hrefused, hdead]
    rfl
  | some found =>
    have hold : cfg.contains old := by simp [Graph.contains, hvertex]
    have hgrown := h.grown_insert node
    have hjoined := h.grown_takeEdges old node
    have hbeside := run_edit_of_ok (run_insertBeside h hold node)
    obtain ⟨payload, hpayload⟩ := Option.isSome_iff_exists.mp
      ((payload?_isSome ..).trans (hjoined.live (hgrown.live hold)))
    have hremove := Editing.run_remove hjoined.sound old
    rw [remove_eq_ok hpayload] at hremove
    rw [run_bind_of_ok hbeside, if_pos hold]
    show ((edit (Editing.remove old)) >>= fun _ => _).run (FlowGraph.mk _ _) = _
    rw [run_bind_of_ok (run_edit_of_ok hremove)]
    rfl

end Splicing

end Flowgraph

import Flowgraph.Flow.Breach
import Flowgraph.Proofs.Graph.Reach

/-!
# Sound flow graphs

A flow graph is sound if its adjacency lists mirror each other and its start is live. The changes to
flow graphs keep this. Most are made of insertions and of edges between live nodes: a graph that has
grown in this way is sound and has lost no node (`Graph.Grown`).
-/

namespace Flowgraph

open List Graph

namespace Graph

variable {α : Type} {g g' : Graph α} {id : NodeId} {ids : List NodeId}

/-- Redirection keeps the nodes. -/
@[simp] theorem contains_redirect (old new : Edge) (id : NodeId) :
    (g.redirect old new).contains id = g.contains id := by
  simp [redirect]

/-- Redirection keeps the payloads. -/
@[simp] theorem payload?_redirect (old new : Edge) (id : NodeId) :
    (g.redirect old new).payload? id = g.payload? id := by
  simp [redirect]

/-- The links out after redirection. -/
theorem mem_outgoing_redirect (hg : g.Sound) {old new : Edge}
    (hsource : g.contains new.source) {link : Link} :
    link ∈ (g.redirect old new).outgoing id ↔
      (link ∈ g.outgoing id ∧ ¬ (id = old.source ∧ link = (old.target, old.label))) ∨
        (id = new.source ∧ link = (new.target, new.label)) := by
  rw [redirect, mem_outgoing_addEdge (by simpa using hsource), hg.mem_outgoing_eraseEdge]

/-- A sound graph in which all nodes of another are live. -/
structure Grown (g g' : Graph α) : Prop where
  sound : g'.Sound
  live : ∀ {id}, g.contains id → g'.contains id

namespace Grown

/-- A graph grows to itself. -/
theorem refl (hg : g.Sound) : Grown g g := ⟨hg, id⟩

section

variable (h : Grown g g')
include h

/-- Growth composes. -/
theorem trans {g'' : Graph α} (h' : Grown g' g'') : Grown g g'' :=
  ⟨h'.sound, fun hid => h'.live (h.live hid)⟩

/-- Insertion grows a graph. -/
theorem insert (payload : α) : Grown g (g'.insert payload) :=
  ⟨h.sound.insert payload, fun hid => by simp [contains_insert, h.live hid]⟩

/-- Edges between live nodes grow a graph. -/
theorem addEdge {edge : Edge} (hsource : g'.contains edge.source)
    (htarget : g'.contains edge.target) : Grown g (g'.addEdge edge) :=
  ⟨h.sound.addEdge hsource htarget, fun hid => by simp [h.live hid]⟩

/-- Erasing an edge loses no node. -/
theorem eraseEdge (edge : Edge) : Grown g (g'.eraseEdge edge) :=
  ⟨h.sound.eraseEdge edge, fun hid => by simp [h.live hid]⟩

/-- Redirection loses no node. -/
theorem redirect {old new : Edge} (hsource : g'.contains new.source)
    (htarget : g'.contains new.target) : Grown g (g'.redirect old new) :=
  (h.eraseEdge old).addEdge (by simpa using hsource) (by simpa using htarget)

/-- Payloads lose no node. -/
theorem setPayload (id : NodeId) (payload : α) : Grown g (g'.setPayload id payload) :=
  ⟨h.sound.setPayload id payload, fun hid => by simp [h.live hid]⟩

end

/-- Changes made one after another. -/
theorem foldl {β : Type} {change : Graph α → β → Graph α} {items : List β} (h : Grown g g')
    (hstep : ∀ item ∈ items, ∀ {g''}, Grown g' g'' → Grown g' (change g'' item)) :
    Grown g (items.foldl change g') := by
  suffices hall : ∀ {g''}, Grown g' g'' → Grown g' (items.foldl change g'') from
    h.trans (hall (.refl h.sound))
  induction items with
  | nil => exact fun hg'' => hg''
  | cons item rest ih =>
    intro g'' hg''
    exact ih (fun other hother => hstep other (mem_cons_of_mem _ hother))
      (hstep item mem_cons_self hg'')

end Grown

/-- What no change of a series touches is left as it was. -/
theorem foldl_keeps {β γ : Type} {f : Graph α → γ} {change : Graph α → β → Graph α} {items : List β}
    (hstep : ∀ item ∈ items, ∀ g, f (change g item) = f g) (g : Graph α) :
    f (items.foldl change g) = f g := by
  induction items generalizing g with
  | nil => rfl
  | cons item rest ih =>
    obtain ⟨hitem, hrest⟩ := forall_mem_cons.mp hstep
    exact (ih hrest _).trans (hitem g)

/-- The live nodes after insertions. -/
theorem contains_foldl_insert (chain : List α) (id : NodeId) :
    (chain.foldl Graph.insert g).contains id =
      (decide (g.nextId ≤ id ∧ id < g.nextId + chain.length) || g.contains id) := by
  induction chain generalizing g with
  | nil =>
    have hnot : ¬ (g.nextId ≤ id ∧ id < g.nextId) := by
      simp only [NodeId]
      omega
    simp [hnot]
  | cons payload rest ih =>
    simp only [foldl_cons, ih, contains_insert, nextId_insert, length_cons]
    by_cases hid : id = g.nextId
    · simp [hid]
    · have hiff : (g.nextId + 1 ≤ id ∧ id < g.nextId + 1 + rest.length) ↔
          (g.nextId ≤ id ∧ id < g.nextId + (rest.length + 1)) := by
        simp only [NodeId] at hid ⊢
        omega
      rw [decide_eq_decide.mpr hiff, decide_eq_false hid, Bool.false_or]

/-- Inserted nodes are live. -/
theorem contains_foldl_insert_add {chain : List α} {k : Nat} (hk : k < chain.length) :
    (chain.foldl Graph.insert g).contains (g.nextId + k) := by
  have hin : g.nextId ≤ g.nextId + k ∧ g.nextId + k < g.nextId + chain.length := by
    simp only [NodeId]
    omega
  simp [contains_foldl_insert, hin]

/-- The nodes of a run but the first, once the first two are joined. -/
theorem contains_addEdge_run {first : NodeId} {count : Nat}
    (hlive : ∀ k ≤ count + 1, g.contains (first + k)) (k : Nat) (hk : k ≤ count) :
    (g.addEdge ⟨first, first + 1, none⟩).contains (first + 1 + k) := by
  rw [contains_addEdge, Nat.add_right_comm, Nat.add_assoc]
  exact hlive (k + 1) (by omega)

/-- Joining a run grows a graph. -/
theorem Grown.joinRun {first : NodeId} {count : Nat} (h : Grown g g')
    (hlive : ∀ k ≤ count, g'.contains (first + k)) : Grown g (g'.joinRun first count) := by
  induction count generalizing g' first with
  | zero => exact h
  | succ count ih =>
    rw [Graph.joinRun]
    exact ih (h.addEdge (hlive 0 (Nat.zero_le _)) (hlive 1 (by omega))) (contains_addEdge_run hlive)

/-- Joining a run adds no node. -/
@[simp] theorem contains_joinRun (first count id : Nat) :
    (g.joinRun first count).contains id = g.contains id := by
  induction count generalizing g first with
  | zero => rfl
  | succ count ih => simp [joinRun, ih]

/-- The live nodes with a chain. -/
theorem contains_insertChain (chain : List α) (id : NodeId) :
    (g.insertChain chain).contains id =
      (decide (g.nextId ≤ id ∧ id < g.nextId + chain.length) || g.contains id) := by
  simp [insertChain, contains_foldl_insert]

/-- Chains grow a graph. -/
theorem Grown.insertChain (hg : g.Sound) (chain : List α) : Grown g (g.insertChain chain) := by
  by_cases hempty : chain = []
  · simpa [hempty, Graph.insertChain, Graph.joinRun] using Grown.refl hg
  have hlength := length_pos_of_ne_nil hempty
  exact Grown.joinRun ((Grown.refl hg).foldl fun payload _ _ h => h.insert payload)
    fun k hk => contains_foldl_insert_add (by omega)

/-- Both ends of an inserted chain are live. -/
theorem contains_chainEnds {chain : List α} (hchain : chain ≠ []) :
    (g.insertChain chain).contains (g.chainEnds chain).1 ∧
      (g.insertChain chain).contains (g.chainEnds chain).2 := by
  have hlength := length_pos_of_ne_nil hchain
  simp only [chainEnds, contains_insertChain, Bool.or_eq_true, decide_eq_true_eq, NodeId]
  omega

/-- Erasing nodes keeps a graph sound. -/
theorem Sound.foldl_erase (hg : g.Sound) (ids : List NodeId) : (ids.foldl Graph.erase g).Sound := by
  induction ids generalizing g with
  | nil => exact hg
  | cons id rest ih => exact ih (hg.erase id)

/-- The nodes that are not erased. -/
theorem contains_foldl_erase (ids : List NodeId) (id : NodeId) :
    (ids.foldl Graph.erase g).contains id = (!ids.contains id && g.contains id) := by
  induction ids generalizing g with
  | nil => simp
  | cons other rest ih =>
    simp only [foldl_cons, ih, contains_erase, contains_cons]
    by_cases h : id = other
    · simp [h]
    · simp [beq_eq_false_iff_ne.mpr h, Ne.symm h]

/-- Erasing nodes takes no number. -/
@[simp] theorem nextId_foldl_erase (ids : List NodeId) :
    (ids.foldl Graph.erase g).nextId = g.nextId :=
  foldl_keeps (fun _ _ _ => nextId_erase ..) g

/-- A node that is not erased keeps its payload. -/
theorem payload?_foldl_erase (hid : id ∉ ids) :
    (ids.foldl Graph.erase g).payload? id = g.payload? id := by
  induction ids generalizing g with
  | nil => rfl
  | cons other rest ih =>
    have hne := ne_of_not_mem_cons hid
    have hrest := not_mem_of_not_mem_cons hid
    rw [foldl_cons, ih hrest, payload?_erase, if_neg (Ne.symm hne)]

/-- Lists that lose links with each removal lose those to all removed nodes. -/
theorem foldl_erase_filter {f : Graph α → List Link}
    (hstep : ∀ g, ∀ other ∈ ids, f (g.erase other) = (f g).filter (·.1 != other)) (g : Graph α) :
    f (ids.foldl Graph.erase g) = (f g).filter (·.1 ∉ ids) := by
  induction ids generalizing g with
  | nil => simp
  | cons other rest ih =>
    rw [foldl_cons, ih fun g other hother => hstep g other (mem_cons_of_mem _ hother),
      hstep g other mem_cons_self, filter_filter]
    refine filter_congr fun link _ => ?_
    by_cases h : link.1 = other <;> simp [h]

/-- A node that is not erased loses its edges to those that are. -/
theorem outgoing_foldl_erase (hid : id ∉ ids) :
    (ids.foldl Graph.erase g).outgoing id = (g.outgoing id).filter (·.1 ∉ ids) :=
  foldl_erase_filter (f := (·.outgoing id)) (fun g other hother => by
    rw [outgoing_erase, if_neg (ne_of_mem_of_not_mem hother hid)]) g

/-- Links from erased nodes go. -/
theorem incoming_foldl_erase (hid : id ∉ ids) :
    (ids.foldl Graph.erase g).incoming id = (g.incoming id).filter (·.1 ∉ ids) :=
  foldl_erase_filter (f := (·.incoming id)) (fun g other hother => by
    rw [incoming_erase, if_neg (ne_of_mem_of_not_mem hother hid)]) g

end Graph

namespace FlowGraph

variable {cfg : FlowGraph} {id : NodeId}

/-- Splitting redirects, then joins. -/
theorem toGraph_splitEdge (cfg : FlowGraph) (edge : Edge) (chain : List Node) :
    (cfg.splitEdge edge chain).toGraph =
      ((cfg.insertChain chain).redirect edge
        ⟨edge.source, (cfg.chainEnds chain).1, edge.label⟩).addEdge
        ⟨(cfg.chainEnds chain).2, edge.target, none⟩ := by
  simp only [FlowGraph.splitEdge, withGraph]

/-- Prepending redirects what enters. -/
theorem toGraph_prependChain (cfg : FlowGraph) (id : NodeId) (chain : List Node) :
    (cfg.prependChain id chain).toGraph = ((cfg.movableIncoming id).foldl
      (fun g link => g.redirect ⟨link.1, id, link.2⟩ ⟨link.1, (cfg.chainEnds chain).1, link.2⟩)
      (cfg.insertChain chain)).addEdge ⟨(cfg.chainEnds chain).2, id, none⟩ := by
  simp only [prependChain, withGraph]

/-- Postpending redirects what leaves. -/
theorem toGraph_postpendChain (cfg : FlowGraph) (id : NodeId) (chain : List Node) :
    (cfg.postpendChain id chain).toGraph = ((cfg.movableOutgoing id).foldl
      (fun g link => g.redirect ⟨id, link.1, link.2⟩ ⟨(cfg.chainEnds chain).2, link.1, link.2⟩)
      (cfg.insertChain chain)).addEdge ⟨id, (cfg.chainEnds chain).1, none⟩ := by
  simp only [postpendChain, withGraph]

/-- A new node takes over the edges into another. -/
abbrev takeIncoming (cfg : FlowGraph) (old : NodeId) (node : Node) : Graph Node :=
  (cfg.incoming old).foldl
    (fun g link => g.addEdge ⟨if link.1 = old then cfg.nextId else link.1, cfg.nextId, link.2⟩)
    (cfg.insert node)

/-- A new node takes over the edges of another. -/
abbrev takeEdges (cfg : FlowGraph) (old : NodeId) (node : Node) : Graph Node :=
  ((cfg.outgoing old).filter (·.1 != old)).foldl
    (fun g link => g.addEdge ⟨cfg.nextId, link.1, link.2⟩) (cfg.takeIncoming old node)

/-- Replacing moves links, then erases. -/
theorem toGraph_substitute (cfg : FlowGraph) (old : NodeId) (node : Node) :
    (cfg.substitute old node).toGraph = (cfg.takeEdges old node).erase old := rfl

/-- Splitting keeps the start. -/
@[simp] theorem start_splitEdge (cfg : FlowGraph) (edge : Edge) (chain : List Node) :
    (cfg.splitEdge edge chain).start = cfg.start := by
  simp only [FlowGraph.splitEdge, withGraph]

/-- The same node is live alike. -/
theorem contains_congr {cfg' : FlowGraph} (h : cfg'.node? id = cfg.node? id) :
    cfg'.contains id = cfg.contains id := by
  rw [← payload?_isSome, ← payload?_isSome]
  exact congrArg Option.isSome h

/-- Live nodes have a node. -/
theorem exists_node (h : cfg.contains id) : ∃ node, cfg.node? id = some node :=
  Option.isSome_iff_exists.mp ((payload?_isSome ..).trans h)

/-- What holds of every listed node holds of every node. -/
theorem forall_node_of_nodes {P : Node → Prop}
    (h : ∀ id ∈ cfg.nodes, ∀ node ∈ cfg.node? id, P node) :
    ∀ id node, cfg.node? id = some node → P node :=
  fun id node hnode => h id (mem_nodes.mpr (contains_of_payload? hnode)) node hnode

/-- Nodes with a kind are live. -/
theorem contains_of_kind? {kind : Kind} (h : cfg.kind? id = some kind) : cfg.contains id := by
  obtain ⟨node, hnode, -⟩ := Option.map_eq_some_iff.mp h
  exact contains_of_payload? hnode

/-- The kind of a node that is there. -/
theorem kind?_eq_some {node : Node} (h : cfg.node? id = some node) :
    cfg.kind? id = some node.kind := by
  rw [kind?, h, Option.map_some]

/-- A node of the kind of phi nodes is one. -/
theorem exists_phi_of_kind? (h : cfg.kind? id = some .phi) :
    ∃ phi span, cfg.node? id = some (.phi phi span) := by
  obtain ⟨node, hnode, hkind⟩ := Option.map_eq_some_iff.mp h
  cases node with
  | phi phi span => exact ⟨phi, span, hnode⟩
  | _ => cases hkind

/-- Start nodes are read off the kind. -/
theorem exists_start_of_kind? (h : cfg.kind? id = some .start) :
    ∃ span, cfg.node? id = some (.start span) := by
  obtain ⟨node, hnode, hkind⟩ := Option.map_eq_some_iff.mp h
  cases node with
  | start span => exact ⟨span, hnode⟩
  | _ => cases hkind

/-- A phi block of which something is known. -/
theorem exists_phi_of_map {β : Type} {f : Phi → β} {value : β}
    (h : ((cfg.node? id).bind Node.phi?).map f = some value) :
    ∃ phi span, cfg.node? id = some (.phi phi span) ∧ f phi = value := by
  obtain ⟨phi, hphi, rfl⟩ := Option.map_eq_some_iff.mp h
  obtain ⟨node, hnode, hkind⟩ := Option.bind_eq_some_iff.mp hphi
  cases node with
  | phi _ span =>
    cases hkind
    exact ⟨phi, span, hnode, rfl⟩
  | _ => cases hkind

/-- There is an answer with a property that can be checked. -/
theorem exists_ok_of_any {ε β : Type} {P : β → Prop} [DecidablePred P] {answer : Except ε β}
    (h : answer.toOption.any (P ·)) : ∃ value, answer = .ok value ∧ P value := by
  cases answer with
  | error => cases h
  | ok value => exact ⟨value, rfl, of_decide_eq_true h⟩

/-- The same of an answer that may not be there. -/
theorem exists_some_ok_of_any {ε β : Type} {P : β → Prop} [DecidablePred P]
    {answer : Option (Except ε β)} (h : (answer.bind Except.toOption).any (P ·)) :
    ∃ value, answer = some (.ok value) ∧ P value := by
  cases answer with
  | none => cases h
  | some answer =>
    obtain ⟨value, rfl, hvalue⟩ := exists_ok_of_any h
    exact ⟨value, rfl, hvalue⟩

/-- The graph is sound and the start is live. -/
structure Sound (cfg : FlowGraph) : Prop where
  graph : cfg.toGraph.Sound
  start : cfg.contains cfg.start

namespace Sound

variable {chain : List Node} {link : Link} {edge : Edge}

/-- The graph of a start node is sound. -/
theorem ofStart (span : Span) : (FlowGraph.ofStart span).Sound :=
  ⟨Sound.empty.insert _, by simp [FlowGraph.ofStart, Graph.contains_insert, Graph.nextId]⟩

variable (h : cfg.Sound)
include h

/-- Growth keeps a flow graph sound. -/
theorem grown {graph : Graph Node} (hgrown : Grown cfg.toGraph graph) :
    (cfg.withGraph graph).Sound :=
  ⟨hgrown.sound, hgrown.live h.start⟩

/-- Successors of live nodes are live. -/
theorem successors_live : ∀ id ∈ cfg.nodes, ∀ other ∈ cfg.successors id, other ∈ cfg.nodes :=
  fun _ _ _ hother => mem_nodes.mpr (h.graph.contains_successor hother)

/-- What enters and moves is live. -/
theorem contains_of_mem_movableIncoming (hlink : link ∈ cfg.movableIncoming id) :
    cfg.contains link.1 := by
  have hmem : (link.1, link.2) ∈ cfg.incoming id := by
    unfold movableIncoming at hlink
    split at hlink
    · exact (mem_filter.mp hlink).1
    · exact hlink
  exact h.graph.contains_source hmem

/-- What leaves and moves is live. -/
theorem contains_of_mem_movableOutgoing (hlink : link ∈ cfg.movableOutgoing id) :
    cfg.contains link.1 := by
  have hmem : (link.1, link.2) ∈ cfg.outgoing id := by
    unfold movableOutgoing at hlink
    split at hlink
    · exact (mem_filter.mp hlink).1
    · exact hlink
  exact h.graph.contains_target hmem

section

variable (hid : cfg.contains id) (hchain : chain ≠ [])
include hid hchain

/-- Prepending grows a graph. -/
theorem grown_prependChain : Grown cfg.toGraph (cfg.prependChain id chain).toGraph := by
  have hinsert := Grown.insertChain h.graph chain
  obtain ⟨hfirst, hlast⟩ := contains_chainEnds (g := cfg.toGraph) hchain
  have hmoved : Grown (cfg.insertChain chain) ((cfg.movableIncoming id).foldl
      (fun g link => g.redirect ⟨link.1, id, link.2⟩ ⟨link.1, (cfg.chainEnds chain).1, link.2⟩)
      (cfg.insertChain chain)) :=
    (Grown.refl hinsert.sound).foldl fun link hlink _ hg =>
      hg.redirect (hg.live (hinsert.live (h.contains_of_mem_movableIncoming hlink)))
        (hg.live hfirst)
  exact (hinsert.trans hmoved).addEdge (hmoved.live hlast) (hmoved.live (hinsert.live hid))

/-- Prepending keeps it sound. -/
theorem prependChain : (cfg.prependChain id chain).Sound :=
  h.grown (h.grown_prependChain hid hchain)

/-- Postpending keeps it sound. -/
theorem postpendChain : (cfg.postpendChain id chain).Sound := by
  have hinsert := Grown.insertChain h.graph chain
  obtain ⟨hfirst, hlast⟩ := contains_chainEnds (g := cfg.toGraph) hchain
  have hmoved : Grown (cfg.insertChain chain) ((cfg.movableOutgoing id).foldl
      (fun g link => g.redirect ⟨id, link.1, link.2⟩ ⟨(cfg.chainEnds chain).2, link.1, link.2⟩)
      (cfg.insertChain chain)) :=
    (Grown.refl hinsert.sound).foldl fun link hlink _ hg =>
      hg.redirect (hg.live hlast)
        (hg.live (hinsert.live (h.contains_of_mem_movableOutgoing hlink)))
  exact h.grown ((hinsert.trans hmoved).addEdge (hmoved.live (hinsert.live hid))
    (hmoved.live hfirst))

end

section

variable (hsource : cfg.contains edge.source) (htarget : cfg.contains edge.target)
  (hchain : chain ≠ [])
include hsource htarget hchain

/-- Splitting grows a graph. -/
theorem grown_splitEdge : Grown cfg.toGraph (cfg.splitEdge edge chain).toGraph := by
  have hinsert := Grown.insertChain h.graph chain
  obtain ⟨hfirst, hlast⟩ := contains_chainEnds (g := cfg.toGraph) hchain
  have hmoved : Grown (cfg.insertChain chain) ((cfg.insertChain chain).redirect edge
      ⟨edge.source, (cfg.chainEnds chain).1, edge.label⟩) :=
    (Grown.refl hinsert.sound).redirect (hinsert.live hsource) hfirst
  rw [toGraph_splitEdge]
  exact (hinsert.trans hmoved).addEdge (hmoved.live hlast) (hmoved.live (hinsert.live htarget))

/-- Splitting keeps it sound. -/
theorem splitEdge : (cfg.splitEdge edge chain).Sound := by
  have hgrown := h.grown_splitEdge hsource htarget hchain
  refine ⟨hgrown.sound, ?_⟩
  rw [start_splitEdge]
  exact hgrown.live h.start

end

/-- Insertion grows a flow graph. -/
theorem grown_insert (node : Node) : Grown cfg.toGraph (cfg.insert node) :=
  (Grown.refl h.graph).insert node

/-- The edges that a new node takes over lead from live nodes. -/
theorem grown_takeIncoming (old : NodeId) (node : Node) :
    Grown (cfg.insert node) (cfg.takeIncoming old node) := by
  have hinsert := h.grown_insert node
  have hnew := cfg.contains_insert_self node
  refine (Grown.refl hinsert.sound).foldl fun link hlink _ hg => ?_
  refine hg.addEdge (hg.live ?_) (hg.live hnew)
  dsimp only
  split
  · exact hnew
  · have hmem : (link.1, link.2) ∈ cfg.incoming old := hlink
    exact hinsert.live (h.graph.contains_source hmem)

/-- The edges that a new node takes over lead to live nodes. -/
theorem grown_takeEdges (old : NodeId) (node : Node) :
    Grown (cfg.insert node) (cfg.takeEdges old node) := by
  have hinsert := h.grown_insert node
  have hnew := cfg.contains_insert_self node
  have hentered := h.grown_takeIncoming old node
  refine hentered.foldl fun link hlink _ hg => ?_
  have hmem : (link.1, link.2) ∈ cfg.outgoing old := (mem_filter.mp hlink).1
  exact hg.addEdge (hg.live (hentered.live hnew))
    (hg.live (hentered.live (hinsert.live (h.graph.contains_target hmem))))

/-- Replacing keeps it sound. -/
theorem substitute {old : NodeId} (hold : cfg.contains old) (node : Node) :
    (cfg.substitute old node).Sound := by
  have hinsert := h.grown_insert node
  have hnew := cfg.contains_insert_self node
  have hjoined := h.grown_takeEdges old node
  refine ⟨hjoined.sound.erase old, ?_⟩
  have hne : old ≠ cfg.nextId := Nat.ne_of_lt (lt_nextId_of_contains hold)
  simp only [FlowGraph.substitute, Graph.contains_erase, Bool.and_eq_true, decide_eq_true_eq]
  split
  · exact ⟨hne, hjoined.live hnew⟩
  · next hother => exact ⟨hother, hjoined.live (hinsert.live h.start)⟩

/-- Reached nodes are found. -/
theorem mem_reached : id ∈ cfg.reached ↔ cfg.Reaches cfg.start id :=
  mem_breadthFirst h.graph h.start

/-- The other live nodes are unreached. -/
theorem mem_unreached :
    id ∈ cfg.unreached ↔ cfg.contains id ∧ ¬ cfg.Reaches cfg.start id := by
  simp only [unreached, mem_filter, mem_nodes, Bool.not_eq_true']
  rw [← Bool.not_eq_true, Std.ExtTreeSet.contains_iff_mem, mem_reachableFrom h.graph h.start]

/-- Cleaning keeps it sound. -/
theorem clean : cfg.clean.Sound := by
  refine ⟨h.graph.foldl_erase _, ?_⟩
  have hnot : cfg.start ∉ cfg.unreached := fun hmem => (h.mem_unreached.mp hmem).2 (.refl _)
  simpa [FlowGraph.clean, withGraph, contains_foldl_erase, hnot] using h.start

/-- Cleaning leaves the nodes that control reaches. -/
theorem contains_clean :
    cfg.clean.contains id ↔ cfg.Reaches cfg.start id ∧ cfg.contains id := by
  have hiff : id ∈ cfg.unreached ↔ cfg.contains id ∧ ¬ cfg.Reaches cfg.start id :=
    h.mem_unreached
  simp only [FlowGraph.clean, withGraph, contains_foldl_erase, Bool.and_eq_true,
    Bool.not_eq_true', contains_eq_mem, decide_eq_false_iff_not, hiff]
  tauto

section

variable (hid : cfg.Reaches cfg.start id)
include hid

/-- Cleaning does not touch a node that control reaches. -/
theorem node?_clean : cfg.clean.node? id = cfg.node? id :=
  payload?_foldl_erase fun hmem => (h.mem_unreached.mp hmem).2 hid

/-- Cleaning keeps the links out. -/
theorem outgoing_clean : cfg.clean.outgoing id = cfg.outgoing id := by
  have hkept : ∀ link ∈ cfg.outgoing id, link.1 ∉ cfg.unreached := fun link hlink hmem =>
    (h.mem_unreached.mp hmem).2 (hid.tail (Graph.mem_successors.mpr ⟨link.2, hlink⟩))
  refine (outgoing_foldl_erase fun hmem => (h.mem_unreached.mp hmem).2 hid).trans ?_
  exact filter_eq_self.mpr fun link hlink => by simpa using hkept link hlink

/-- Cleaning keeps the ways that control can take. -/
theorem reaches_clean : cfg.clean.Reaches cfg.clean.start id := by
  induction hid with
  | refl => exact .refl _
  | @tail middle last hmiddle hlast ih =>
    refine ih.tail ?_
    rw [Graph.successors, h.outgoing_clean hmiddle]
    exact hlast

end

/-- Removing keeps it sound. -/
theorem remove (hne : id ≠ cfg.start) : (cfg.withGraph (cfg.erase id)).Sound :=
  ⟨h.graph.erase id, by simpa [withGraph, Graph.contains_erase, hne] using h.start⟩

end Sound

/-- A reached node but the start is entered from another node. -/
theorem exists_other_predecessor (hreach : cfg.Reaches cfg.start id) (hne : id ≠ cfg.start) :
    ∃ source, source ≠ id ∧ id ∈ cfg.successors source := by
  induction hreach with
  | refl => exact absurd rfl hne
  | @tail middle last _ hlast ih =>
    by_cases hsame : middle = last
    · subst hsame
      exact ih hne
    · exact ⟨middle, hsame, hlast⟩

end FlowGraph

end Flowgraph

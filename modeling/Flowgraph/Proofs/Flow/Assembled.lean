import Flowgraph.Proofs.Flow.Construct
import Flowgraph.Proofs.Ssa.Shape

/-!
# Flow graphs that can be made

`FlowGraph.Assembled` holds of every flow graph that the operations of this library can bring about.
All of them are sound (`FlowGraph.Assembled.sound`).
-/

namespace Flowgraph

namespace FlowGraph

variable {chain : List Node} {spliced : Spliced}

/-- A flow graph that some sequence of operations makes. -/
inductive Assembled : FlowGraph → Prop where
  | ofStart (span : Span) : Assembled (.ofStart span)
  | ofBody {body : Stmt} {cfg : FlowGraph} : ofBody body = .ok cfg → Assembled cfg
  | insert {cfg : FlowGraph} (node : Node) : Assembled cfg →
      Assembled (cfg.withGraph (cfg.insert node))
  | setNode {cfg : FlowGraph} (id : NodeId) (node : Node) : Assembled cfg →
      Assembled (cfg.withGraph (cfg.setPayload id node))
  | join {cfg : FlowGraph} {edge : Edge} {graph : Graph Node} : Assembled cfg →
      cfg.join edge = .ok graph → Assembled (cfg.withGraph graph)
  | unlinkEdge {cfg : FlowGraph} {edge : Edge} {graph : Graph Node} : Assembled cfg →
      cfg.unlinkEdge edge = .ok graph → Assembled (cfg.withGraph graph)
  | unlink {cfg : FlowGraph} {source target : NodeId} {labels : List Label} {graph : Graph Node} :
      Assembled cfg → cfg.unlink source target = .ok (labels, graph) →
      Assembled (cfg.withGraph graph)
  | remove {cfg cfg' : FlowGraph} {id : NodeId} {node : Node} : Assembled cfg →
      cfg.remove id = .ok (.ok (node, cfg')) → Assembled cfg'
  | prepend {cfg : FlowGraph} {id : NodeId} {chain : List Node} {spliced : Spliced} :
      Assembled cfg → cfg.prepend id chain = .ok spliced → Assembled spliced.1
  | postpend {cfg : FlowGraph} {id : NodeId} {chain : List Node} {spliced : Spliced} :
      Assembled cfg → cfg.postpend id chain = .ok spliced → Assembled spliced.1
  | innerInsert {cfg : FlowGraph} {edge : Edge} {chain : List Node} {spliced : Spliced} :
      Assembled cfg → cfg.innerInsert edge chain = .ok spliced → Assembled spliced.1
  | replace {cfg cfg' : FlowGraph} {old new : NodeId} {node : Node} : Assembled cfg →
      cfg.replace old node = .ok (cfg', new) → Assembled cfg'
  | clean {cfg : FlowGraph} : Assembled cfg → Assembled cfg.clean
  | toSsa {cfg cfg' : FlowGraph} {count : Nat} : Assembled cfg → cfg.toSsa = .ok (cfg', count) →
      Assembled cfg'
  | fromSsa {cfg : FlowGraph} : Assembled cfg → Assembled cfg.fromSsa.1

variable {cfg : FlowGraph}

/-- Chains are spliced at live nodes, and empty ones change nothing. -/
theorem spliceAt_cases {splice : FlowGraph → NodeId → List Node → FlowGraph} {id : NodeId}
    (h : spliceAt splice cfg id chain = .ok spliced) : cfg.contains id ∧
      (chain = [] ∧ spliced.1 = cfg ∨ chain ≠ [] ∧ spliced.1 = splice cfg id chain) := by
  rw [spliceAt] at h
  split at h
  · cases h
  next hid =>
  refine ⟨by simpa using hid, ?_⟩
  split at h
  · next hchain => exact .inl ⟨by simpa using hchain, Except.ok.inj h ▸ rfl⟩
  · next hchain => exact .inr ⟨by simpa using hchain, Except.ok.inj h ▸ rfl⟩

/-- Chains are spliced into edges, and empty ones change nothing. -/
theorem innerInsert_cases {edge : Edge} (h : cfg.innerInsert edge chain = .ok spliced) :
    cfg.hasEdge edge ∧
      (chain = [] ∧ spliced.1 = cfg ∨ chain ≠ [] ∧ spliced.1 = cfg.splitEdge edge chain) := by
  rw [innerInsert] at h
  split at h
  · cases h
  next hedge =>
  refine ⟨by simpa using hedge, ?_⟩
  split at h
  · next hchain => exact .inl ⟨by simpa using hchain, Except.ok.inj h ▸ rfl⟩
  · next hchain => exact .inr ⟨by simpa using hchain, Except.ok.inj h ▸ rfl⟩

/-- Replacement succeeds at live nodes only. -/
theorem replace_cases {cfg' : FlowGraph} {old new : NodeId} {node : Node}
    (h : cfg.replace old node = .ok (cfg', new)) :
    cfg.contains old ∧ cfg' = cfg.substitute old node := by
  rw [replace] at h
  split at h
  · next hold => exact ⟨hold, (Prod.mk.inj (Except.ok.inj h)).1.symm⟩
  · cases h

namespace Sound

variable {edge : Edge} {graph : Graph Node}

variable (h : cfg.Sound)
include h

/-- Joining keeps a flow graph sound. -/
theorem join (hjoin : cfg.join edge = .ok graph) : (cfg.withGraph graph).Sound := by
  rw [Graph.join] at hjoin
  split at hjoin
  · cases hjoin
  next htarget =>
  split at hjoin
  · cases hjoin
  next hsource =>
  cases hjoin
  exact h.grown ((Graph.Grown.refl h.graph).addEdge (by simpa using hsource)
    (by simpa using htarget))

/-- Unlinking an edge keeps it sound. -/
theorem unlinkEdge (hunlink : cfg.unlinkEdge edge = .ok graph) : (cfg.withGraph graph).Sound := by
  rw [Graph.unlinkEdge] at hunlink
  split at hunlink
  · cases hunlink
  split at hunlink
  · cases hunlink
  cases hunlink
  exact h.grown ((Graph.Grown.refl h.graph).eraseEdge edge)

/-- Unlinking two nodes keeps it sound. -/
theorem unlink {source target : NodeId} {labels : List Label}
    (hunlink : cfg.unlink source target = .ok (labels, graph)) : (cfg.withGraph graph).Sound := by
  rw [Graph.unlink] at hunlink
  split at hunlink
  · cases hunlink
  dsimp only at hunlink
  split at hunlink
  · cases hunlink
  cases hunlink
  exact h.grown ((Graph.Grown.refl h.graph).foldl fun label _ _ hg => hg.eraseEdge _)

/-- Splicing at a node keeps soundness if a chain with nodes does. -/
theorem spliceAt {splice : FlowGraph → NodeId → List Node → FlowGraph} {id : NodeId}
    (hsplice : cfg.contains id → chain ≠ [] → (splice cfg id chain).Sound)
    (hspliced : FlowGraph.spliceAt splice cfg id chain = .ok spliced) : spliced.1.Sound := by
  obtain ⟨hid, ⟨-, hsame⟩ | ⟨hchain, hnew⟩⟩ := spliceAt_cases hspliced
  · exact hsame ▸ h
  · exact hnew ▸ hsplice hid hchain

/-- Insertion into an edge keeps it sound. -/
theorem innerInsert (hspliced : cfg.innerInsert edge chain = .ok spliced) : spliced.1.Sound := by
  obtain ⟨hedge, ⟨-, hsame⟩ | ⟨hchain, hnew⟩⟩ := innerInsert_cases hspliced
  · exact hsame ▸ h
  · have hlink := Graph.hasEdge_iff.mp hedge
    exact hnew ▸ h.splitEdge (Graph.contains_of_mem_outgoing hlink)
      (h.graph.contains_target hlink) hchain

end Sound

/-- Every flow graph that can be made is sound. -/
theorem Assembled.sound (h : cfg.Assembled) : cfg.Sound := by
  induction h with
  | ofStart span => exact .ofStart span
  | ofBody hbody => exact .ofBody hbody
  | insert node _ ih => exact ih.grown (ih.grown_insert node)
  | setNode id node _ ih => exact ih.grown ((Graph.Grown.refl ih.graph).setPayload id node)
  | join _ hjoin ih => exact ih.join hjoin
  | unlinkEdge _ hunlink ih => exact ih.unlinkEdge hunlink
  | unlink _ hunlink ih => exact ih.unlink hunlink
  | @remove cfg cfg' id node _ hremove ih =>
    rw [FlowGraph.remove] at hremove
    split at hremove
    · cases hremove
    next hne =>
    rw [Graph.remove] at hremove
    split at hremove
    · cases hremove
    · obtain ⟨-, rfl⟩ := Prod.mk.inj (Except.ok.inj (Except.ok.inj hremove))
      exact ih.remove hne
  | prepend _ hprepend ih =>
    exact ih.spliceAt (fun hid hchain => ih.prependChain hid hchain) hprepend
  | postpend _ hpostpend ih =>
    exact ih.spliceAt (fun hid hchain => ih.postpendChain hid hchain) hpostpend
  | innerInsert _ hinsert ih => exact ih.innerInsert hinsert
  | @replace cfg cfg' old new node _ hreplace ih =>
    obtain ⟨hold, rfl⟩ := replace_cases hreplace
    exact ih.substitute hold node
  | clean _ ih => exact ih.clean
  | toSsa _ hssa ih => exact ih.toSsa hssa
  | fromSsa _ ih => exact ih.fromSsa

/-- A start, further nodes in order, and the edges that can be added. -/
def ofNodes (span : Span) (nodes : List Node) (edges : List Edge) : FlowGraph :=
  edges.foldl (fun cfg edge =>
    match cfg.join edge with
    | .ok graph => cfg.withGraph graph
    | .error _ => cfg)
    (nodes.foldl (fun cfg node => cfg.withGraph (cfg.insert node)) (ofStart span))

/-- Graphs given by lists are assembled. -/
theorem Assembled.ofNodes (span : Span) (nodes : List Node) (edges : List Edge) :
    (ofNodes span nodes edges).Assembled := by
  refine List.foldlRecOn edges _ (List.foldlRecOn nodes _ (.ofStart span) ?_) ?_
  · intro cfg h node _
    exact h.insert node
  · intro cfg h edge _
    split
    · next graph hgraph => exact h.join hgraph
    · exact h

end FlowGraph

end Flowgraph

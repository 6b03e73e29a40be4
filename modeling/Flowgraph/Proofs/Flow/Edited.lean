import Flowgraph.Proofs.Flow.Assembled
import Flowgraph.Proofs.Flow.Tidy
import Flowgraph.Proofs.Graph.Edit

/-!
# Graphs after any edits

`Graph.Intact` holds after any sequence of requests: both copies of every edge agree, no list has a
repetition, edges have live ends, true ways come first, and the count of nodes is right
(`Graph.Counted`). A flow graph that requests change is one that the operations of this library can
make (`FlowGraph.Assembled.edited`).
-/

namespace Flowgraph

open List

namespace Graph

variable {α : Type} {g g' : Graph α}

/-! ### The number of live nodes -/

/-- The count of live nodes is right. -/
def Counted (g : Graph α) : Prop :=
  g.live = g.nodes.length

/-- Graphs with the same live nodes. -/
theorem nodes_congr (hnext : g'.nextId = g.nextId)
    (hcontains : ∀ id, g'.contains id = g.contains id) : g'.nodes = g.nodes := by
  rw [nodes, nodes, ← nextId, ← nextId, hnext]
  exact filter_congr fun id _ => hcontains id

/-- Inserted nodes are listed last. -/
theorem nodes_insert (g : Graph α) (payload : α) :
    (g.insert payload).nodes = g.nodes ++ [g.nextId] := by
  have hold : ∀ id ∈ List.range g.nextId, (g.insert payload).contains id = g.contains id := by
    intro id hid
    have hne : id ≠ g.nextId := Nat.ne_of_lt (mem_range.mp hid)
    rw [contains_insert, decide_eq_false hne, Bool.false_or]
  rw [nodes, ← nextId, nextId_insert, range_succ, filter_append, filter_congr hold,
    nodes, ← nextId]
  simp [contains_insert]

/-- Erased nodes leave the list. -/
theorem nodes_erase (g : Graph α) (id : NodeId) : (g.erase id).nodes = g.nodes.erase id := by
  have hnodup : g.nodes.Nodup := nodup_range.filter _
  rw [hnodup.erase_eq_filter, nodes, ← nextId, nextId_erase, nodes, ← nextId, filter_filter]
  refine filter_congr fun other _ => ?_
  rw [contains_erase, bne_comm]
  by_cases h : id = other <;> simp [h]

/-- Edges keep the live count. -/
theorem live_addEdge (g : Graph α) (edge : Edge) : (g.addEdge edge).live = g.live := by
  unfold addEdge
  split <;> rfl

/-- The count stays right if nothing changes. -/
theorem Counted.of_same (h : g.Counted) (hlive : g'.live = g.live) (hnext : g'.nextId = g.nextId)
    (hcontains : ∀ id, g'.contains id = g.contains id) : g'.Counted := by
  rw [Counted, hlive, nodes_congr hnext hcontains]
  exact h

/-- Edits keep the count right. -/
theorem Edit.Applied.counted {edit : Edit α} {reply : Edit.Reply α} (hg : g.Counted)
    (h : Edit.Applied g edit reply g') : g'.Counted := by
  cases h with
  | insert payload =>
    show g.live + 1 = _
    rw [nodes_insert, length_append, show g.live = _ from hg]
    rfl
  | @remove id payload hpayload =>
    have hlive := contains_of_payload? hpayload
    show (g.erase id).live = _
    rw [live_erase, if_pos hlive, nodes_erase, length_erase_of_mem (mem_nodes.mpr hlive),
      show g.live = _ from hg]
  | join hsource htarget =>
    exact hg.of_same (live_addEdge g _) (nextId_addEdge g _) (contains_addEdge g _)
  | unlink hne =>
    exact hg.of_same (live_eraseEdges g _) (nextId_eraseEdges g _) (contains_eraseEdges g _)
  | unlinkEdge hedge =>
    exact hg.of_same (live_eraseEdge g _) (nextId_eraseEdge g _) (contains_eraseEdge g _)
  | offer id payload =>
    exact hg.of_same rfl (nextId_setPayload g id payload) fun other =>
      contains_setPayload g id other payload
  | assign hold =>
    exact hg.of_same rfl (nextId_setPayload g _ _) fun other => contains_setPayload g _ other _

/-- What holds of the representation of a graph. -/
structure Intact (g : Graph α) : Prop where
  mirrored : ∀ source target label,
    (target, label) ∈ g.outgoing source ↔ (source, label) ∈ g.incoming target
  nodup : ∀ id, (g.outgoing id).Nodup ∧ (g.incoming id).Nodup
  live : ∀ id, ∀ link ∈ g.outgoing id ++ g.incoming id,
    g.contains id ∧ g.contains link.1
  true_first : ∀ id,
    (g.outgoing id).Pairwise fun first second => second.2 = some true → first.2 = some true
  size : g.size = g.nodes.length
  branch : ∀ id onTrue onFalse,
    (g.outgoing id).Perm [(onFalse, some false), (onTrue, some true)] →
      g.outgoing id = [(onTrue, some true), (onFalse, some false)]

/-- Sound, counted graphs are intact. -/
theorem Sound.intact (hg : g.Sound) (hcount : g.Counted) : g.Intact where
  mirrored _ _ _ := hg.mirrored
  nodup id := ⟨hg.outgoing_nodup id, hg.incoming_nodup id⟩
  live id link hlink := by
    rcases mem_append.mp hlink with hout | hin
    · exact ⟨contains_of_mem_outgoing hout, hg.contains_target hout⟩
    · exact ⟨contains_of_mem_incoming hin, hg.contains_source hin⟩
  true_first := hg.true_first
  size := hcount
  branch id onTrue onFalse hperm := by
    refine hg.outgoing_eq_pair fun link => ?_
    rw [hperm.mem_iff, mem_pair, or_comm]

end Graph

namespace FlowGraph

open Graph (Edit)

variable {cfg : FlowGraph}

/-- A flow graph whose graph requests have changed. -/
def edited (cfg : FlowGraph) (edits : List (Edit Node)) : FlowGraph :=
  cfg.withGraph (Edit.runAll edits cfg.toGraph).2

/-- A request that spares the start leads from an assembled graph to another. -/
theorem Assembled.applied {edit : Edit Node} {reply : Edit.Reply Node} {graph : Graph Node}
    (h : cfg.Assembled) (hstart : edit ≠ .remove cfg.start)
    (happlied : Edit.Applied cfg.toGraph edit reply graph) : (cfg.withGraph graph).Assembled := by
  cases happlied with
  | insert node => exact h.insert node
  | @remove id node hnode =>
    have hne : id ≠ cfg.start := fun heq => hstart (heq ▸ rfl)
    have hremove : cfg.remove id = .ok (.ok (node, cfg.withGraph (cfg.erase id))) := by
      rw [FlowGraph.remove, if_neg hne, Graph.remove_eq_ok hnode]
      rfl
    exact h.remove hremove
  | join hsource htarget => exact h.join (Graph.join_eq_ok hsource htarget)
  | unlink hne => exact h.unlink (Graph.unlink_eq_ok hne)
  | unlinkEdge hedge => exact h.unlinkEdge (Graph.unlinkEdge_eq_ok hedge)
  | offer id node => exact h.setNode id node
  | assign hold => exact h.setNode _ _

/-- Requests that spare the start lead to assembled graphs. -/
theorem Assembled.edited (h : cfg.Assembled) {edits : List (Edit Node)}
    (hstart : .remove cfg.start ∉ edits) : (cfg.edited edits).Assembled := by
  induction edits generalizing cfg with
  | nil => exact h
  | cons edit rest ih =>
    obtain ⟨hfirst, hrest⟩ := ne_and_not_mem_of_not_mem_cons hstart
    have hstep : (cfg.withGraph (edit.run cfg.toGraph).2).Assembled := by
      refine Edit.invariant_run h.sound.graph (P := fun graph =>
        (cfg.withGraph graph).Assembled) h ?_
      intro reply graph happlied
      exact h.applied (Ne.symm hfirst) happlied
    exact ih hstep hrest

/-- The checks at a node do not look at the two copies of an edge. -/
theorem asymmetric_not_mem_kindViolations (cfg : FlowGraph) (id : NodeId) (kind : Kind)
    (arity : Nat) (edge : Edge) : .asymmetric edge ∉ cfg.kindViolations id kind arity := by
  have hif : ∀ {ok : Prop} [Decidable ok] {other : Violation}, other ≠ .asymmetric edge →
      .asymmetric edge ∉ if ok then [] else [other] := by
    intro ok _ other hother
    split
    · exact not_mem_nil
    · exact fun hmem => hother (mem_singleton.mp hmem).symm
  have hself : .asymmetric edge ∉ cfg.checkNoSelfEdge id kind := by
    rw [checkNoSelfEdge]
    split
    · simp
    · exact not_mem_nil
  cases kind <;>
    simp [kindViolations, checkOut, checkIn, checkSelfEdge, checkDesignated, checkBranchLabels,
      hif, hself]

/-- No edge is recorded at one end only. -/
theorem Assembled.asymmetric_not_mem_violations (h : cfg.Assembled) (edge : Edge) :
    .asymmetric edge ∉ cfg.violations := by
  rw [violations, h.sound.asymmetricEdges_eq_nil, map_nil, append_nil, mem_flatMap]
  rintro ⟨id, -, hmem⟩
  rw [nodeViolations] at hmem
  split at hmem
  · cases hmem
  · exact cfg.asymmetric_not_mem_kindViolations id _ _ edge hmem

/-- After any requests on an empty graph, refused ones among them, its representation is intact and
no number was handed out twice. Flow graphs that are made by the operations of this library, or from
such ones by requests, list every edge as often at its source as at its target. -/
theorem intact_runAll {α : Type} (edits : List (Edit α)) :
    (Edit.runAll edits {}).2.Intact ∧ (Edit.handedOut (Edit.runAll edits {}).1).Nodup ∧
      ∀ (cfg : FlowGraph) (changes : List (Edit Node)), cfg.Assembled →
        .remove cfg.start ∉ changes → (cfg.edited changes).Assembled ∧
          ∀ edge, .asymmetric edge ∉ (cfg.edited changes).violations := by
  have hsound := Edit.sound_runAll Graph.Sound.empty edits
  have hcount : (Edit.runAll edits {}).2.Counted :=
    Edit.invariant_runAll (P := Graph.Counted) .empty rfl
      (fun _ hcount happlied => happlied.counted hcount) edits
  refine ⟨hsound.intact hcount, ?_, fun cfg changes hcfg hstart => ?_⟩
  · exact (Edit.pairwise_handedOut .empty edits).imp fun hlt => Nat.ne_of_lt hlt
  · have hedited := hcfg.edited hstart
    exact ⟨hedited, hedited.asymmetric_not_mem_violations⟩

/-- Both ways out of a node, an edge that is missing, and a node that is gone. -/
def looping : List (Edit String) :=
  [.insert "a", .insert "b", .join ⟨0, 1, some false⟩, .join ⟨0, 0, some true⟩, .unlink 1 0,
    .insert "c", .remove 2, .assign 2 "d", .insert "e"]

/-- A run with loops and removals. -/
theorem intact_runAll_looping :
    (Edit.runAll looping {}).2.Intact ∧ (Edit.runAll looping {}).2.size = 3 ∧
      (Edit.runAll looping {}).2.outgoing 0 = [(0, some true), (1, some false)] ∧
      (Edit.handedOut (Edit.runAll looping {}).1).Nodup ∧
      Edit.handedOut (Edit.runAll looping {}).1 = [0, 1, 2, 3] ∧
      ∀ edge, .asymmetric edge ∉
        ((ofStart .dummy).edited [.insert (.spin .dummy), .join ⟨1, 1, none⟩,
          .remove 1]).violations := by
  obtain ⟨hintact, hnodup, hflow⟩ := intact_runAll looping
  exact ⟨hintact, by decide +kernel, by decide +kernel, hnodup, by decide +kernel,
    (hflow _ _ (.ofStart .dummy) (by simp [ofStart])).2⟩

end FlowGraph

end Flowgraph

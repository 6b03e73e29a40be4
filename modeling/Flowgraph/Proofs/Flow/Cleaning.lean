import Flowgraph.Proofs.Flow.Splicing

/-!
# Cleaning

`FlowGraph.Cleaned` says what comes of removing the nodes that control cannot reach: the others keep
their numbers, payloads and outgoing edges, and lose the incoming edges from outside without
reordering. No removal is refused, since the nodes are live and distinct
(`Graph.Editing.run_forM_remove`).
-/

namespace Flowgraph

namespace Graph.Editing

variable {α : Type} {g : Graph α}

/-- Live nodes can be removed one after another. -/
theorem run_forM_remove (hg : g.Sound) {ids : List NodeId} (hlive : ∀ id ∈ ids, g.contains id)
    (hnodup : ids.Nodup) :
    (ids.forM fun id => do let _ ← remove id).run g = .ok () (ids.foldl Graph.erase g) := by
  induction ids generalizing g with
  | nil => rfl
  | cons id rest ih =>
    obtain ⟨⟨payload, hpayload⟩, hrest⟩ := stay_erase hlive hnodup
    have hremove : (remove id).run g = .ok payload (g.erase id) := by
      rw [run_remove hg, remove_eq_ok hpayload]
      rfl
    have hstep : (do let _ ← remove id : Editing α Unit).run g = .ok () (g.erase id) :=
      run_bind_of_ok hremove
    rw [List.forM, run_bind_of_ok hstep]
    exact ih (hg.erase id) hrest hnodup.of_cons

end Graph.Editing

namespace FlowGraph

variable {cfg : FlowGraph}

/-- Unreached nodes are listed once. -/
theorem nodup_unreached (cfg : FlowGraph) : cfg.unreached.Nodup :=
  (List.nodup_range.filter _).filter _

/-- Cleaning in place is never refused. -/
theorem Sound.run_clean (h : cfg.Sound) :
    Splicing.clean.run cfg = .ok cfg.unreached.length cfg.clean := by
  have hlive : ∀ id ∈ cfg.unreached, cfg.contains id := fun id hid => (h.mem_unreached.mp hid).1
  have hremove := Graph.Editing.run_forM_remove h.graph hlive cfg.nodup_unreached
  have hget : (get : Splicing FlowGraph).run cfg = .ok cfg cfg := rfl
  rw [Splicing.clean, run_bind_of_ok hget, run_bind_of_ok (Splicing.run_edit_of_ok hremove)]
  rfl

open scoped Classical in
/-- What cleaning makes of a flow graph, and its answer. -/
structure Cleaned (cfg : FlowGraph) (count : Nat) (cleaned : FlowGraph) : Prop where
  count : count = (cfg.nodes.filter fun id => ¬cfg.Reaches cfg.start id).length
  start : cleaned.start = cfg.start
  nextId : cleaned.nextId = cfg.nextId
  contains : ∀ id, cleaned.contains id ↔ cfg.Reaches cfg.start id
  node : ∀ id, cfg.Reaches cfg.start id → cleaned.node? id = cfg.node? id
  outgoing : ∀ id, cfg.Reaches cfg.start id → cleaned.outgoing id = cfg.outgoing id
  incoming : ∀ id, cfg.Reaches cfg.start id →
    cleaned.incoming id = (cfg.incoming id).filter fun link => cfg.Reaches cfg.start link.1

open scoped Classical in
/-- Cleaning removes what is not reached. -/
theorem Sound.cleaned (h : cfg.Sound) : cfg.Cleaned cfg.unreached.length cfg.clean where
  count := by
    refine congrArg List.length (List.filter_congr fun id _ => ?_)
    rw [Bool.eq_iff_iff, NodeSet.not_contains_iff, Graph.mem_reachableFrom h.graph h.start,
      decide_eq_true_iff]
  start := rfl
  nextId := Graph.nextId_foldl_erase _
  contains id := by
    rw [h.contains_clean, and_iff_left_iff_imp]
    exact fun hid => hid.contains h.graph h.start
  node id hid := h.node?_clean hid
  outgoing id hid := h.outgoing_clean hid
  incoming id hid := by
    refine (Graph.incoming_foldl_erase fun hmem => (h.mem_unreached.mp hmem).2 hid).trans ?_
    refine List.filter_congr fun link hlink => ?_
    have hlive : cfg.contains link.1 := h.graph.contains_source hlink
    rw [decide_eq_decide, h.mem_unreached, and_iff_right hlive, not_not]

/-- Nothing is out of reach in a graph that was cleaned. -/
theorem Sound.unreached_clean (h : cfg.Sound) : cfg.clean.unreached = [] := by
  refine List.eq_nil_iff_forall_not_mem.mpr fun id hid => ?_
  obtain ⟨hlive, hnot⟩ := h.clean.mem_unreached.mp hid
  exact hnot (h.reaches_clean (h.contains_clean.mp hlive).1)

/-- Cleaning twice is cleaning once. -/
theorem Sound.clean_clean (h : cfg.Sound) : cfg.clean.clean = cfg.clean := by
  show cfg.clean.withGraph (cfg.clean.unreached.foldl Graph.erase cfg.clean.toGraph) = cfg.clean
  rw [h.unreached_clean]
  rfl

/-- Cleaning takes away what control cannot reach and nothing else, and once is enough. -/
theorem Assembled.clean_removes_unreached (hcfg : cfg.Assembled) :
    ∃ count cleaned, Splicing.clean.run cfg = .ok count cleaned ∧ cfg.Cleaned count cleaned ∧
      Splicing.clean.run cleaned = .ok 0 cleaned := by
  have hsound := hcfg.sound
  refine ⟨_, _, hsound.run_clean, hsound.cleaned, ?_⟩
  rw [hsound.clean.run_clean, hsound.clean_clean, hsound.unreached_clean]
  rfl

/-- Out of reach are a circle and a node that leads to itself, and each of them enters the return.
-/
def littered : FlowGraph :=
  .ofNodes .dummy [.branch (.temp "x") .dummy, .assign "i" (.const 1) .dummy, .ret .dummy,
      .branch (.temp "y") .dummy, .assign "j" (.const 2) .dummy, .branch (.temp "z") .dummy]
    [⟨0, 1, none⟩, ⟨4, 3, some true⟩, ⟨1, 3, some true⟩, ⟨6, 3, some false⟩, ⟨1, 2, some false⟩,
      ⟨2, 3, none⟩, ⟨4, 5, some false⟩, ⟨5, 4, none⟩, ⟨5, 3, none⟩, ⟨6, 6, some true⟩]

/-- A join entered from unreached nodes. -/
theorem clean_removes_unreached_littered :
    littered.Assembled ∧ littered.incoming 3 = [(4, some true), (1, some true), (6, some false),
      (2, none), (5, none)] ∧
      ∃ cleaned, Splicing.clean.run littered = .ok 3 cleaned ∧ littered.Cleaned 3 cleaned ∧
        Splicing.clean.run cleaned = .ok 0 cleaned ∧ cleaned.nodes = [0, 1, 2, 3] ∧
        cleaned.incoming 3 = [(1, some true), (2, none)] := by
  have hassembled : littered.Assembled := .ofNodes ..
  obtain ⟨count, cleaned, hrun, hcleaned, hagain⟩ := hassembled.clean_removes_unreached
  obtain ⟨rfl, rfl⟩ := EStateM.Result.ok.inj (hassembled.sound.run_clean.symm.trans hrun)
  have hcount : littered.unreached.length = 3 := by decide +kernel
  rw [hcount] at hrun hcleaned
  exact ⟨hassembled, by decide +kernel, _, hrun, hcleaned,
    hagain, by decide +kernel, by decide +kernel⟩

end FlowGraph

end Flowgraph

import Flowgraph.Dataflow.Forward
import Flowgraph.Proofs.Dataflow.Lattice
import Flowgraph.Proofs.Flow.Assembled
import Flowgraph.Proofs.Flow.Component

/-!
# What a forward analysis returns solves its equations

Whatever the solver returns is a solution, for every analysis and every flow graph that can be made
(`ForwardAnalysis.facts_solve`). The invariant is `ForwardAnalysis.Solver.Working`: a node whose
recorded input is no longer the meet of the facts at its entry waits, in the queue or with its
component.
-/

namespace Flowgraph

open List

variable {φ : Type}

/-- The edges into a node from nodes that control reaches. -/
def FlowGraph.reachedIncoming (cfg : FlowGraph) (id : NodeId) : List Link :=
  (cfg.incoming id).filter fun link => cfg.reached.contains link.1

/-- The facts solve the equations of an analysis. Exactly the nodes that control reaches have facts.
The input of a node is the meet from left to right of the facts on its edges from such nodes, and
its outputs are what its transfer function makes of the input, one for each outgoing edge. -/
structure ForwardFacts.Solves (facts : ForwardFacts φ) (analysis : ForwardAnalysis φ)
    (cfg : FlowGraph) : Prop where
  input_isSome : ∀ id, (facts.input? id).isSome ↔ cfg.Reaches cfg.start id
  contains_outputs : ∀ id, facts.outputs.contains id ↔ cfg.Reaches cfg.start id
  input_eq : ∀ id, cfg.Reaches cfg.start id → ∃ entering : List φ,
    (cfg.reachedIncoming id).map (fun link => facts.onEdge? cfg ⟨link.1, id, link.2⟩) =
      entering.map some ∧
    facts.input? id = some (meetAll analysis.top analysis.meet entering)
  outputs_eq : ∀ id input, facts.input? id = some input → ∃ node, cfg.node? id = some node ∧
    analysis.transfer id (cfg.outgoing id).length node input = .ok (facts.outputsOf id) ∧
    (facts.outputsOf id).length = (cfg.outgoing id).length

namespace ForwardFacts

variable (facts : ForwardFacts φ) (cfg : FlowGraph) {edge : Edge}

/-! ### Recording the facts of a node -/

/-- The facts with those of one node recorded anew. -/
def record (id : NodeId) (input : φ) (outputs : List φ) : ForwardFacts φ :=
  ⟨facts.inputs.insert id input, facts.outputs.insert id outputs⟩

variable (id : NodeId) (input : φ) (outputs : List φ)

/-- Recording sets one input. -/
theorem input?_record (other : NodeId) : (facts.record id input outputs).input? other =
    if id = other then some input else facts.input? other := by
  simp [record, input?, Std.ExtTreeMap.getElem?_insert]

/-- Recording sets the outputs of a node. -/
theorem getElem?_outputs_record (other : NodeId) : (facts.record id input outputs).outputs[other]? =
    if id = other then some outputs else facts.outputs[other]? := by
  simp [record, Std.ExtTreeMap.getElem?_insert]

/-- Missing outputs are empty. -/
theorem outputsOf_eq (other : NodeId) : facts.outputsOf other = facts.outputs[other]?.getD [] :=
  Std.ExtTreeMap.getD_eq_getD_getElem?

/-- The outputs after recording. -/
theorem outputsOf_record (other : NodeId) : (facts.record id input outputs).outputsOf other =
    if id = other then outputs else facts.outputsOf other := by
  rw [outputsOf_eq, getElem?_outputs_record, outputsOf_eq]
  split <;> rfl

/-- The fact on an edge is found by place. -/
theorem onEdge?_eq_bind (edge : Edge) : facts.onEdge? cfg edge =
    ((cfg.outgoing edge.source).idxOf? (edge.target, edge.label)).bind
      ((facts.outputsOf edge.source)[·]?) :=
  rfl

/-- Only the facts on edges from the recorded node change. -/
theorem onEdge?_record_of_ne (hne : id ≠ edge.source) :
    (facts.record id input outputs).onEdge? cfg edge = facts.onEdge? cfg edge := by
  rw [onEdge?_eq_bind, onEdge?_eq_bind, outputsOf_record, if_neg hne]

variable {facts cfg}

/-- The fact on an edge is the output at its position. -/
theorem onEdge?_of_getElem? (hcfg : cfg.Sound) {index : Nat}
    (hindex : (cfg.outgoing edge.source)[index]? = some (edge.target, edge.label)) :
    facts.onEdge? cfg edge = (facts.outputsOf edge.source)[index]? := by
  have hposition : (cfg.outgoing edge.source).idxOf? (edge.target, edge.label) = some index := by
    obtain ⟨hlt, hget⟩ := List.getElem?_eq_some_iff.mp hindex
    rw [idxOf?_eq_some_iff]
    refine ⟨hlt, hget, fun other hother heq => ?_⟩
    have hsame := (hcfg.graph.outgoing_nodup edge.source).getElem_inj_iff.mp (heq.trans hget.symm)
    omega
  rw [onEdge?_eq_bind, hposition, Option.bind_some]

/-- An edge of a node with a fact for each outgoing edge has a fact. -/
theorem onEdge?_isSome (hcfg : cfg.Sound) (hedge : cfg.hasEdge edge)
    (hlength : (facts.outputsOf edge.source).length = (cfg.outgoing edge.source).length) :
    ∃ fact, facts.onEdge? cfg edge = some fact := by
  obtain ⟨index, hindex⟩ := getElem?_of_mem (Graph.hasEdge_iff.mp hedge)
  have hlt : index < (facts.outputsOf edge.source).length := by
    rw [hlength]
    exact (List.getElem?_eq_some_iff.mp hindex).1
  exact ⟨_, (onEdge?_of_getElem? hcfg hindex).trans (getElem?_eq_getElem hlt)⟩

end ForwardFacts

namespace ForwardAnalysis

variable {analysis : ForwardAnalysis φ} {cfg : FlowGraph} {facts facts' : ForwardFacts φ}
  {id : NodeId} {input : φ} {outputs : List φ} {target : NodeId}

/-- Only the facts on its incoming edges decide a node's input. -/
theorem inputAt_congr
    (h : ∀ link ∈ cfg.incoming id, facts'.onEdge? cfg ⟨link.1, id, link.2⟩ =
      facts.onEdge? cfg ⟨link.1, id, link.2⟩) :
    analysis.inputAt cfg facts' id = analysis.inputAt cfg facts id := by
  unfold inputAt ForwardFacts.entering
  rw [filterMap_congr h]

/-- A live node has an output for each edge. -/
theorem outputsAt_eq_ok (h : analysis.outputsAt cfg id input = .ok outputs) :
    (cfg.node? id = none ∧ outputs = []) ∨ ∃ node, cfg.node? id = some node ∧
      analysis.transfer id (cfg.outgoing id).length node input = .ok outputs ∧
      outputs.length = (cfg.outgoing id).length := by
  unfold outputsAt at h
  split at h
  · next hnone => exact .inl ⟨hnone, (Except.ok.inj h).symm⟩
  · next node hnode =>
    dsimp only at h
    split at h
    · cases h
    · next found htransfer =>
      split at h
      · next hlength =>
        cases h
        exact .inr ⟨node, hnode, htransfer, hlength⟩
      · cases h

/-- Every link out has an output. -/
theorem length_of_outputsAt (h : analysis.outputsAt cfg id input = .ok outputs) :
    outputs.length = (cfg.outgoing id).length := by
  rcases outputsAt_eq_ok h with ⟨hnone, hnil⟩ | ⟨node, -, -, hlength⟩
  · rw [hnil, Graph.outgoing_eq_nil (Graph.not_contains_of_payload? hnone)]
    rfl
  · exact hlength

/-! ### Solutions as fixed points -/

/-- The facts that enter a node are those on edges from reached nodes. -/
theorem map_reachedIncoming (hcfg : cfg.Sound)
    (hlength : ∀ id, cfg.Reaches cfg.start id →
      (facts.outputsOf id).length = (cfg.outgoing id).length)
    (hnone : ∀ id, ¬ cfg.Reaches cfg.start id → facts.outputs[id]? = none) (id : NodeId) :
    (cfg.reachedIncoming id).map (fun link => facts.onEdge? cfg ⟨link.1, id, link.2⟩) =
      (facts.entering cfg id).map some := by
  refine map_filter_eq fun link hlink => ?_
  rw [Bool.eq_iff_iff, contains_iff_mem, hcfg.mem_reached]
  constructor
  · intro hsource
    have hedge : cfg.hasEdge ⟨link.1, id, link.2⟩ = true :=
      Graph.hasEdge_iff.mpr (hcfg.graph.mirrored.mpr hlink)
    obtain ⟨fact, hfact⟩ := ForwardFacts.onEdge?_isSome hcfg hedge (hlength link.1 hsource)
    rw [hfact, Option.isSome_some]
  · intro hsome
    by_contra hsource
    rw [ForwardFacts.onEdge?_eq_bind, ForwardFacts.outputsOf_eq, hnone link.1 hsource] at hsome
    simp at hsome

/-- Facts that processing would not change solve the equations. -/
theorem solves_of_fixed (hcfg : cfg.Sound)
    (hinputs : ∀ id input, facts.input? id = some input → cfg.Reaches cfg.start id)
    (houtputs : ∀ id outputs, facts.outputs[id]? = some outputs → cfg.Reaches cfg.start id)
    (hfixed : ∀ id, cfg.Reaches cfg.start id →
      facts.input? id = some (analysis.inputAt cfg facts id) ∧
      ∃ outputs, facts.outputs[id]? = some outputs ∧
        analysis.outputsAt cfg id (analysis.inputAt cfg facts id) = .ok outputs) :
    facts.Solves analysis cfg := by
  have houtputsOf : ∀ id, cfg.Reaches cfg.start id →
      analysis.outputsAt cfg id (analysis.inputAt cfg facts id) = .ok (facts.outputsOf id) := by
    intro id hid
    obtain ⟨-, outputs, hrecord, hequation⟩ := hfixed id hid
    rw [ForwardFacts.outputsOf_eq, hrecord, Option.getD_some, hequation]
  refine ⟨fun id => ?_, fun id => ?_, fun id hid => ?_, fun id input hinput => ?_⟩
  · rw [Option.isSome_iff_exists]
    exact ⟨fun ⟨input, hinput⟩ => hinputs id input hinput, fun hid => ⟨_, (hfixed id hid).1⟩⟩
  · rw [← Std.ExtTreeMap.isSome_getElem?_eq_contains, Option.isSome_iff_exists]
    refine ⟨fun ⟨outputs, hrecord⟩ => houtputs id outputs hrecord, fun hid => ?_⟩
    obtain ⟨-, outputs, hrecord, -⟩ := hfixed id hid
    exact ⟨outputs, hrecord⟩
  · refine ⟨facts.entering cfg id, map_reachedIncoming hcfg ?_ ?_ id, (hfixed id hid).1⟩
    · exact fun other hother => length_of_outputsAt (houtputsOf other hother)
    · intro other hother
      by_contra hsome
      obtain ⟨found, hfound⟩ := Option.ne_none_iff_exists'.mp hsome
      exact hother (houtputs other found hfound)
  · have hid := hinputs id input hinput
    obtain rfl := Option.some.inj ((hfixed id hid).1.symm.trans hinput)
    rcases outputsAt_eq_ok (houtputsOf id hid) with ⟨hdead, -⟩ | hnode
    · have hlive := hid.contains hcfg.graph hcfg.start
      simp [Graph.not_contains_of_payload? hdead] at hlive
    · exact hnode

/-! ### Waking nodes -/

/-- A node is in the queue, or its component waits for its turn. -/
def Solver.Pending (components : Components) (solver : Solver φ) (id : NodeId) : Prop :=
  id ∈ solver.queue ∨ components.indexOf id ∈ solver.waiting

/-- Woken nodes are queued in the current component, and otherwise wait with their own. -/
structure Solver.Woken (components : Components) (solver : Solver φ) (ids : List NodeId)
    (next : Solver φ) : Prop where
  facts : next.facts = solver.facts
  current : next.current = solver.current
  mem_queue : ∀ {id}, id ∈ next.queue ↔
    id ∈ solver.queue ∨ id ∈ ids ∧ components.indexOf id = solver.current
  mem_waiting : ∀ {index}, index ∈ next.waiting ↔
    index ∈ solver.waiting ∨ ∃ id ∈ ids, components.indexOf id = index ∧ index ≠ solver.current

namespace Solver.Woken

variable {components : Components} {solver next : Solver φ}

/-- One node is woken. -/
theorem wake (components : Components) (solver : Solver φ) (id : NodeId) :
    Woken components solver [id] (solver.wake components id) := by
  by_cases hcurrent : components.indexOf id = solver.current
  · have hwaiting : ∀ {index}, index ∈ solver.waiting ↔ index ∈ solver.waiting ∨
        ∃ other ∈ [id], components.indexOf other = index ∧ index ≠ solver.current := by
      intro index
      simp only [mem_singleton, exists_eq_left, hcurrent]
      exact ⟨.inl, fun hindex => hindex.resolve_right fun hboth => hboth.2 hboth.1.symm⟩
    by_cases hqueued : id ∈ solver.queue
    · have hwake : solver.wake components id = solver := by simp [Solver.wake, hcurrent, hqueued]
      rw [hwake]
      refine ⟨rfl, rfl, fun {other} => ⟨.inl, fun hother => ?_⟩, hwaiting⟩
      rcases hother with hother | ⟨hother, -⟩
      · exact hother
      · exact mem_singleton.mp hother ▸ hqueued
    · have hwake : solver.wake components id = { solver with queue := solver.queue ++ [id] } := by
        simp [Solver.wake, hcurrent, hqueued]
      rw [hwake]
      refine ⟨rfl, rfl, fun {other} => ?_, hwaiting⟩
      simp only [mem_append, mem_singleton]
      exact or_congr_right ⟨fun heq => ⟨heq, heq ▸ hcurrent⟩, fun hother => hother.1⟩
  · have hwake : solver.wake components id =
        { solver with waiting := solver.waiting.insert (components.indexOf id) } := by
      simp [Solver.wake, hcurrent]
    rw [hwake]
    refine ⟨rfl, rfl, fun {other} => ⟨.inl, fun hother => hother.resolve_right ?_⟩,
      fun {index} => ?_⟩
    · exact fun hboth => hcurrent (mem_singleton.mp hboth.1 ▸ hboth.2)
    · simp only [Std.ExtTreeSet.mem_insert, Std.LawfulEqCmp.compare_eq_iff_eq, mem_singleton,
        exists_eq_left]
      constructor
      · intro hindex
        rcases hindex with heq | hindex
        · exact .inr ⟨heq, heq ▸ hcurrent⟩
        · exact .inl hindex
      · exact fun hindex => hindex.symm.imp_left And.left

/-- Nodes are woken in turn. -/
theorem foldl (components : Components) (ids : List NodeId) (solver : Solver φ) :
    Woken components solver ids (ids.foldl (Solver.wake components) solver) := by
  induction ids generalizing solver with
  | nil => exact ⟨rfl, rfl, by simp, by simp⟩
  | cons id rest ih =>
    have hfirst := wake components solver id
    have hrest := ih (solver.wake components id)
    refine ⟨hrest.facts.trans hfirst.facts, hrest.current.trans hfirst.current, fun {other} => ?_,
      fun {index} => ?_⟩
    · rw [foldl_cons, hrest.mem_queue, hfirst.mem_queue, hfirst.current]
      simp only [mem_cons, not_mem_nil, or_false]
      tauto
    · rw [foldl_cons, hrest.mem_waiting, hfirst.mem_waiting, hfirst.current,
        exists_mem_cons_iff, exists_mem_cons_iff]
      simp only [not_mem_nil, false_and, exists_false, or_false]
      tauto

/-- Woken nodes are pending. -/
theorem pending {ids : List NodeId} (h : Woken components solver ids next) (hid : id ∈ ids) :
    next.Pending components id := by
  by_cases hcurrent : components.indexOf id = solver.current
  · exact .inl (h.mem_queue.mpr (.inr ⟨hid, hcurrent⟩))
  · exact .inr (h.mem_waiting.mpr (.inr ⟨id, hid, rfl, hcurrent⟩))

end Solver.Woken

/-! ### Processing a node -/

variable [DecidableEq φ] {solver next : Solver φ}

/-- Only successors change. -/
theorem mem_successors_of_changed {old new : List φ}
    (h : target ∈ changedSuccessors cfg id old new) : target ∈ cfg.successors id := by
  obtain ⟨⟨successor, index⟩, hmem, hsome⟩ := mem_filterMap.mp h
  dsimp only at hsome
  split at hsome
  · cases hsome
  · cases hsome
    exact mem_of_getElem? (mem_zipIdx_iff_getElem?.mp hmem)

/-- A successor is woken if the fact on an edge to it changes. -/
theorem changed_of_onEdge?_ne {label : Label} (input : φ)
    (hchanged : (facts.record id input outputs).onEdge? cfg ⟨id, target, label⟩ ≠
      facts.onEdge? cfg ⟨id, target, label⟩) :
    target ∈ changedSuccessors cfg id (facts.outputsOf id) outputs := by
  rw [ForwardFacts.onEdge?_eq_bind, ForwardFacts.onEdge?_eq_bind, ForwardFacts.outputsOf_record,
    if_pos rfl] at hchanged
  cases hposition : (cfg.outgoing id).idxOf? (target, label) with
  | none => simp [hposition] at hchanged
  | some index =>
    obtain ⟨hlt, hlink, -⟩ := idxOf?_eq_some_iff.mp hposition
    simp only [hposition, Option.bind_some] at hchanged
    refine mem_filterMap.mpr ⟨(target, index), ?_, if_neg (Ne.symm hchanged)⟩
    rw [mem_zipIdx_iff_getElem?, Graph.successors, getElem?_map,
      getElem?_eq_getElem hlt, hlink]
    rfl

/-- Processing the first node of the queue records its facts, and wakes the successors behind
changed edges. -/
structure Solver.Processed (analysis : ForwardAnalysis φ) (cfg : FlowGraph) (solver : Solver φ)
    (id : NodeId) (outputs : List φ) (next : Solver φ) : Prop where
  outputs_eq : analysis.outputsAt cfg id (analysis.inputAt cfg solver.facts id) = .ok outputs
  facts : next.facts = solver.facts.record id (analysis.inputAt cfg solver.facts id) outputs
  woken : ∀ {other}, other ∈ changedSuccessors cfg id (solver.facts.outputsOf id) outputs →
    next.Pending cfg.components other
  kept : ∀ {other}, other ≠ id → solver.Pending cfg.components other →
    next.Pending cfg.components other
  queued : ∀ {other}, other ∈ next.queue → other ∈ solver.queue ∨ other ∈ cfg.successors id
  waits : ∀ {index}, index ∈ next.waiting → index ∈ solver.waiting ∨
    ∃ other ∈ cfg.successors id, cfg.components.indexOf other = index

/-- A turn that succeeds is processed. -/
theorem processed_of_process {rest : List NodeId} (hqueue : solver.queue = id :: rest)
    (h : analysis.process cfg.components { solver with queue := rest } id = .ok next) :
    ∃ outputs, solver.Processed analysis cfg id outputs next := by
  unfold process at h
  dsimp only at h
  split at h
  · cases h
  next outputs houtputs =>
  cases h
  have hwoken := Solver.Woken.foldl cfg.components
    (changedSuccessors cfg id (solver.facts.outputsOf id) outputs)
    { solver with
      facts := solver.facts.record id (analysis.inputAt cfg solver.facts id) outputs
      queue := rest
      visits := id :: solver.visits }
  refine ⟨outputs, houtputs, hwoken.facts, hwoken.pending, ?_, ?_, ?_⟩
  · intro other hne hpending
    rcases hpending with hmem | hwaits
    · rw [hqueue] at hmem
      exact .inl (hwoken.mem_queue.mpr (.inl ((mem_cons.mp hmem).resolve_left hne)))
    · exact .inr (hwoken.mem_waiting.mpr (.inl hwaits))
  · intro other hother
    rcases hwoken.mem_queue.mp hother with hold | ⟨hnew, -⟩
    · rw [hqueue]
      exact .inl (mem_cons_of_mem _ hold)
    · exact .inr (mem_successors_of_changed hnew)
  · intro index hindex
    rcases hwoken.mem_waiting.mp hindex with hold | ⟨other, hother, hsame, -⟩
    · exact .inl hold
    · exact .inr ⟨other, mem_successors_of_changed hother, hsame⟩

namespace Solver.Processed

variable (h : Processed analysis cfg solver id outputs next)
include h

/-- An input stays, or an edge has changed and woken the node. -/
theorem inputAt_eq (other : NodeId) :
    analysis.inputAt cfg next.facts other = analysis.inputAt cfg solver.facts other ∨
      next.Pending cfg.components other := by
  by_cases hsame : ∀ link ∈ cfg.incoming other,
      next.facts.onEdge? cfg ⟨link.1, other, link.2⟩ =
        solver.facts.onEdge? cfg ⟨link.1, other, link.2⟩
  · exact .inl (inputAt_congr hsame)
  · push Not at hsame
    obtain ⟨⟨source, label⟩, -, hdiff⟩ := hsame
    rw [h.facts] at hdiff
    by_cases hsource : id = source
    · subst hsource
      exact .inr (h.woken (changed_of_onEdge?_ne _ hdiff))
    · exact absurd (ForwardFacts.onEdge?_record_of_ne _ _ _ _ _ hsource) hdiff

/-- The first fact on an edge is a change, and wakes its target. -/
theorem woken_of_new (hcfg : cfg.Sound) (hnew : solver.facts.outputs[id]? = none)
    (htarget : target ∈ cfg.successors id) : next.Pending cfg.components target := by
  obtain ⟨label, hlabel⟩ := Graph.mem_successors.mp htarget
  have hnone : solver.facts.onEdge? cfg ⟨id, target, label⟩ = none := by
    rw [ForwardFacts.onEdge?_eq_bind, ForwardFacts.outputsOf_eq, hnew]
    simp
  have hlength : ((solver.facts.record id (analysis.inputAt cfg solver.facts id) outputs).outputsOf
      id).length = (cfg.outgoing id).length := by
    rw [ForwardFacts.outputsOf_record, if_pos rfl]
    exact length_of_outputsAt h.outputs_eq
  have hedge : cfg.hasEdge ⟨id, target, label⟩ = true := Graph.hasEdge_iff.mpr hlabel
  obtain ⟨fact, hfact⟩ := ForwardFacts.onEdge?_isSome hcfg hedge hlength
  exact h.woken (changed_of_onEdge?_ne _ (hfact.trans_ne (by simp [hnone])))

end Solver.Processed

/-! ### The invariant of the solver -/

/-- A node has facts. -/
def Recorded (facts : ForwardFacts φ) (id : NodeId) : Prop :=
  ∃ input, facts.input? id = some input

/-- What holds between two rounds of the solver. -/
structure Solver.Working (analysis : ForwardAnalysis φ) (cfg : FlowGraph) (solver : Solver φ) :
    Prop where
  start : Recorded solver.facts cfg.start ∨ solver.Pending cfg.components cfg.start
  successors : ∀ id, Recorded solver.facts id → ∀ next ∈ cfg.successors id,
    Recorded solver.facts next ∨ solver.Pending cfg.components next
  settled : ∀ id input, solver.facts.input? id = some input →
    input = analysis.inputAt cfg solver.facts id ∨ solver.Pending cfg.components id
  outputs_eq : ∀ id input, solver.facts.input? id = some input → ∃ outputs,
    solver.facts.outputs[id]? = some outputs ∧ analysis.outputsAt cfg id input = .ok outputs
  recorded : ∀ id outputs, solver.facts.outputs[id]? = some outputs → Recorded solver.facts id
  reached : ∀ id, Recorded solver.facts id ∨ id ∈ solver.queue → cfg.Reaches cfg.start id
  waiting : ∀ index ∈ solver.waiting, ∃ id, cfg.Reaches cfg.start id ∧
    cfg.components.indexOf id = index

namespace Solver.Working

omit [DecidableEq φ] in
/-- The solver before its first turn. -/
theorem opening (analysis : ForwardAnalysis φ) (cfg : FlowGraph) :
    Working analysis cfg { waiting := {cfg.components.start} } where
  start := .inr (.inr (by simp [Components.start]; rfl))
  successors := by simp [Recorded, ForwardFacts.input?]
  settled := by simp [ForwardFacts.input?]
  outputs_eq := by simp [ForwardFacts.input?]
  recorded := by simp
  reached := by simp [Recorded, ForwardFacts.input?]
  waiting := by
    intro index hindex
    refine ⟨cfg.start, .refl _, ?_⟩
    simpa [Components.start, FlowGraph.components] using hindex

omit [DecidableEq φ] in
/-- Opening a component queues those that waited. -/
theorem turn (hcfg : cfg.Sound) (h : Working analysis cfg solver) (hqueue : solver.queue = [])
    {index : Nat} (hindex : index ∈ solver.waiting) :
    Working analysis cfg
      { solver with
        waiting := solver.waiting.erase index
        current := index
        queue := cfg.components.nodesOf index } := by
  obtain ⟨first, hfirst, hsame⟩ := h.waiting index hindex
  have hlive : ∀ {id}, cfg.Reaches cfg.start id → cfg.contains id :=
    fun hid => hid.contains hcfg.graph hcfg.start
  have hpending : ∀ {id}, cfg.Reaches cfg.start id → solver.Pending cfg.components id →
      Solver.Pending cfg.components
        { solver with
          waiting := solver.waiting.erase index
          current := index
          queue := cfg.components.nodesOf index } id := by
    intro id hid hpending
    rcases hpending with hmem | hwaits
    · simp [hqueue] at hmem
    · by_cases heq : cfg.components.indexOf id = index
      · have hmember := (hcfg.mem_nodesOf_iff (hlive hid)).mpr ⟨.refl id, .refl id⟩
        exact .inl (heq ▸ hmember)
      · exact .inr (by simp [Ne.symm heq, hwaits])
  refine ⟨?_, ?_, ?_, h.outputs_eq, h.recorded, ?_, ?_⟩
  · exact h.start.imp_right (hpending (.refl _))
  · intro id hid next hnext
    exact (h.successors id hid next hnext).imp_right
      (hpending ((h.reached id (.inl hid)).tail hnext))
  · intro id input hinput
    exact (h.settled id input hinput).imp_right (hpending (h.reached id (.inl ⟨input, hinput⟩)))
  · intro id hid
    rcases hid with hid | hid
    · exact h.reached id (.inl hid)
    · -- the nodes of a component can be reached from each other
      have hmember : id ∈ cfg.components.nodesOf (cfg.components.indexOf first) := hsame ▸ hid
      exact hfirst.trans ((hcfg.mem_nodesOf_iff (hlive hfirst)).mp hmember).1
  · intro other hother
    exact h.waiting other (Std.ExtTreeSet.mem_of_mem_erase hother)

/-- Processing settles a node, and wakes those that it unsettles. -/
theorem process (hcfg : cfg.Sound) (h : Working analysis cfg solver)
    (hprocessed : solver.Processed analysis cfg id outputs next)
    (hid : cfg.Reaches cfg.start id) : Working analysis cfg next := by
  have hrecorded : ∀ {other}, Recorded next.facts other ↔ other = id ∨
      Recorded solver.facts other := by
    intro other
    unfold Recorded
    rw [hprocessed.facts, ForwardFacts.input?_record]
    by_cases heq : id = other
    · simp [heq]
    · simp [heq, Ne.symm heq]
  refine ⟨?_, ?_, ?_, ?_, ?_, ?_, ?_⟩
  · by_cases heq : cfg.start = id
    · exact .inl (hrecorded.mpr (.inl heq))
    · exact h.start.imp (fun hstart => hrecorded.mpr (.inr hstart)) (hprocessed.kept heq)
  · intro other hother target htarget
    by_cases heq : target = id
    · exact .inl (hrecorded.mpr (.inl heq))
    by_cases hold : Recorded solver.facts other
    · exact (h.successors other hold target htarget).imp
        (fun hrec => hrecorded.mpr (.inr hrec)) (hprocessed.kept heq)
    · obtain rfl := (hrecorded.mp hother).resolve_right hold
      refine .inr (hprocessed.woken_of_new hcfg ?_ htarget)
      by_contra hsome
      obtain ⟨found, hfound⟩ := Option.ne_none_iff_exists'.mp hsome
      exact hold (h.recorded other found hfound)
  · intro other input hother
    rw [hprocessed.facts, ForwardFacts.input?_record] at hother
    by_cases heq : id = other
    · rw [if_pos heq] at hother
      refine (hprocessed.inputAt_eq other).imp_left fun hsame => ?_
      rw [hsame, ← heq]
      exact (Option.some.inj hother).symm
    · rw [if_neg heq] at hother
      rcases h.settled other input hother with hsettled | hpending
      · exact (hprocessed.inputAt_eq other).imp_left fun hsame => hsettled.trans hsame.symm
      · exact .inr (hprocessed.kept (Ne.symm heq) hpending)
  · intro other input hother
    rw [hprocessed.facts] at hother ⊢
    rw [ForwardFacts.input?_record] at hother
    rw [ForwardFacts.getElem?_outputs_record]
    by_cases heq : id = other
    · rw [if_pos heq] at hother ⊢
      cases hother
      exact ⟨outputs, rfl, heq ▸ hprocessed.outputs_eq⟩
    · rw [if_neg heq] at hother ⊢
      exact h.outputs_eq other input hother
  · intro other found hfound
    rw [hprocessed.facts, ForwardFacts.getElem?_outputs_record] at hfound
    rw [hrecorded]
    by_cases heq : id = other
    · exact .inl heq.symm
    · rw [if_neg heq] at hfound
      exact .inr (h.recorded other found hfound)
  · intro other hother
    rcases hother with hother | hother
    · rcases hrecorded.mp hother with heq | hold
      · exact heq ▸ hid
      · exact h.reached other (.inl hold)
    · rcases hprocessed.queued hother with hold | hnew
      · exact h.reached other (.inr hold)
      · exact hid.tail hnew
  · intro index hindex
    rcases hprocessed.waits hindex with hold | ⟨other, hother, hsame⟩
    · exact h.waiting index hold
    · exact ⟨other, hid.tail hother, hsame⟩

/-- Between two rounds the same holds as before the first one. -/
theorem solve (hcfg : cfg.Sound) {rounds : Nat} {solver final : Solver φ}
    (h : Working analysis cfg solver)
    (hsolve : analysis.solve cfg.components rounds solver = some (.ok final)) :
    Working analysis cfg final ∧ final.queue = [] ∧ final.waiting.toList = [] := by
  induction rounds generalizing solver with
  | zero => cases hsolve
  | succ rounds ih =>
    rw [ForwardAnalysis.solve] at hsolve
    split at hsolve
    · next id rest hqueue =>
      split at hsolve
      · cases hsolve
      · next next hnext =>
        obtain ⟨outputs, hprocessed⟩ := processed_of_process hqueue hnext
        exact ih (h.process hcfg hprocessed (h.reached id (.inr (by simp [hqueue])))) hsolve
    · next hqueue =>
      split at hsolve
      · next hwaiting =>
        obtain rfl := Except.ok.inj (Option.some.inj hsolve)
        exact ⟨h, hqueue, hwaiting⟩
      · next index others hwaiting =>
        have hindex : index ∈ solver.waiting :=
          Std.ExtTreeSet.mem_toList.mp (hwaiting ▸ mem_cons_self)
        exact ih (h.turn hcfg hqueue hindex) hsolve

omit [DecidableEq φ] in
/-- When nothing is left to do, the facts solve the equations. -/
theorem solves (hcfg : cfg.Sound) (h : Working analysis cfg solver) (hqueue : solver.queue = [])
    (hwaiting : solver.waiting.toList = []) : solver.facts.Solves analysis cfg := by
  have hnone : ∀ {id}, ¬ solver.Pending cfg.components id := by
    intro id hpending
    rcases hpending with hmem | hwaits
    · simp [hqueue] at hmem
    · have hmem := Std.ExtTreeSet.mem_toList.mpr hwaits
      simp [hwaiting] at hmem
  have hrecorded : ∀ {id}, cfg.Reaches cfg.start id → Recorded solver.facts id := by
    intro id hid
    refine hid.closed (S := Recorded solver.facts) (h.start.resolve_right hnone) ?_
    exact fun other hother next hnext => (h.successors other hother next hnext).resolve_right hnone
  refine solves_of_fixed hcfg (fun id input hinput => h.reached id (.inl ⟨input, hinput⟩))
    (fun id outputs houtputs => h.reached id (.inl (h.recorded id outputs houtputs))) fun id hid =>
    ?_
  obtain ⟨input, hinput⟩ := hrecorded hid
  obtain rfl := (h.settled id input hinput).resolve_right hnone
  exact ⟨hinput, h.outputs_eq id _ hinput⟩

end Solver.Working

/-- Whatever a forward analysis returns solves its equations. Nothing is assumed of the analysis. -/
theorem facts_solve (hcfg : cfg.Assembled) {rounds : Nat}
    (h : analysis.facts? cfg rounds = some (.ok facts)) : facts.Solves analysis cfg := by
  obtain ⟨outcome, hrun, houtcome⟩ := Option.map_eq_some_iff.mp h
  cases outcome with
  | error breach => cases houtcome
  | ok final =>
    cases houtcome
    have hsound := hcfg.sound
    obtain ⟨hworking, hqueue, hwaiting⟩ := (Solver.Working.opening analysis cfg).solve hsound hrun
    exact hworking.solves hsound hqueue hwaiting

/-- A loop over a condition both of whose ways lead to one node, and a node out of reach that leads
into the loop. -/
def forked : FlowGraph :=
  .ofNodes .dummy [.branch (.temp "x") .dummy, .assign "x" (.temp "y") .dummy,
      .assign "y" (.const 0) .dummy]
    [⟨0, 1, none⟩, ⟨1, 2, some true⟩, ⟨1, 2, some false⟩, ⟨2, 1, none⟩, ⟨3, 2, none⟩]

/-- The fork is assembled. -/
theorem assembled_forked : forked.Assembled := .ofNodes ..

/-- The statements passed, up to three; the false way forgets them. The meet is no meet: it forgets
its left side if that is one. -/
def passed : ForwardAnalysis Nat where
  top := 0
  meet := fun first second => if first = 1 then second else max first second
  statement := fun _ count => min 3 (count + 1)
  branch := fun _ count => (count, 0)

/-- The head of the loop settles at one, and the node out of reach has no facts. -/
theorem facts_solve_forked : ∃ facts, passed.facts? forked 30 = some (.ok facts) ∧
    facts.input? 1 = some 1 ∧ facts.input? 3 = none ∧ facts.Solves passed forked := by
  obtain ⟨facts, hrun, hhead, hstray⟩ : ∃ facts, passed.facts? forked 30 = some (.ok facts) ∧
      facts.input? 1 = some 1 ∧ facts.input? 3 = none := by
    apply FlowGraph.exists_some_ok_of_any
    decide +kernel
  exact ⟨facts, hrun, hhead, hstray, facts_solve assembled_forked hrun⟩

end ForwardAnalysis

end Flowgraph

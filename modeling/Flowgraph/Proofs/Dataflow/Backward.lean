import Flowgraph.Dataflow.Backward
import Flowgraph.Proofs.Dataflow.Lattice
import Flowgraph.Proofs.Flow.Assembled
import Flowgraph.Proofs.Flow.Component

/-!
# What a backward analysis keeps

`BackwardFacts.Solves` states the equations, over all live nodes. `BackwardAnalysis.Solver.Working`
is the invariant of the solver: a live node is queued, or its facts are what processing it would
record. So whatever the solver returns is a solution (`BackwardAnalysis.solves_of_facts`).
-/

namespace Flowgraph

open List

variable {φ : Type}

/-- The facts solve the equations of an analysis. Exactly the live nodes have facts. The fact at the
exit of a node is the meet from left to right of the facts at the entries of its successors, and the
fact at its entry is what the transfer function makes of that. -/
structure BackwardFacts.Solves (facts : BackwardFacts φ) (analysis : BackwardAnalysis φ)
    (cfg : FlowGraph) : Prop where
  input_isSome : ∀ id, (facts.input? id).isSome ↔ cfg.contains id
  output_isSome : ∀ id, (facts.output? id).isSome ↔ cfg.contains id
  output_eq : ∀ id, cfg.contains id → ∃ leaving : List φ,
    (cfg.successors id).map facts.input? = leaving.map some ∧
    facts.output? id = some (meetAll analysis.top analysis.meet leaving)
  input_eq : ∀ id output, facts.output? id = some output → ∃ node input,
    cfg.node? id = some node ∧ analysis.transfer id node output = .ok input ∧
    facts.input? id = some input

namespace BackwardFacts

variable (facts : BackwardFacts φ) (id : NodeId) (input output : φ)

/-- Record the facts of a node. -/
def record : BackwardFacts φ :=
  ⟨facts.inputs.insert id input, facts.outputs.insert id output⟩

/-- Recording sets one input. -/
theorem input?_record (other : NodeId) : (facts.record id input output).input? other =
    if id = other then some input else facts.input? other := by
  simp [record, input?, Std.ExtTreeMap.getElem?_insert]

/-- Recording sets one output. -/
theorem output?_record (other : NodeId) : (facts.record id input output).output? other =
    if id = other then some output else facts.output? other := by
  simp [record, output?, Std.ExtTreeMap.getElem?_insert]

variable {facts id input}

/-- Recording the input that is there already changes no input. -/
theorem input?_record_of_eq (h : facts.input? id = some input) (other : NodeId) :
    (facts.record id input output).input? other = facts.input? other := by
  rw [input?_record]
  by_cases heq : id = other
  · rw [if_pos heq, ← heq, h]
  · rw [if_neg heq]

/-- Facts are what is looked up. -/
theorem ext_get? {facts' : BackwardFacts φ} (hinput : ∀ id, facts.input? id = facts'.input? id)
    (houtput : ∀ id, facts.output? id = facts'.output? id) : facts = facts' := by
  obtain ⟨inputs, outputs⟩ := facts
  obtain ⟨inputs', outputs'⟩ := facts'
  congr
  · exact Std.ExtTreeMap.ext_getElem? hinput
  · exact Std.ExtTreeMap.ext_getElem? houtput

end BackwardFacts

namespace BackwardAnalysis

variable {analysis : BackwardAnalysis φ} {cfg : FlowGraph} {facts facts' : BackwardFacts φ}
  {id other : NodeId} {input output : φ}

/-- Only the inputs of its successors decide the fact at a node's exit. -/
theorem outputAt_congr (h : ∀ next ∈ cfg.successors id, facts'.input? next = facts.input? next) :
    analysis.outputAt cfg facts' id = analysis.outputAt cfg facts id := by
  unfold outputAt BackwardFacts.leaving
  rw [filterMap_congr h]

/-- Processing a node would not change its facts. -/
def Settled (analysis : BackwardAnalysis φ) (cfg : FlowGraph) (facts : BackwardFacts φ)
    (id : NodeId) : Prop :=
  facts.output? id = some (analysis.outputAt cfg facts id) ∧
    ∃ input, facts.input? id = some input ∧
      analysis.inputAt cfg id (analysis.outputAt cfg facts id) = .ok input

/-- Facts that processing would not change solve the equations. -/
theorem solves_of_settled (hcfg : cfg.Sound)
    (hinputs : ∀ id input, facts.input? id = some input → cfg.contains id)
    (houtputs : ∀ id output, facts.output? id = some output → cfg.contains id)
    (hsettled : ∀ id, cfg.contains id → Settled analysis cfg facts id) :
    facts.Solves analysis cfg := by
  refine ⟨fun id => ?_, fun id => ?_, fun id hid => ?_, fun id output houtput => ?_⟩
  · rw [Option.isSome_iff_exists]
    refine ⟨fun ⟨input, hinput⟩ => hinputs id input hinput, fun hid => ?_⟩
    obtain ⟨-, input, hinput, -⟩ := hsettled id hid
    exact ⟨input, hinput⟩
  · rw [Option.isSome_iff_exists]
    exact ⟨fun ⟨output, houtput⟩ => houtputs id output houtput,
      fun hid => ⟨_, (hsettled id hid).1⟩⟩
  · refine ⟨facts.leaving cfg id, ?_, (hsettled id hid).1⟩
    -- every successor is live and has an input, so none is left out
    have hall : ∀ next ∈ cfg.successors id, true = (facts.input? next).isSome := by
      intro next hnext
      obtain ⟨-, input, hinput, -⟩ := hsettled next (hcfg.graph.contains_successor hnext)
      rw [hinput, Option.isSome_some]
    rw [BackwardFacts.leaving, ← map_filter_eq hall, filter_true]
  · have hid := houtputs id output houtput
    obtain ⟨hrecord, input, hinput, htransfer⟩ := hsettled id hid
    obtain rfl := Option.some.inj (hrecord.symm.trans houtput)
    unfold inputAt at htransfer
    split at htransfer
    · next hdead =>
      simp [Graph.not_contains_of_payload? hdead] at hid
    · next node hnode => exact ⟨node, input, hnode, htransfer, hinput⟩

/-! ### Processing a node -/

/-- Waking queues one node. -/
theorem mem_queue_wake {solver : Solver φ} :
    other ∈ (solver.wake id).queue ↔ other ∈ solver.queue ∨ other = id := by
  by_cases hqueued : id ∈ solver.queue
  · have hwake : solver.wake id = solver := by simp [Solver.wake, hqueued]
    rw [hwake]
    exact ⟨.inl, fun h => h.elim (fun hother => hother) (fun heq => heq ▸ hqueued)⟩
  · have hwake : solver.wake id = { solver with queue := solver.queue ++ [id] } := by
      simp [Solver.wake, hqueued]
    rw [hwake, mem_append, mem_singleton]

/-- Waking queues the nodes listed. -/
theorem wake_foldl (ids : List NodeId) (solver : Solver φ) :
    (ids.foldl Solver.wake solver).facts = solver.facts ∧
      ∀ {other}, other ∈ (ids.foldl Solver.wake solver).queue ↔ other ∈ solver.queue ∨
        other ∈ ids := by
  induction ids generalizing solver with
  | nil => simp
  | cons id rest ih =>
    obtain ⟨hfacts, hqueue⟩ := ih (solver.wake id)
    have hwake : (solver.wake id).facts = solver.facts := by
      unfold Solver.wake
      split <;> rfl
    refine ⟨hfacts.trans hwake, fun {other} => ?_⟩
    rw [foldl_cons, hqueue, mem_queue_wake, mem_cons, or_assoc]

variable [DecidableEq φ] {solver next : Solver φ}

/-- Processing the first node of the queue records its facts, and queues its predecessors if its
input changes. -/
structure Solver.Processed (analysis : BackwardAnalysis φ) (cfg : FlowGraph) (solver : Solver φ)
    (id : NodeId) (rest : List NodeId) (input : φ) (next : Solver φ) : Prop where
  input_eq : analysis.inputAt cfg id (analysis.outputAt cfg solver.facts id) = .ok input
  facts : next.facts = solver.facts.record id input (analysis.outputAt cfg solver.facts id)
  same : solver.facts.input? id = some input → next.queue = rest
  changed : solver.facts.input? id ≠ some input → ∀ {other}, other ∈ next.queue ↔
    other ∈ rest ∨ other ∈ cfg.predecessors id

/-- A turn that succeeds is processed. -/
theorem processed_of_process {rest : List NodeId}
    (h : analysis.process cfg { solver with queue := rest } id = .ok next) :
    ∃ input, solver.Processed analysis cfg id rest input next := by
  unfold process at h
  dsimp only at h
  split at h
  · cases h
  next input hinput =>
  split at h
  · next hsame =>
    cases h
    refine ⟨input, hinput, ?_, fun _ => rfl, fun hne => absurd hsame hne⟩
    refine BackwardFacts.ext_get? (fun other => ?_) fun other => rfl
    exact (BackwardFacts.input?_record_of_eq _ hsame other).symm
  · next hchanged =>
    cases h
    obtain ⟨hfacts, hqueue⟩ := wake_foldl (cfg.predecessors id)
      { solver with
        facts := solver.facts.record id input (analysis.outputAt cfg solver.facts id)
        queue := rest
        visits := id :: solver.visits }
    exact ⟨input, hinput, hfacts, fun hsame => absurd hsame hchanged, fun _ => hqueue⟩

namespace Solver.Processed

variable {rest : List NodeId} (h : Processed analysis cfg solver id rest input next)
include h

/-- What was queued stays queued. -/
theorem mem_queue_of_mem_rest (hother : other ∈ rest) : other ∈ next.queue := by
  by_cases hsame : solver.facts.input? id = some input
  · rw [h.same hsame]
    exact hother
  · exact (h.changed hsame).mpr (.inl hother)

/-- Only predecessors are woken. -/
theorem mem_rest_or_predecessors (hother : other ∈ next.queue) :
    other ∈ rest ∨ other ∈ cfg.predecessors id := by
  by_cases hsame : solver.facts.input? id = some input
  · rw [h.same hsame] at hother
    exact .inl hother
  · exact (h.changed hsame).mp hother

/-- The fact due at an exit stays, or an input behind it has changed and the node is queued. -/
theorem outputAt_eq (hcfg : cfg.Sound) (other : NodeId) :
    other ∈ next.queue ∨
      analysis.outputAt cfg next.facts other = analysis.outputAt cfg solver.facts other := by
  by_cases hsame : solver.facts.input? id = some input
  · refine .inr (outputAt_congr fun key _ => ?_)
    rw [h.facts, BackwardFacts.input?_record_of_eq _ hsame]
  · by_cases hedge : id ∈ cfg.successors other
    · exact .inl ((h.changed hsame).mpr (.inr (hcfg.graph.mem_predecessors_iff.mpr hedge)))
    · refine .inr (outputAt_congr fun key hkey => ?_)
      have hne : id ≠ key := fun heq => hedge (heq ▸ hkey)
      rw [h.facts, BackwardFacts.input?_record, if_neg hne]

end Solver.Processed

/-! ### The invariant of the solver -/

/-- What holds between two rounds of the solver. -/
structure Solver.Working (analysis : BackwardAnalysis φ) (cfg : FlowGraph) (solver : Solver φ) :
    Prop where
  settled : ∀ id, cfg.contains id → id ∈ solver.queue ∨ Settled analysis cfg solver.facts id
  queue : ∀ id ∈ solver.queue, cfg.contains id
  inputs : ∀ id input, solver.facts.input? id = some input → cfg.contains id
  outputs : ∀ id output, solver.facts.output? id = some output → cfg.contains id

namespace Solver.Working

omit [DecidableEq φ] in
/-- The solver before its first turn. -/
theorem opening (hcfg : cfg.Sound) (analysis : BackwardAnalysis φ) :
    Working analysis cfg { queue := cfg.postorder } where
  settled id hid := .inl (hcfg.mem_postorder.mpr hid)
  queue id hid := hcfg.mem_postorder.mp hid
  inputs := by simp [BackwardFacts.input?]
  outputs := by simp [BackwardFacts.output?]

/-- Processing settles a node, and queues those that it unsettles. -/
theorem process (hcfg : cfg.Sound) (h : Working analysis cfg solver) {rest : List NodeId}
    (hqueue : solver.queue = id :: rest)
    (hprocessed : solver.Processed analysis cfg id rest input next) :
    Working analysis cfg next := by
  have hid : cfg.contains id := h.queue id (by simp [hqueue])
  refine ⟨fun other hother => ?_, fun other hother => ?_, fun other found hfound => ?_,
    fun other found hfound => ?_⟩
  · rcases hprocessed.outputAt_eq hcfg other with hqueued | hsame
    · exact .inl hqueued
    by_cases heq : id = other
    · -- the facts that were just recorded are still due
      subst heq
      refine .inr ⟨?_, input, ?_, ?_⟩
      · rw [hsame, hprocessed.facts, BackwardFacts.output?_record, if_pos rfl]
      · rw [hprocessed.facts, BackwardFacts.input?_record, if_pos rfl]
      · rw [hsame]
        exact hprocessed.input_eq
    · rcases h.settled other hother with hold | ⟨houtput, found, hfound, hdue⟩
      · rw [hqueue, mem_cons] at hold
        exact .inl (hprocessed.mem_queue_of_mem_rest (hold.resolve_left (Ne.symm heq)))
      · refine .inr ⟨?_, found, ?_, ?_⟩
        · rw [hsame, hprocessed.facts, BackwardFacts.output?_record, if_neg heq]
          exact houtput
        · rw [hprocessed.facts, BackwardFacts.input?_record, if_neg heq]
          exact hfound
        · rw [hsame]
          exact hdue
  · rcases hprocessed.mem_rest_or_predecessors hother with hrest | hpred
    · exact h.queue other (by simp [hqueue, hrest])
    · obtain ⟨label, hlabel⟩ := Graph.mem_successors.mp (hcfg.graph.mem_predecessors_iff.mp hpred)
      exact hcfg.graph.contains_source (hcfg.graph.mirrored.mp hlabel)
  · rw [hprocessed.facts, BackwardFacts.input?_record] at hfound
    by_cases heq : id = other
    · exact heq ▸ hid
    · rw [if_neg heq] at hfound
      exact h.inputs other found hfound
  · rw [hprocessed.facts, BackwardFacts.output?_record] at hfound
    by_cases heq : id = other
    · exact heq ▸ hid
    · rw [if_neg heq] at hfound
      exact h.outputs other found hfound

/-- Between two rounds the same holds as before the first one. -/
theorem solve (hcfg : cfg.Sound) {rounds : Nat} {solver final : Solver φ}
    (h : Working analysis cfg solver)
    (hsolve : analysis.solve cfg rounds solver = some (.ok final)) :
    Working analysis cfg final ∧ final.queue = [] := by
  induction rounds generalizing solver with
  | zero => cases hsolve
  | succ rounds ih =>
    rw [BackwardAnalysis.solve] at hsolve
    split at hsolve
    · next hqueue =>
      obtain rfl := Except.ok.inj (Option.some.inj hsolve)
      exact ⟨h, hqueue⟩
    · next id rest hqueue =>
      split at hsolve
      · cases hsolve
      · next next hnext =>
        obtain ⟨input, hprocessed⟩ := processed_of_process hnext
        exact ih (h.process hcfg hqueue hprocessed) hsolve

omit [DecidableEq φ] in
/-- When the queue is empty, the facts solve the equations. -/
theorem solves (hcfg : cfg.Sound) (h : Working analysis cfg solver) (hqueue : solver.queue = []) :
    solver.facts.Solves analysis cfg := by
  refine solves_of_settled hcfg h.inputs h.outputs fun id hid => ?_
  exact (h.settled id hid).resolve_left (by simp [hqueue])

end Solver.Working

omit [DecidableEq φ] in
/-- The children of a block act from the last to the first. -/
theorem transfer_block {children : List Node} {span : Span}
    (h : analysis.transfer id (.block children span) output = .ok input) :
    input = children.reverse.foldl (fun fact child => analysis.statement child fact) output := by
  unfold transfer at h
  dsimp only at h
  split at h
  · cases h
  · rw [foldl_reverse]
    exact (Except.ok.inj h).symm

/-- Whatever a backward analysis returns solves its equations. Nothing is assumed of the analysis.
-/
theorem solves_of_facts (hcfg : cfg.Assembled) {rounds : Nat}
    (h : analysis.facts? cfg rounds = some (.ok facts)) :
    facts.Solves analysis cfg ∧
      ∀ id children span output, cfg.node? id = some (.block children span) →
        facts.output? id = some output →
        facts.input? id =
          some (children.reverse.foldl (fun fact child => analysis.statement child fact)
            output) := by
  obtain ⟨outcome, hrun, houtcome⟩ := Option.map_eq_some_iff.mp h
  cases outcome with
  | error breach => cases houtcome
  | ok final =>
    cases houtcome
    have hsound := hcfg.sound
    obtain ⟨hworking, hqueue⟩ := (Solver.Working.opening hsound analysis).solve hsound hrun
    have hsolves := hworking.solves hsound hqueue
    refine ⟨hsolves, fun id children span output hblock houtput => ?_⟩
    obtain ⟨node, input, hnode, htransfer, hinput⟩ := hsolves.input_eq id output houtput
    obtain rfl := Option.some.inj (hblock.symm.trans hnode)
    rw [hinput, transfer_block htransfer]

/-- A block that leads to itself and back to a condition, both of whose ways lead to the block, and
a circle out of reach. -/
def circling : FlowGraph :=
  .ofNodes .dummy [.branch (.temp "x") .dummy,
      .block [.assign "x" (.temp "y") .dummy, .assign "y" (.const 0) .dummy] .dummy,
      .assign "y" (.const 0) .dummy, .assign "x" (.const 1) .dummy]
    [⟨0, 1, none⟩, ⟨1, 2, some true⟩, ⟨1, 2, some false⟩, ⟨2, 2, none⟩, ⟨2, 1, none⟩, ⟨3, 4, none⟩,
      ⟨4, 3, none⟩, ⟨4, 1, none⟩]

/-- The loop is assembled. -/
theorem assembled_circling : circling.Assembled := .ofNodes ..

/-- The variables assigned next, up to three. The meet is no meet: it forgets its left side if only
`y` is assigned there. -/
def upcoming : BackwardAnalysis (List String) where
  top := []
  meet := fun first second => if first = ["y"] then second else (first ++ second).take 3
  statement := fun node fact =>
    match node with
    | .assign target _ _ => (target :: fact).take 3
    | _ => fact
  branch := fun _ fact => fact

/-- The block assigns `x` before `y`, and the circle out of reach has facts too. -/
theorem solves_of_facts_circling : ∃ facts, upcoming.facts? circling 40 = some (.ok facts) ∧
    facts.input? 2 = some ["x", "y", "x"] ∧ facts.output? 4 = some ["y", "x", "y"] ∧
    facts.Solves upcoming circling := by
  obtain ⟨facts, hrun, hinput, houtput⟩ : ∃ facts, upcoming.facts? circling 40 = some (.ok facts) ∧
      facts.input? 2 = some ["x", "y", "x"] ∧ facts.output? 4 = some ["y", "x", "y"] := by
    apply FlowGraph.exists_some_ok_of_any
    decide +kernel
  exact ⟨facts, hrun, hinput, houtput, (solves_of_facts assembled_circling hrun).1⟩

end BackwardAnalysis

end Flowgraph

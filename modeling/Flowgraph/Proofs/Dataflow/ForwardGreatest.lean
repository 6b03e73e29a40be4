import Flowgraph.Proofs.Dataflow.Forward
import Mathlib.Data.Finite.Sigma
import Mathlib.Data.Finite.Sum

/-!
# A forward analysis finds the greatest solution

For facts with a lawful meet and without infinite descent, and monotone transfer functions, the
solver ends with the greatest solution, and so does every fair iteration that processes node after
node (`ForwardAnalysis.facts_greatest`). A record lowers facts and keeps them above all solutions
(`ForwardFacts.Sinking.record`).
-/

namespace Flowgraph

open List

variable {φ : Type} {analysis : ForwardAnalysis φ} {cfg : FlowGraph}
  {facts facts' other : ForwardFacts φ} {id : NodeId} {input : φ} {outputs : List φ}

/-- A transfer function gives a fact for each outgoing edge of a node. -/
def Node.FitsForward (degree : Nat) : Node → Prop
  | .phi _ _ | .stub _ => False
  | .branch _ _ => degree = 2
  | .ret _ => degree = 0
  | .block children _ => ∀ child ∈ children, child.kind.isStatement
  | .start _ | .assign _ _ _ | .store _ _ _ | .call _ _ _ _ | .spin _ => True

instance (degree : Nat) : (node : Node) → Decidable (node.FitsForward degree)
  | .phi _ _ | .stub _ => inferInstanceAs (Decidable False)
  | .branch _ _ => inferInstanceAs (Decidable (degree = 2))
  | .ret _ => inferInstanceAs (Decidable (degree = 0))
  | .block children _ =>
    inferInstanceAs (Decidable (∀ child ∈ children, child.kind.isStatement))
  | .start _ | .assign _ _ _ | .store _ _ _ | .call _ _ _ _ | .spin _ =>
    inferInstanceAs (Decidable True)

/-- The transfer functions of all reached nodes fit their edges. -/
def FlowGraph.FitsForward (cfg : FlowGraph) : Prop :=
  ∀ id node, cfg.Reaches cfg.start id → cfg.node? id = some node →
    node.FitsForward (cfg.outgoing id).length

/-- A lawful meet, and transfer functions that keep the order. -/
structure ForwardAnalysis.Lawful (analysis : ForwardAnalysis φ) : Prop where
  meet : MeetLaws analysis.top analysis.meet
  statement : ∀ node, KeepsOrder analysis.meet (analysis.statement node)
  onTrue : ∀ node, KeepsOrder analysis.meet fun fact => (analysis.branch node fact).1
  onFalse : ∀ node, KeepsOrder analysis.meet fun fact => (analysis.branch node fact).2
  start : ∀ node, KeepsOrder analysis.meet (analysis.start node)
  spin : ∀ node, KeepsOrder analysis.meet (analysis.spin node)

/-- Facts are at most others, at the entries of nodes and on edges. -/
structure ForwardFacts.LowerThan (analysis : ForwardAnalysis φ) (cfg : FlowGraph)
    (facts facts' : ForwardFacts φ) : Prop where
  input : ∀ id, Lower analysis.meet (facts.input? id) (facts'.input? id)
  onEdge : ∀ edge, Lower analysis.meet (facts.onEdge? cfg edge) (facts'.onEdge? cfg edge)

namespace ForwardAnalysis

variable {x y : φ} {xs ys : List φ}

/-! ### Transfer functions -/

/-- A node that control reaches has an output for each edge. -/
theorem exists_outputsAt (hcfg : cfg.Sound) (hfits : cfg.FitsForward)
    (hid : cfg.Reaches cfg.start id) (input : φ) :
    ∃ outputs, analysis.outputsAt cfg id input = .ok outputs := by
  have hlive : (cfg.payload? id).isSome := by
    rw [Graph.payload?_isSome]
    exact hid.contains hcfg.graph hcfg.start
  obtain ⟨node, hnode⟩ := Option.isSome_iff_exists.mp hlive
  have hnode : cfg.node? id = some node := hnode
  have hfit := hfits id node hid hnode
  unfold outputsAt
  rw [hnode]
  cases node with
  | phi _ _ => exact hfit.elim
  | stub _ => exact hfit.elim
  | block children _ => simp [transfer, Node.checkStatements_eq_ok hfit]
  | branch _ _ =>
    have hfit : (cfg.outgoing id).length = 2 := hfit
    simp [transfer, hfit]
  | ret _ =>
    have hfit : (cfg.outgoing id).length = 0 := hfit
    simp [transfer, hfit]
  | _ => simp [transfer]

/-- Copies of facts keep the order. -/
theorem forall₂_replicate (degree : Nat) (hbelow : Below analysis.meet x y) :
    Forall₂ (Below analysis.meet) (List.replicate degree x) (List.replicate degree y) := by
  induction degree with
  | zero => exact .nil
  | succ degree ih => exact .cons hbelow ih

namespace Lawful

variable (h : analysis.Lawful)
include h

/-- Statements keep the order. -/
theorem statements (children : List Node) (hbelow : Below analysis.meet x y) :
    Below analysis.meet (children.foldl (fun fact child => analysis.statement child fact) x)
      (children.foldl (fun fact child => analysis.statement child fact) y) := by
  induction children generalizing x y with
  | nil => exact hbelow
  | cons child rest ih => exact ih (h.statement child hbelow)

/-- Transfers keep the order. -/
theorem transfer {degree : Nat} {node : Node} (hbelow : Below analysis.meet x y)
    (hx : analysis.transfer id degree node x = .ok xs)
    (hy : analysis.transfer id degree node y = .ok ys) :
    Forall₂ (Below analysis.meet) xs ys := by
  cases node with
  | phi _ _ => cases hx
  | stub _ => cases hx
  | start _ =>
    cases hx
    cases hy
    exact forall₂_replicate degree (h.start _ hbelow)
  | ret _ =>
    cases hx
    cases hy
    exact .nil
  | branch _ _ =>
    cases hx
    cases hy
    exact .cons (h.onTrue _ hbelow) (.cons (h.onFalse _ hbelow) .nil)
  | spin _ =>
    cases hx
    cases hy
    exact forall₂_replicate degree (h.spin _ hbelow)
  | block children _ =>
    unfold ForwardAnalysis.transfer at hx hy
    dsimp only at hx hy
    split at hx
    · cases hx
    · next hcheck =>
      rw [hcheck] at hy
      cases hx
      cases hy
      exact forall₂_replicate degree (h.statements children hbelow)
  | _ =>
    cases hx
    cases hy
    exact forall₂_replicate degree (h.statement _ hbelow)

/-- The outputs of a node keep the order of its input. -/
theorem outputsAt (hbelow : Below analysis.meet x y)
    (hx : analysis.outputsAt cfg id x = .ok xs) (hy : analysis.outputsAt cfg id y = .ok ys) :
    Forall₂ (Below analysis.meet) xs ys := by
  rcases outputsAt_eq_ok hx with ⟨hnone, rfl⟩ | ⟨node, hnode, hx, -⟩
  · rcases outputsAt_eq_ok hy with ⟨-, rfl⟩ | ⟨node, hnode, -⟩
    · exact .nil
    · rw [hnone] at hnode
      cases hnode
  · rcases outputsAt_eq_ok hy with ⟨hnone, -⟩ | ⟨other, hother, hy, -⟩
    · rw [hnone] at hnode
      cases hnode
    · obtain rfl := Option.some.inj (hnode.symm.trans hother)
      exact h.transfer hbelow hx hy

/-- The input of a node keeps the order of facts. -/
theorem inputAt (hlower : facts.LowerThan analysis cfg facts') (id : NodeId) :
    Below analysis.meet (analysis.inputAt cfg facts id) (analysis.inputAt cfg facts' id) :=
  h.meet.below_meetAll_filterMap fun link _ => hlower.onEdge ⟨link.1, id, link.2⟩

end Lawful

end ForwardAnalysis

namespace ForwardFacts.LowerThan

/-- The order of outputs is that on edges. -/
theorem onEdge_of_outputsOf {edge : Edge}
    (h : Forall₂ (Below analysis.meet) (facts.outputsOf edge.source)
      (facts'.outputsOf edge.source)) :
    Lower analysis.meet (facts.onEdge? cfg edge) (facts'.onEdge? cfg edge) := by
  rw [onEdge?_eq_bind, onEdge?_eq_bind]
  cases (cfg.outgoing edge.source).idxOf? (edge.target, edge.label) with
  | none => trivial
  | some index => exact MeetLaws.lower_getElem? h index

/-- Recording lower facts at a node lowers the facts. -/
theorem record_left (laws : MeetLaws analysis.top analysis.meet)
    (hinput : Lower analysis.meet (some input) (facts.input? id))
    (houtputs : ∀ old, facts.outputs[id]? = some old →
      Forall₂ (Below analysis.meet) outputs old) :
    (facts.record id input outputs).LowerThan analysis cfg facts := by
  refine ⟨fun other => ?_, fun edge => ?_⟩
  · rw [input?_record]
    by_cases heq : id = other
    · rw [if_pos heq]
      exact heq ▸ hinput
    · rw [if_neg heq]
      exact laws.lower_refl _
  · by_cases heq : id = edge.source
    · cases hold : facts.outputs[id]? with
      | none =>
        have hgap : facts.onEdge? cfg edge = none := by
          rw [onEdge?_eq_bind, outputsOf_eq, ← heq, hold]
          simp
        rw [hgap]
        trivial
      | some old =>
        refine onEdge_of_outputsOf ?_
        rw [outputsOf_record, if_pos heq, outputsOf_eq, ← heq, hold]
        exact houtputs old hold
    · rw [onEdge?_record_of_ne _ _ _ _ _ heq]
      exact laws.lower_refl _

/-- Facts stay below those with higher facts recorded at a node. -/
theorem record_right (h : other.LowerThan analysis cfg facts)
    (hinput : Lower analysis.meet (other.input? id) (some input))
    (houtputs : Forall₂ (Below analysis.meet) (other.outputsOf id) outputs) :
    other.LowerThan analysis cfg (facts.record id input outputs) := by
  refine ⟨fun key => ?_, fun edge => ?_⟩
  · rw [input?_record]
    by_cases heq : id = key
    · rw [if_pos heq]
      exact heq ▸ hinput
    · rw [if_neg heq]
      exact h.input key
  · by_cases heq : id = edge.source
    · refine onEdge_of_outputsOf ?_
      rw [outputsOf_record, if_pos heq]
      exact heq ▸ houtputs
    · rw [onEdge?_record_of_ne _ _ _ _ _ heq]
      exact h.onEdge edge

end ForwardFacts.LowerThan

namespace ForwardFacts.Solves

/-- A solution has an output for each edge of a reached node. -/
theorem length_outputsOf (h : facts.Solves analysis cfg) (hid : cfg.Reaches cfg.start id) :
    (facts.outputsOf id).length = (cfg.outgoing id).length := by
  obtain ⟨input, hinput⟩ := Option.isSome_iff_exists.mp ((h.input_isSome id).mpr hid)
  obtain ⟨node, -, -, hlength⟩ := h.outputs_eq id input hinput
  exact hlength

/-- Unreached nodes have no outputs. -/
theorem outputs_eq_none (h : facts.Solves analysis cfg) (hid : ¬ cfg.Reaches cfg.start id) :
    facts.outputs[id]? = none := by
  by_contra hsome
  refine hid ((h.contains_outputs id).mp ?_)
  rw [← Std.ExtTreeMap.isSome_getElem?_eq_contains]
  exact Option.isSome_iff_ne_none.mpr hsome

variable (hcfg : cfg.Sound) (h : facts.Solves analysis cfg) (hid : cfg.Reaches cfg.start id)
include hcfg h hid

/-- Processing a node would not change the facts of a solution. -/
theorem input?_eq : facts.input? id = some (analysis.inputAt cfg facts id) := by
  obtain ⟨entering, hentering, hinput⟩ := h.input_eq id hid
  have hmap := ForwardAnalysis.map_reachedIncoming hcfg (fun _ hother => h.length_outputsOf hother)
    (fun _ hother => h.outputs_eq_none hother) id
  obtain rfl := map_injective_iff.mpr (Option.some_injective φ) (hentering.symm.trans hmap)
  exact hinput

/-- Solutions hold the outputs of their inputs. -/
theorem outputsAt_eq :
    analysis.outputsAt cfg id (analysis.inputAt cfg facts id) = .ok (facts.outputsOf id) := by
  obtain ⟨node, hnode, htransfer, hlength⟩ := h.outputs_eq id _ (h.input?_eq hcfg hid)
  simp only [ForwardAnalysis.outputsAt, hnode, htransfer, if_pos hlength]

end ForwardFacts.Solves

/-! ### What one record does -/

/-- Facts on their way down: they are at least what processing would say, and above all solutions.
-/
structure ForwardFacts.Sinking (analysis : ForwardAnalysis φ) (cfg : FlowGraph)
    (facts : ForwardFacts φ) : Prop where
  reached : ∀ id outputs, facts.outputs[id]? = some outputs → cfg.Reaches cfg.start id
  isSome_eq : ∀ id, (facts.input? id).isSome = facts.outputs[id]?.isSome
  input_above : ∀ id input, facts.input? id = some input →
    Below analysis.meet (analysis.inputAt cfg facts id) input
  outputs_above : ∀ id outputs new, facts.outputs[id]? = some outputs →
    analysis.outputsAt cfg id (analysis.inputAt cfg facts id) = .ok new →
    Forall₂ (Below analysis.meet) new outputs
  above : ∀ other : ForwardFacts φ, other.Solves analysis cfg → other.LowerThan analysis cfg facts

namespace ForwardFacts.Sinking

/-- Nodes with an input are reached. -/
theorem reached_of_input (h : facts.Sinking analysis cfg) {input : φ}
    (hinput : facts.input? id = some input) : cfg.Reaches cfg.start id := by
  have hsome : facts.outputs[id]?.isSome := by
    rw [← h.isSome_eq id, hinput, Option.isSome_some]
  obtain ⟨outputs, houtputs⟩ := Option.isSome_iff_exists.mp hsome
  exact h.reached id outputs houtputs

/-- Processing a node lowers the facts. -/
theorem lower_record (h : facts.Sinking analysis cfg) (hlawful : analysis.Lawful)
    (houtputs : analysis.outputsAt cfg id (analysis.inputAt cfg facts id) = .ok outputs) :
    (facts.record id (analysis.inputAt cfg facts id) outputs).LowerThan analysis cfg facts := by
  refine .record_left hlawful.meet ?_ fun old hold => h.outputs_above id old outputs hold houtputs
  cases hinput : facts.input? id with
  | none => trivial
  | some input => exact h.input_above id input hinput

/-- Processing keeps the facts above what processing would say. -/
theorem record (hcfg : cfg.Sound) (hfits : cfg.FitsForward) (hlawful : analysis.Lawful)
    (h : facts.Sinking analysis cfg) (hid : cfg.Reaches cfg.start id)
    (houtputs : analysis.outputsAt cfg id (analysis.inputAt cfg facts id) = .ok outputs) :
    (facts.record id (analysis.inputAt cfg facts id) outputs).Sinking analysis cfg := by
  have hlower := h.lower_record hlawful houtputs
  have hinputs := hlawful.inputAt hlower
  refine ⟨fun key found hfound => ?_, fun key => ?_, fun key input hinput => ?_,
    fun key found new hfound hnew => ?_, fun other hother => ?_⟩
  · rw [getElem?_outputs_record] at hfound
    by_cases heq : id = key
    · exact heq ▸ hid
    · rw [if_neg heq] at hfound
      exact h.reached key found hfound
  · rw [input?_record, getElem?_outputs_record]
    by_cases heq : id = key
    · simp [heq]
    · rw [if_neg heq, if_neg heq]
      exact h.isSome_eq key
  · rw [input?_record] at hinput
    by_cases heq : id = key
    · rw [if_pos heq] at hinput
      cases hinput
      exact heq ▸ hinputs id
    · rw [if_neg heq] at hinput
      exact hlawful.meet.trans (hinputs key) (h.input_above key input hinput)
  · rw [getElem?_outputs_record] at hfound
    by_cases heq : id = key
    · rw [if_pos heq] at hfound
      cases hfound
      subst heq
      exact hlawful.outputsAt (hinputs id) hnew houtputs
    · rw [if_neg heq] at hfound
      -- the outputs that were due before the record lie between the new ones and the recorded ones
      obtain ⟨due, hdue⟩ := ForwardAnalysis.exists_outputsAt hcfg hfits (h.reached key found hfound)
        (analysis.inputAt cfg facts key)
      have hnew := hlawful.outputsAt (hinputs key) hnew hdue
      have hfound := h.outputs_above key found due hfound hdue
      exact hlawful.meet.forall₂_trans hnew hfound
  · have hbelow := hlawful.inputAt (h.above other hother) id
    refine .record_right (h.above other hother) ?_ ?_
    · rw [hother.input?_eq hcfg hid]
      exact hbelow
    · exact hlawful.outputsAt hbelow (hother.outputsAt_eq hcfg hid) houtputs

/-- Every link out has a fact. -/
theorem length_outputs (hcfg : cfg.Sound) (hfits : cfg.FitsForward) (h : facts.Sinking analysis cfg)
    (hfound : facts.outputs[id]? = some outputs) : outputs.length = (cfg.outgoing id).length := by
  obtain ⟨due, hdue⟩ := ForwardAnalysis.exists_outputsAt hcfg hfits (h.reached id outputs hfound)
    (analysis.inputAt cfg facts id)
  rw [← (h.outputs_above id outputs due hfound hdue).length_eq]
  exact ForwardAnalysis.length_of_outputsAt hdue

end ForwardFacts.Sinking

/-! ### Facts as a finite table -/

/-- The facts as a table over nodes and positions of edges. -/
def ForwardFacts.table (facts : ForwardFacts φ) (cfg : FlowGraph) :
    Fin cfg.nextId ⊕ (Σ id : Fin cfg.nextId, Fin (cfg.outgoing id).length) → Option φ
  | .inl id => facts.input? id
  | .inr ⟨id, index⟩ => (facts.outputsOf id)[index.val]?

namespace ForwardFacts

/-- Lower facts have lower tables. -/
theorem LowerThan.table (hcfg : cfg.Sound) (h : facts.LowerThan analysis cfg facts') (key) :
    Lower analysis.meet (facts.table cfg key) (facts'.table cfg key) := by
  match key with
  | .inl id => exact h.input id
  | .inr ⟨id, index⟩ =>
    have hlink := getElem?_eq_getElem index.isLt
    have honEdge := h.onEdge ⟨id, (cfg.outgoing id)[index].1, (cfg.outgoing id)[index].2⟩
    rw [onEdge?_of_getElem? hcfg hlink, onEdge?_of_getElem? hcfg hlink] at honEdge
    exact honEdge

/-- Sinking facts are all in the table. -/
theorem Sinking.eq_of_table_eq (hcfg : cfg.Sound) (hfits : cfg.FitsForward)
    (h : facts.Sinking analysis cfg) (h' : facts'.Sinking analysis cfg)
    (htable : facts.table cfg = facts'.table cfg) : facts = facts' := by
  have hlt : ∀ {id}, cfg.Reaches cfg.start id → id < cfg.nextId :=
    fun hid => Graph.lt_nextId_of_contains (hid.contains hcfg.graph hcfg.start)
  have hinput : ∀ id, facts.input? id = facts'.input? id := by
    intro id
    by_cases hid : id < cfg.nextId
    · exact congrFun htable (.inl ⟨id, hid⟩)
    · cases hfound : facts.input? id with
      | some input => exact absurd (hlt (h.reached_of_input hfound)) hid
      | none =>
        cases hfound' : facts'.input? id with
        | some input => exact absurd (hlt (h'.reached_of_input hfound')) hid
        | none => rfl
  have houtputs : ∀ id : NodeId, facts.outputs[id]? = facts'.outputs[id]? := by
    intro id
    have hsome : facts.outputs[id]?.isSome = facts'.outputs[id]?.isSome := by
      rw [← h.isSome_eq, ← h'.isSome_eq, hinput]
    cases hfound : facts.outputs[id]? with
    | none =>
      rw [hfound, Option.isSome_none] at hsome
      exact (Option.not_isSome_iff_eq_none.mp (by simp [← hsome])).symm
    | some outputs =>
      rw [hfound, Option.isSome_some] at hsome
      obtain ⟨outputs', hfound'⟩ := Option.isSome_iff_exists.mp hsome.symm
      have hid := hlt (h.reached id outputs hfound)
      have hlength := h.length_outputs hcfg hfits hfound
      have hlength' := h'.length_outputs hcfg hfits hfound'
      rw [hfound', Option.some_inj]
      refine ext_getElem? fun index => ?_
      by_cases hindex : index < (cfg.outgoing id).length
      · have hentry := congrFun htable (.inr ⟨⟨id, hid⟩, ⟨index, hindex⟩⟩)
        change (facts.outputsOf id)[index]? = (facts'.outputsOf id)[index]? at hentry
        rwa [outputsOf_eq, outputsOf_eq, hfound, hfound'] at hentry
      · rw [getElem?_eq_none (by omega), getElem?_eq_none (by omega)]
  obtain ⟨inputs, outputs⟩ := facts
  obtain ⟨inputs', outputs'⟩ := facts'
  congr
  · exact Std.ExtTreeMap.ext_getElem? hinput
  · exact Std.ExtTreeMap.ext_getElem? houtputs

end ForwardFacts

namespace ForwardAnalysis

/-- The order of tables in which a run descends. -/
def TableBelow (analysis : ForwardAnalysis φ) (cfg : FlowGraph) (facts facts' : ForwardFacts φ) :
    Prop :=
  (∀ key, Lower analysis.meet (facts.table cfg key) (facts'.table cfg key)) ∧
    facts.table cfg ≠ facts'.table cfg

/-- Tables cannot sink forever. -/
theorem Lawful.wellFounded_tableBelow (h : analysis.Lawful) (cfg : FlowGraph) :
    WellFounded (analysis.TableBelow cfg) :=
  InvImage.wf (ForwardFacts.table · cfg) (h.meet.wellFounded_lowered _)

/-! ### The solver ends -/

section Solver

variable [DecidableEq φ] {solver next final : Solver φ} {rounds more : Nat}

/-- If the table stays the same, then no edge has got another fact. -/
theorem changedSuccessors_eq_nil (hid : id < cfg.nextId)
    (htable : (facts.record id input outputs).table cfg = facts.table cfg) :
    changedSuccessors cfg id (facts.outputsOf id) outputs = [] := by
  refine filterMap_eq_nil_iff.mpr fun ⟨successor, index⟩ hmem => ?_
  have hlt : index < (cfg.outgoing id).length := by
    have hget := mem_zipIdx_iff_getElem?.mp hmem
    rw [Graph.successors, getElem?_map, Option.map_eq_some_iff] at hget
    obtain ⟨link, hlink, -⟩ := hget
    exact (List.getElem?_eq_some_iff.mp hlink).1
  have hentry := congrFun htable (.inr ⟨⟨id, hid⟩, ⟨index, hlt⟩⟩)
  change ((facts.record id input outputs).outputsOf id)[index]? = (facts.outputsOf id)[index]?
    at hentry
  rw [ForwardFacts.outputsOf_record, if_pos rfl] at hentry
  exact if_pos hentry.symm

/-- What is left to do: the facts to come, the components, the queue. -/
def Solver.rank (solver : Solver φ) : ForwardFacts φ × Nat × Nat :=
  (solver.facts, solver.waiting.size, solver.queue.length)

/-- Processing a node that control reaches has a result. -/
theorem exists_process (hcfg : cfg.Sound) (hfits : cfg.FitsForward) (hid : cfg.Reaches cfg.start id)
    (solver : Solver φ) : ∃ next, analysis.process cfg.components solver id = .ok next := by
  obtain ⟨outputs, houtputs⟩ :=
    exists_outputsAt hcfg hfits hid (analysis.inputAt cfg solver.facts id)
  have houtputs : analysis.outputsAt cfg.components.cfg id
      (analysis.inputAt cfg.components.cfg solver.facts id) = .ok outputs := houtputs
  simp only [process, houtputs]
  exact ⟨_, rfl⟩

/-- If the table stays, processing only shortens the queue. -/
theorem queue_of_process (hid : id < cfg.nextId) {rest : List NodeId}
    (h : analysis.process cfg.components { solver with queue := rest } id = .ok next)
    (htable : next.facts.table cfg = solver.facts.table cfg) :
    next.waiting = solver.waiting ∧ next.queue = rest := by
  unfold process at h
  dsimp only at h
  split at h
  · cases h
  next outputs houtputs =>
  have hnext := Except.ok.inj h
  have hfacts : next.facts =
      solver.facts.record id (analysis.inputAt cfg solver.facts id) outputs := by
    rw [← hnext]
    exact (Solver.Woken.foldl cfg.components _ _).facts
  rw [hfacts] at htable
  have hnil : changedSuccessors cfg.components.cfg id (solver.facts.outputsOf id) outputs = [] :=
    changedSuccessors_eq_nil hid htable
  rw [hnil] at hnext
  exact ⟨by rw [← hnext]; rfl, by rw [← hnext]; rfl⟩

/-- Every round lowers the facts, opens a component or shortens the queue. -/
theorem Solver.Working.exists_solve (hcfg : cfg.Sound) (hfits : cfg.FitsForward)
    (hlawful : analysis.Lawful) (h : solver.Working analysis cfg)
    (hsinking : solver.facts.Sinking analysis cfg) :
    ∃ rounds final, analysis.solve cfg.components rounds solver = some (.ok final) ∧
      final.facts.Sinking analysis cfg := by
  have hwf := (hlawful.wellFounded_tableBelow cfg).prod_lex
    ((wellFounded_lt (α := Nat)).prod_lex (wellFounded_lt (α := Nat)))
  induction hrank : solver.rank using hwf.induction generalizing solver with
  | _ rank ih =>
    subst hrank
    cases hqueue : solver.queue with
    | cons id rest =>
      have hid : cfg.Reaches cfg.start id := h.reached id (.inr (by simp [hqueue]))
      obtain ⟨next, hnext⟩ := exists_process hcfg hfits hid { solver with queue := rest }
      obtain ⟨outputs, hprocessed⟩ := processed_of_process hqueue hnext
      have hlower := (hsinking.lower_record hlawful hprocessed.outputs_eq).table hcfg
      rw [← hprocessed.facts] at hlower
      have hsinking' := hsinking.record hcfg hfits hlawful hid hprocessed.outputs_eq
      rw [← hprocessed.facts] at hsinking'
      have hless : Prod.Lex (analysis.TableBelow cfg) (Prod.Lex (· < ·) (· < ·)) next.rank
          solver.rank := by
        by_cases htable : next.facts.table cfg = solver.facts.table cfg
        · obtain ⟨hwaiting, hrest⟩ :=
            queue_of_process (Graph.lt_nextId_of_contains (hid.contains hcfg.graph hcfg.start))
              hnext htable
          unfold Solver.rank
          rw [hsinking'.eq_of_table_eq hcfg hfits hsinking htable, hwaiting, hrest, hqueue]
          exact .right _ (.right _ (Nat.lt_succ_self rest.length))
        · exact .left _ _ ⟨hlower, htable⟩
      obtain ⟨rounds, final, hsolve, hfinal⟩ :=
        ih next.rank hless (h.process hcfg hprocessed hid) hsinking' rfl
      refine ⟨rounds + 1, final, ?_, hfinal⟩
      rw [ForwardAnalysis.solve, hqueue]
      dsimp only
      rw [hnext]
      exact hsolve
    | nil =>
      cases hwaiting : solver.waiting.toList with
      | nil =>
        refine ⟨1, solver, ?_, hsinking⟩
        rw [ForwardAnalysis.solve, hqueue]
        dsimp only
        rw [hwaiting]
      | cons index others =>
        have hindex : index ∈ solver.waiting :=
          Std.ExtTreeSet.mem_toList.mp (hwaiting ▸ mem_cons_self)
        have hsize : (solver.waiting.erase index).size < solver.waiting.size := by
          have hpos : 0 < solver.waiting.size := by
            rw [← Std.ExtTreeSet.length_toList, hwaiting]
            exact Nat.succ_pos _
          rw [Std.ExtTreeSet.size_erase, if_pos (by simpa using hindex)]
          omega
        obtain ⟨rounds, final, hsolve, hfinal⟩ :=
          ih _ (.right _ (.left _ _ hsize)) (h.turn hcfg hqueue hindex) hsinking rfl
        refine ⟨rounds + 1, final, ?_, hfinal⟩
        rw [ForwardAnalysis.solve, hqueue]
        dsimp only
        rw [hwaiting]
        exact hsolve

/-- More rounds do not change an answer. -/
theorem solve_of_le {outcome : Except Breach (Solver φ)} (hle : rounds ≤ more)
    (h : analysis.solve cfg.components rounds solver = some outcome) :
    analysis.solve cfg.components more solver = some outcome := by
  induction rounds generalizing solver more with
  | zero => cases h
  | succ rounds ih =>
    obtain ⟨more, rfl⟩ : ∃ less, more = less + 1 := ⟨more - 1, by omega⟩
    rw [solve] at h ⊢
    split at h
    · split at h
      · exact h
      · exact ih (by omega) h
    · split at h
      · exact h
      · exact ih (by omega) h

/-- More rounds give the same facts. -/
theorem facts?_of_le {outcome : Except Breach (ForwardFacts φ)} (hle : rounds ≤ more)
    (h : analysis.facts? cfg rounds = some outcome) : analysis.facts? cfg more = some outcome := by
  obtain ⟨final, hrun, rfl⟩ := Option.map_eq_some_iff.mp h
  rw [facts?, run, solve_of_le hle hrun, Option.map_some]

end Solver

/-! ### Fair iterations -/

/-- Process one node: record the facts at its entry and on its edges. -/
def refresh (analysis : ForwardAnalysis φ) (cfg : FlowGraph) (facts : ForwardFacts φ)
    (id : NodeId) : ForwardFacts φ :=
  match analysis.outputsAt cfg id (analysis.inputAt cfg facts id) with
  | .ok outputs => facts.record id (analysis.inputAt cfg facts id) outputs
  | .error _ => facts

/-- The facts after some steps of an iteration. -/
def iterate (analysis : ForwardAnalysis φ) (cfg : FlowGraph) (first : ForwardFacts φ)
    (picks : Nat → NodeId) : Nat → ForwardFacts φ
  | 0 => first
  | k + 1 => analysis.refresh cfg (analysis.iterate cfg first picks k) (picks k)

/-- An iteration starts from top facts, at any reached node. -/
structure Fresh (analysis : ForwardAnalysis φ) (cfg : FlowGraph) (first : ForwardFacts φ) :
    Prop where
  inputs : ∀ id input, first.input? id = some input → input = analysis.top
  outputs : ∀ id outputs, first.outputs[id]? = some outputs →
    outputs = List.replicate (cfg.outgoing id).length analysis.top
  isSome_eq : ∀ id, (first.input? id).isSome = first.outputs[id]?.isSome
  reached : ∀ id outputs, first.outputs[id]? = some outputs → cfg.Reaches cfg.start id

/-- An iteration processes reached nodes, in any order, and each one that would get other facts is
processed later or would not get other facts any more. -/
structure Fair (analysis : ForwardAnalysis φ) (cfg : FlowGraph) (first : ForwardFacts φ)
    (picks : Nat → NodeId) : Prop where
  reached : ∀ k, cfg.Reaches cfg.start (picks k)
  later : ∀ k id, cfg.Reaches cfg.start id → ∃ later ≥ k, picks later = id ∨
    analysis.refresh cfg (analysis.iterate cfg first picks later) id =
      analysis.iterate cfg first picks later

/-- No facts are fresh. -/
theorem Fresh.empty (analysis : ForwardAnalysis φ) (cfg : FlowGraph) : analysis.Fresh cfg {} where
  inputs := by simp [ForwardFacts.input?]
  outputs := by simp
  isSome_eq := by simp [ForwardFacts.input?]
  reached := by simp

/-- Fresh facts are sinking. -/
theorem Fresh.sinking (hcfg : cfg.Sound) (hlawful : analysis.Lawful)
    (h : analysis.Fresh cfg facts) : facts.Sinking analysis cfg where
  reached := h.reached
  isSome_eq := h.isSome_eq
  input_above := by
    intro id input hinput
    rw [h.inputs id input hinput]
    exact hlawful.meet.below_top _
  outputs_above := by
    intro id outputs new houtputs hnew
    rw [h.outputs id outputs houtputs, ← length_of_outputsAt hnew]
    exact hlawful.meet.forall₂_top new
  above := by
    intro other hother
    refine ⟨fun id => ?_, fun edge => ?_⟩
    · cases hinput : facts.input? id with
      | none => trivial
      | some input =>
        have hsome : facts.outputs[id]?.isSome := by
          rw [← h.isSome_eq id, hinput, Option.isSome_some]
        obtain ⟨outputs, houtputs⟩ := Option.isSome_iff_exists.mp hsome
        rw [hother.input?_eq hcfg (h.reached id outputs houtputs), h.inputs id input hinput]
        exact hlawful.meet.below_top _
    · cases houtputs : facts.outputs[edge.source]? with
      | none =>
        have hgap : facts.onEdge? cfg edge = none := by
          rw [ForwardFacts.onEdge?_eq_bind, ForwardFacts.outputsOf_eq, houtputs]
          simp
        rw [hgap]
        trivial
      | some outputs =>
        refine ForwardFacts.LowerThan.onEdge_of_outputsOf ?_
        have hlength := hother.length_outputsOf (h.reached edge.source outputs houtputs)
        rw [ForwardFacts.outputsOf_eq facts, houtputs, Option.getD_some,
          h.outputs edge.source outputs houtputs, ← hlength]
        exact hlawful.meet.forall₂_top _

/-- Refreshing records the outputs. -/
theorem refresh_eq (houtputs : analysis.outputsAt cfg id (analysis.inputAt cfg facts id) =
    .ok outputs) :
    analysis.refresh cfg facts id = facts.record id (analysis.inputAt cfg facts id) outputs := by
  rw [refresh, houtputs]

/-- Facts that no refreshing changes solve the equations. -/
theorem solves_of_refresh (hcfg : cfg.Sound) (hfits : cfg.FitsForward)
    (hsinking : facts.Sinking analysis cfg)
    (h : ∀ id, cfg.Reaches cfg.start id → analysis.refresh cfg facts id = facts) :
    facts.Solves analysis cfg := by
  refine solves_of_fixed hcfg (fun id input => hsinking.reached_of_input) hsinking.reached
    fun id hid => ?_
  obtain ⟨outputs, houtputs⟩ := exists_outputsAt hcfg hfits hid (analysis.inputAt cfg facts id)
  have hsame := h id hid
  rw [refresh_eq houtputs] at hsame
  refine ⟨?_, outputs, ?_, houtputs⟩
  · rw [← congrArg (ForwardFacts.input? · id) hsame]
    exact (ForwardFacts.input?_record _ _ _ _ _).trans (if_pos rfl)
  · rw [← congrArg (fun facts => facts.outputs[id]?) hsame]
    exact (ForwardFacts.getElem?_outputs_record _ _ _ _ _).trans (if_pos rfl)

/-- Along an iteration facts keep sinking. -/
theorem Fair.sinking (hcfg : cfg.Sound) (hfits : cfg.FitsForward) (hlawful : analysis.Lawful)
    {first : ForwardFacts φ} {picks : Nat → NodeId} (hfirst : analysis.Fresh cfg first)
    (h : analysis.Fair cfg first picks) (k : Nat) :
    (analysis.iterate cfg first picks k).Sinking analysis cfg := by
  induction k with
  | zero => exact hfirst.sinking hcfg hlawful
  | succ k ih =>
    obtain ⟨outputs, houtputs⟩ := exists_outputsAt hcfg hfits (h.reached k)
      (analysis.inputAt cfg (analysis.iterate cfg first picks k) (picks k))
    rw [iterate, refresh_eq houtputs]
    exact ih.record hcfg hfits hlawful (h.reached k) houtputs

section

variable (hcfg : cfg.Sound) (hfits : cfg.FitsForward) (hlawful : analysis.Lawful)
include hcfg hfits hlawful

/-- A fair iteration settles on a solution. -/
theorem Fair.exists_solves {first : ForwardFacts φ} {picks : Nat → NodeId}
    (hfirst : analysis.Fresh cfg first) (h : analysis.Fair cfg first picks) :
    ∃ facts : ForwardFacts φ, facts.Solves analysis cfg ∧ facts.Sinking analysis cfg ∧
      ∃ settled, ∀ k ≥ settled, analysis.iterate cfg first picks k = facts := by
  have hsinking := h.sinking hcfg hfits hlawful hfirst
  have hstep : ∀ k, analysis.iterate cfg first picks (k + 1) = analysis.iterate cfg first picks k ∨
      analysis.TableBelow cfg (analysis.iterate cfg first picks (k + 1))
        (analysis.iterate cfg first picks k) := by
    intro k
    by_cases htable : (analysis.iterate cfg first picks (k + 1)).table cfg =
        (analysis.iterate cfg first picks k).table cfg
    · exact .inl ((hsinking (k + 1)).eq_of_table_eq hcfg hfits (hsinking k) htable)
    · obtain ⟨outputs, houtputs⟩ := exists_outputsAt hcfg hfits (h.reached k)
        (analysis.inputAt cfg (analysis.iterate cfg first picks k) (picks k))
      refine .inr ⟨?_, htable⟩
      rw [iterate, refresh_eq houtputs]
      exact ((hsinking k).lower_record hlawful houtputs).table hcfg
  obtain ⟨settled, hlevel⟩ := exists_level (hlawful.wellFounded_tableBelow cfg) hstep
  refine ⟨analysis.iterate cfg first picks settled, ?_, hsinking settled, settled, hlevel⟩
  refine solves_of_refresh hcfg hfits (hsinking settled) fun id hid => ?_
  obtain ⟨later, hlater, hpick | hsame⟩ := h.later settled id hid
  · -- the node was processed when nothing changed any more
    have hnext := hlevel (later + 1) (by omega)
    rwa [iterate, hlevel later hlater, hpick] at hnext
  · rwa [hlevel later hlater] at hsame

/-- Of two solutions that are above all solutions, each is the other. -/
theorem eq_of_solves (hsinking : facts.Sinking analysis cfg) (hsolves : facts.Solves analysis cfg)
    (hsinking' : facts'.Sinking analysis cfg) (hsolves' : facts'.Solves analysis cfg) :
    facts = facts' := by
  refine hsinking.eq_of_table_eq hcfg hfits hsinking' (funext fun key => ?_)
  exact hlawful.meet.lower_antisymm ((hsinking'.above facts hsolves).table hcfg key)
    ((hsinking.above facts' hsolves').table hcfg key)

end

/-- A solution below sinking facts is below them at every reached node. -/
theorem below_of_solves (hcfg : cfg.Sound) (hsinking : facts.Sinking analysis cfg)
    (hsolves : facts.Solves analysis cfg) {other : ForwardFacts φ}
    (hother : other.Solves analysis cfg)
    (hlawful : analysis.Lawful) (hid : cfg.Reaches cfg.start id) :
    ∃ low high, other.input? id = some low ∧ facts.input? id = some high ∧
      Below analysis.meet low high ∧
      Forall₂ (Below analysis.meet) (other.outputsOf id) (facts.outputsOf id) := by
  have hbelow := hlawful.inputAt (hsinking.above other hother) id
  exact ⟨_, _, hother.input?_eq hcfg hid, hsolves.input?_eq hcfg hid, hbelow,
    hlawful.outputsAt hbelow (hother.outputsAt_eq hcfg hid) (hsolves.outputsAt_eq hcfg hid)⟩

/-- A lawful forward analysis ends with the greatest solution of its equations, and every fair
iteration ends with the same facts. -/
theorem facts_greatest [DecidableEq φ] (hcfg : cfg.Assembled) (hfits : cfg.FitsForward)
    (hlawful : analysis.Lawful) :
    ∃ (rounds : Nat) (facts : ForwardFacts φ),
      (∀ more ≥ rounds, analysis.facts? cfg more = some (.ok facts)) ∧
      facts.Solves analysis cfg ∧
      (∀ other : ForwardFacts φ, other.Solves analysis cfg → ∀ id, cfg.Reaches cfg.start id →
        ∃ low high, other.input? id = some low ∧ facts.input? id = some high ∧
          Below analysis.meet low high ∧
          Forall₂ (Below analysis.meet) (other.outputsOf id) (facts.outputsOf id)) ∧
      ∀ first picks, analysis.Fresh cfg first → analysis.Fair cfg first picks →
        ∃ settled, ∀ k ≥ settled, analysis.iterate cfg first picks k = facts := by
  have hsound := hcfg.sound
  have hopening := Solver.Working.opening analysis cfg
  obtain ⟨rounds, final, hsolve, hsinking⟩ :=
    hopening.exists_solve hsound hfits hlawful ((Fresh.empty analysis cfg).sinking hsound hlawful)
  obtain ⟨hworking, hqueue, hwaiting⟩ := hopening.solve hsound hsolve
  have hsolves := hworking.solves hsound hqueue hwaiting
  refine ⟨rounds, final.facts, fun more hmore => ?_, hsolves, fun other hother id hid => ?_,
    fun first picks hfirst hfair => ?_⟩
  · refine facts?_of_le hmore ?_
    rw [facts?, run, hsolve]
    rfl
  · exact below_of_solves hsound hsinking hsolves hother hlawful hid
  · obtain ⟨facts, hfacts, hfactsSinking, hsettled⟩ :=
      hfair.exists_solves hsound hfits hlawful hfirst
    rwa [eq_of_solves hsound hfits hlawful hfactsSinking hfacts hsinking hsolves] at hsettled

/-- Whether a statement may have been passed, which the false way of a condition forgets. -/
def touched : ForwardAnalysis Bool where
  top := false
  meet := (· || ·)
  statement := fun _ _ => true
  branch := fun _ fact => (fact, false)

/-- The analysis is lawful. -/
theorem lawful_touched : touched.Lawful where
  meet := .or
  statement _ := by intro x y h; rfl
  onTrue _ := by intro x y h; exact h
  onFalse _ := by intro x y h; rfl
  start _ := by intro x y h; exact h
  spin _ := by intro x y h; exact h

/-- The fact from behind reaches the condition, and going round the three nodes again and again
finds the same. -/
theorem facts_greatest_forked : ∃ (rounds : Nat) (facts : ForwardFacts Bool),
    touched.facts? forked rounds = some (.ok facts) ∧ facts.input? 1 = some true ∧
      facts.input? 3 = none ∧
      ∃ settled, ∀ k ≥ settled, touched.iterate forked {} (· % 3) k = facts := by
  have hfits : forked.FitsForward := by
    have hall : ∀ id ∈ forked.nodes, ∀ node ∈ forked.node? id,
        node.FitsForward (forked.outgoing id).length := by decide +kernel
    intro id node _ hnode
    exact hall id (Graph.mem_nodes.mpr (Graph.contains_of_payload? hnode)) node hnode
  have hreached : ∀ {id}, id ∈ forked.reached ↔ id < 3 := by
    have hlist : forked.reached = [0, 1, 2] := by decide +kernel
    intro id
    rw [hlist, show ([0, 1, 2] : List NodeId) = List.range 3 from rfl, mem_range]
  have hfair : touched.Fair forked {} (· % 3) := by
    refine ⟨fun k => ?_, fun k id hid => ⟨3 * k + id, by omega, .inl ?_⟩⟩
    · exact assembled_forked.sound.mem_reached.mp (hreached.mpr (Nat.mod_lt k (by decide)))
    · have hlt : id < 3 := hreached.mp (assembled_forked.sound.mem_reached.mpr hid)
      exact (Nat.mul_add_mod 3 k id).trans (Nat.mod_eq_of_lt hlt)
  obtain ⟨rounds, facts, hfacts, -, -, hiterate⟩ :=
    facts_greatest assembled_forked hfits lawful_touched
  obtain ⟨found, hrun, hhead, hstray⟩ : ∃ found, touched.facts? forked 30 = some (.ok found) ∧
      found.input? 1 = some true ∧ found.input? 3 = none := by
    apply FlowGraph.exists_some_ok_of_any
    decide +kernel
  have hmore := hfacts (max rounds 30) (le_max_left rounds 30)
  obtain rfl : found = facts := by
    rw [facts?_of_le (le_max_right rounds 30) hrun] at hmore
    exact Except.ok.inj (Option.some.inj hmore)
  exact ⟨30, found, hrun, hhead, hstray, hiterate {} _ (.empty touched forked) hfair⟩

end ForwardAnalysis

end Flowgraph

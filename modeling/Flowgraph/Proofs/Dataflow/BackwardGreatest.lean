import Flowgraph.Proofs.Dataflow.Backward
import Flowgraph.Proofs.Dataflow.Forward

/-!
# A backward analysis finds the greatest solution

For facts with a lawful meet and without infinite descent, and monotone transfer functions, the
solver ends with the greatest solution (`BackwardAnalysis.facts_greatest_of_lawful`). Processing a
node lowers facts and keeps them above all solutions (`BackwardFacts.Sinking.record`), and a round
that lowers none queues nothing.
-/

namespace Flowgraph

variable {φ : Type} {analysis : BackwardAnalysis φ} {cfg : FlowGraph}
  {facts facts' : BackwardFacts φ} {id : NodeId} {input : φ}

/-- A node has a transfer function. -/
def Node.FitsBackward : Node → Prop
  | .phi _ _ | .stub _ => False
  | .block children _ => ∀ child ∈ children, child.kind.isStatement
  | .start _ | .ret _ | .assign _ _ _ | .store _ _ _ | .call _ _ _ _ | .branch _ _ | .spin _ => True

instance : (node : Node) → Decidable node.FitsBackward
  | .phi _ _ | .stub _ => inferInstanceAs (Decidable False)
  | .block children _ =>
    inferInstanceAs (Decidable (∀ child ∈ children, child.kind.isStatement))
  | .start _ | .ret _ | .assign _ _ _ | .store _ _ _ | .call _ _ _ _ | .branch _ _ | .spin _ =>
    inferInstanceAs (Decidable True)

/-- All live nodes have transfer functions. -/
def FlowGraph.FitsBackward (cfg : FlowGraph) : Prop :=
  ∀ id node, cfg.node? id = some node → node.FitsBackward

/-- A lawful meet, and transfer functions that keep the order. -/
structure BackwardAnalysis.Lawful (analysis : BackwardAnalysis φ) : Prop where
  meet : MeetLaws analysis.top analysis.meet
  statement : ∀ node, KeepsOrder analysis.meet (analysis.statement node)
  branch : ∀ node, KeepsOrder analysis.meet (analysis.branch node)
  ret : ∀ node, KeepsOrder analysis.meet (analysis.ret node)
  spin : ∀ node, KeepsOrder analysis.meet (analysis.spin node)

namespace BackwardAnalysis

variable {x y x' y' : φ}

/-! ### Transfer functions -/

/-- What is due at the entry of a node can always be computed. -/
theorem exists_inputAt (hfits : cfg.FitsBackward) (id : NodeId) (output : φ) :
    ∃ input, analysis.inputAt cfg id output = .ok input := by
  unfold inputAt
  cases hnode : cfg.node? id with
  | none => exact ⟨output, rfl⟩
  | some node =>
    have hfit := hfits id node hnode
    cases node with
    | phi _ _ => exact hfit.elim
    | stub _ => exact hfit.elim
    | block children _ =>
      have hreverse : ∀ child ∈ children.reverse, child.kind.isStatement :=
        fun child hchild => hfit child (List.mem_reverse.mp hchild)
      simp [transfer, Node.checkStatements_eq_ok hreverse]
    | _ => simp [transfer]

namespace Lawful

variable (h : analysis.Lawful)
include h

/-- Statements keep the order. -/
theorem statements (children : List Node) (hbelow : Below analysis.meet x y) :
    Below analysis.meet (children.foldr analysis.statement x)
      (children.foldr analysis.statement y) := by
  induction children with
  | nil => exact hbelow
  | cons child rest ih => exact h.statement child ih

/-- Transfers keep the order. -/
theorem transfer {node : Node} (hbelow : Below analysis.meet x y)
    (hx : analysis.transfer id node x = .ok x') (hy : analysis.transfer id node y = .ok y') :
    Below analysis.meet x' y' := by
  cases node with
  | phi _ _ => cases hx
  | stub _ => cases hx
  | block children _ =>
    unfold BackwardAnalysis.transfer at hx hy
    dsimp only at hx hy
    split at hx
    · cases hx
    · next hcheck =>
      rw [hcheck] at hy
      cases hx
      cases hy
      exact h.statements children hbelow
  | start _ =>
    cases hx
    cases hy
    exact hbelow
  | ret _ =>
    cases hx
    cases hy
    exact h.ret _ hbelow
  | branch _ _ =>
    cases hx
    cases hy
    exact h.branch _ hbelow
  | spin _ =>
    cases hx
    cases hy
    exact h.spin _ hbelow
  | _ =>
    cases hx
    cases hy
    exact h.statement _ hbelow

/-- Inputs keep the order of outputs. -/
theorem inputAt (hbelow : Below analysis.meet x y) (hx : analysis.inputAt cfg id x = .ok x')
    (hy : analysis.inputAt cfg id y = .ok y') : Below analysis.meet x' y' := by
  unfold BackwardAnalysis.inputAt at hx hy
  cases hnode : cfg.node? id with
  | none =>
    rw [hnode] at hx hy
    cases hx
    cases hy
    exact hbelow
  | some node =>
    rw [hnode] at hx hy
    exact h.transfer hbelow hx hy

/-- What is due at the exit of a node keeps the order of inputs. -/
theorem outputAt (hlower : ∀ key, Lower analysis.meet (facts.input? key) (facts'.input? key))
    (id : NodeId) :
    Below analysis.meet (analysis.outputAt cfg facts id) (analysis.outputAt cfg facts' id) :=
  h.meet.below_meetAll_filterMap fun key _ => hlower key

end Lawful

end BackwardAnalysis

namespace BackwardFacts

variable {output : φ}

namespace Solves

/-- Processing a node would not change the facts of a solution. -/
theorem settled (h : facts.Solves analysis cfg) (hid : cfg.contains id) :
    analysis.Settled cfg facts id := by
  obtain ⟨leaving, hleaving, houtput⟩ := h.output_eq id hid
  have hsame : facts.leaving cfg id = leaving := by
    have hfilter : ((cfg.successors id).map facts.input?).filterMap (fun entry => entry) =
        leaving := by
      rw [hleaving, List.filterMap_map]
      exact List.filterMap_some
    rw [← hfilter, List.filterMap_map]
    rfl
  have hdue : analysis.outputAt cfg facts id = meetAll analysis.top analysis.meet leaving := by
    rw [BackwardAnalysis.outputAt, hsame]
  obtain ⟨node, input, hnode, htransfer, hinput⟩ := h.input_eq id _ houtput
  refine ⟨hdue ▸ houtput, input, hinput, ?_⟩
  rw [BackwardAnalysis.inputAt, hnode, hdue]
  exact htransfer

end Solves

/-! ### What one record does -/

/-- Facts on their way down: inputs are at least what processing would say, and above those of all
solutions. -/
structure Sinking (analysis : BackwardAnalysis φ) (cfg : FlowGraph) (facts : BackwardFacts φ) :
    Prop where
  input_above : ∀ id input due, facts.input? id = some input →
    analysis.inputAt cfg id (analysis.outputAt cfg facts id) = .ok due →
    Below analysis.meet due input
  above : ∀ other : BackwardFacts φ, other.Solves analysis cfg →
    ∀ id, Lower analysis.meet (other.input? id) (facts.input? id)

namespace Sinking

/-- No facts are sinking. -/
theorem empty (analysis : BackwardAnalysis φ) (cfg : FlowGraph) : Sinking analysis cfg {} where
  input_above := by simp [input?]
  above other _ id := by
    rw [show (({} : BackwardFacts φ).input? id) = none by simp [input?]]
    trivial

/-- Processing a node lowers the inputs. -/
theorem lower_record (h : facts.Sinking analysis cfg) (hlawful : analysis.Lawful)
    (hinput : analysis.inputAt cfg id (analysis.outputAt cfg facts id) = .ok input) (key : NodeId) :
    Lower analysis.meet ((facts.record id input output).input? key) (facts.input? key) := by
  rw [input?_record]
  by_cases heq : id = key
  · rw [if_pos heq, ← heq]
    cases hold : facts.input? id with
    | none => trivial
    | some old => exact h.input_above id old input hold hinput
  · rw [if_neg heq]
    exact hlawful.meet.lower_refl _

/-- Processing keeps the facts above what processing would say. -/
theorem record (hfits : cfg.FitsBackward) (hlawful : analysis.Lawful)
    (h : facts.Sinking analysis cfg) (hid : cfg.contains id)
    (hinput : analysis.inputAt cfg id (analysis.outputAt cfg facts id) = .ok input) :
    (facts.record id input output).Sinking analysis cfg := by
  have houtputs : ∀ key, Below analysis.meet
      (analysis.outputAt cfg (facts.record id input output) key)
      (analysis.outputAt cfg facts key) :=
    hlawful.outputAt (h.lower_record hlawful hinput)
  refine ⟨fun key old due hold hdue => ?_, fun other hother key => ?_⟩
  · rw [input?_record] at hold
    by_cases heq : id = key
    · rw [if_pos heq] at hold
      cases hold
      subst heq
      exact hlawful.inputAt (houtputs id) hdue hinput
    · rw [if_neg heq] at hold
      -- what was due before the record lies between what is due now and the recorded input
      obtain ⟨before, hbefore⟩ :=
        BackwardAnalysis.exists_inputAt hfits key (analysis.outputAt cfg facts key)
      exact hlawful.meet.trans (hlawful.inputAt (houtputs key) hdue hbefore)
        (h.input_above key old before hold hbefore)
  · rw [input?_record]
    by_cases heq : id = key
    · rw [if_pos heq, ← heq]
      obtain ⟨-, due, hdue, htransfer⟩ := hother.settled hid
      rw [hdue]
      exact hlawful.inputAt (hlawful.outputAt (h.above other hother) id) htransfer hinput
    · rw [if_neg heq]
      exact h.above other hother key

end Sinking

/-- The inputs as a table over the nodes. -/
def table (facts : BackwardFacts φ) (cfg : FlowGraph) (id : Fin cfg.nextId) : Option φ :=
  facts.input? id

end BackwardFacts

namespace BackwardAnalysis

variable [DecidableEq φ] {analysis : BackwardAnalysis φ} {cfg : FlowGraph} {solver next : Solver φ}
  {rounds more : Nat}

/-! ### The solver ends -/

/-- What is left to do: the inputs to come, then the queue. -/
def Solver.rank (cfg : FlowGraph) (solver : Solver φ) : (Fin cfg.nextId → Option φ) × Nat :=
  (solver.facts.table cfg, solver.queue.length)

/-- Processing a node has a result. -/
theorem exists_process (hfits : cfg.FitsBackward) (id : NodeId) (solver : Solver φ) :
    ∃ next, analysis.process cfg solver id = .ok next := by
  obtain ⟨input, hinput⟩ : ∃ input,
      analysis.inputAt cfg id (analysis.outputAt cfg solver.facts id) = .ok input :=
    exists_inputAt hfits id _
  by_cases hsame : solver.facts.input? id = some input
  · simp only [process, hinput, if_pos hsame]
    exact ⟨_, rfl⟩
  · simp only [process, hinput, if_neg hsame]
    exact ⟨_, rfl⟩

/-- Processing a live node lowers an input or shortens the queue. -/
theorem Solver.Processed.rank_lt {rest : List NodeId}
    (h : solver.Processed analysis cfg id rest input next) (hlawful : analysis.Lawful)
    (hsinking : solver.facts.Sinking analysis cfg) (hid : cfg.contains id)
    (hqueue : solver.queue = id :: rest) :
    Prod.Lex (fun table table' => (∀ key, Lower analysis.meet (table key) (table' key)) ∧
      table ≠ table') (· < ·) (next.rank cfg) (solver.rank cfg) := by
  by_cases hsame : solver.facts.input? id = some input
  · have htable : next.facts.table cfg = solver.facts.table cfg := by
      funext key
      unfold BackwardFacts.table
      rw [h.facts, BackwardFacts.input?_record_of_eq _ hsame]
    unfold Solver.rank
    rw [htable, h.same hsame, hqueue]
    exact .right _ (Nat.lt_succ_self rest.length)
  · refine .left _ _ ⟨fun key => ?_, fun htable => hsame ?_⟩
    · rw [BackwardFacts.table, h.facts]
      exact hsinking.lower_record hlawful h.input_eq key
    · have hentry := congrFun htable ⟨id, Graph.lt_nextId_of_contains hid⟩
      unfold BackwardFacts.table at hentry
      rw [h.facts, BackwardFacts.input?_record, if_pos rfl] at hentry
      exact hentry.symm

/-- Every round lowers an input or shortens the queue. -/
theorem Solver.Working.exists_solve (hcfg : cfg.Sound) (hfits : cfg.FitsBackward)
    (hlawful : analysis.Lawful) (h : solver.Working analysis cfg)
    (hsinking : solver.facts.Sinking analysis cfg) :
    ∃ rounds final, analysis.solve cfg rounds solver = some (.ok final) ∧
      final.facts.Sinking analysis cfg := by
  have hwf := (hlawful.meet.wellFounded_lowered (Fin cfg.nextId)).prod_lex
    (wellFounded_lt (α := Nat))
  induction hrank : solver.rank cfg using hwf.induction generalizing solver with
  | _ rank ih =>
    subst hrank
    cases hqueue : solver.queue with
    | nil =>
      refine ⟨1, solver, ?_, hsinking⟩
      rw [BackwardAnalysis.solve, hqueue]
    | cons id rest =>
      have hid : cfg.contains id := h.queue id (by simp [hqueue])
      obtain ⟨next, hnext⟩ := exists_process hfits id { solver with queue := rest }
      obtain ⟨input, hprocessed⟩ := processed_of_process hnext
      have hsinking' : next.facts.Sinking analysis cfg := by
        rw [hprocessed.facts]
        exact hsinking.record hfits hlawful hid hprocessed.input_eq
      obtain ⟨rounds, final, hsolve, hfinal⟩ :=
        ih (next.rank cfg) (hprocessed.rank_lt hlawful hsinking hid hqueue)
          (h.process hcfg hqueue hprocessed) hsinking' rfl
      refine ⟨rounds + 1, final, ?_, hfinal⟩
      rw [BackwardAnalysis.solve, hqueue]
      dsimp only
      rw [hnext]
      exact hsolve

/-- More rounds do not change an answer. -/
theorem solve_of_le {outcome : Except Breach (Solver φ)} (hle : rounds ≤ more)
    (h : analysis.solve cfg rounds solver = some outcome) :
    analysis.solve cfg more solver = some outcome := by
  induction rounds generalizing solver more with
  | zero => cases h
  | succ rounds ih =>
    obtain ⟨more, rfl⟩ : ∃ less, more = less + 1 := ⟨more - 1, by omega⟩
    rw [solve] at h ⊢
    split at h
    · exact h
    · split at h
      · exact h
      · exact ih (by omega) h

/-- More rounds give the same facts. -/
theorem facts?_of_le {outcome : Except Breach (BackwardFacts φ)} (hle : rounds ≤ more)
    (h : analysis.facts? cfg rounds = some outcome) : analysis.facts? cfg more = some outcome := by
  obtain ⟨final, hrun, rfl⟩ := Option.map_eq_some_iff.mp h
  rw [facts?, run, solve_of_le hle hrun, Option.map_some]

/-- A lawful backward analysis ends with the greatest solution of its equations. -/
theorem facts_greatest_of_lawful (hcfg : cfg.Assembled) (hfits : cfg.FitsBackward)
    (hlawful : analysis.Lawful) :
    ∃ (rounds : Nat) (facts : BackwardFacts φ),
      (∀ more ≥ rounds, analysis.facts? cfg more = some (.ok facts)) ∧
      facts.Solves analysis cfg ∧
      ∀ other : BackwardFacts φ, other.Solves analysis cfg → ∀ id, cfg.contains id →
        (∃ low high, other.output? id = some low ∧ facts.output? id = some high ∧
          Below analysis.meet low high) ∧
        ∃ low high, other.input? id = some low ∧ facts.input? id = some high ∧
          Below analysis.meet low high := by
  have hsound := hcfg.sound
  have hopening := Solver.Working.opening hsound analysis
  obtain ⟨rounds, final, hsolve, hsinking⟩ :=
    hopening.exists_solve hsound hfits hlawful (.empty analysis cfg)
  obtain ⟨hworking, hqueue⟩ := hopening.solve hsound hsolve
  have hsolves := hworking.solves hsound hqueue
  refine ⟨rounds, final.facts, fun more hmore => ?_, hsolves, fun other hother id hid => ?_⟩
  · refine facts?_of_le hmore ?_
    rw [facts?, run, hsolve]
    rfl
  · obtain ⟨hlow, low, hinputLow, htransferLow⟩ := hother.settled hid
    obtain ⟨hhigh, high, hinputHigh, htransferHigh⟩ := hsolves.settled hid
    have hbelow : Below analysis.meet (analysis.outputAt cfg other id)
        (analysis.outputAt cfg final.facts id) := hlawful.outputAt (hsinking.above other hother) id
    exact ⟨⟨_, _, hlow, hhigh, hbelow⟩,
      ⟨low, high, hinputLow, hinputHigh, hlawful.inputAt hbelow htransferLow htransferHigh⟩⟩

/-- Whether `x` is read before it is assigned. Conditions read it. -/
def needed : BackwardAnalysis Bool where
  top := false
  meet := (· || ·)
  statement := fun node fact =>
    match node with
    | .assign target _ _ => target != "x" && fact
    | _ => fact
  branch := fun _ _ => true

/-- The analysis is lawful. -/
theorem lawful_needed : needed.Lawful where
  meet := .or
  statement node := by
    intro x y h
    cases node with
    | assign target _ _ =>
      have h : (x || y) = x := h
      show ((target != "x" && x) || (target != "x" && y)) = (target != "x" && x)
      rw [← Bool.and_or_distrib_left, h]
    | _ => exact h
  branch _ := by intro x y h; rfl
  ret _ := by intro x y h; exact h
  spin _ := by intro x y h; exact h

/-- The head of the loop needs the variable, and the node out of reach has a fact too. -/
theorem facts_greatest_of_lawful_forked : ∃ (rounds : Nat) (facts : BackwardFacts Bool),
    needed.facts? ForwardAnalysis.forked rounds = some (.ok facts) ∧
      facts.input? 0 = some true ∧ facts.output? 3 = some false ∧
      ∀ other : BackwardFacts Bool, other.Solves needed ForwardAnalysis.forked →
        other.input? 0 = some true := by
  have hfits : ForwardAnalysis.forked.FitsBackward := by
    have hall : ∀ id ∈ ForwardAnalysis.forked.nodes, ∀ node ∈ ForwardAnalysis.forked.node? id,
        node.FitsBackward := by decide +kernel
    intro id node hnode
    exact hall id (Graph.mem_nodes.mpr (Graph.contains_of_payload? hnode)) node hnode
  obtain ⟨rounds, facts, hfacts, -, hgreatest⟩ :=
    facts_greatest_of_lawful ForwardAnalysis.assembled_forked hfits lawful_needed
  obtain ⟨found, hrun, hinput, houtput⟩ : ∃ found : BackwardFacts Bool,
      needed.facts? ForwardAnalysis.forked 30 = some (.ok found) ∧ found.input? 0 = some true ∧
        found.output? 3 = some false := by
    apply FlowGraph.exists_some_ok_of_any
    decide +kernel
  have hmore := hfacts (max rounds 30) (le_max_left rounds 30)
  obtain rfl : found = facts := by
    rw [facts?_of_le (le_max_right rounds 30) hrun] at hmore
    exact Except.ok.inj (Option.some.inj hmore)
  refine ⟨30, found, hrun, hinput, houtput, fun other hother => ?_⟩
  obtain ⟨-, low, high, hlow, hhigh, hbelow⟩ := hgreatest other hother 0 (by decide +kernel)
  obtain rfl := Option.some.inj (hhigh.symm.trans hinput)
  have hbelow : (low || true) = low := hbelow
  rw [hlow, ← hbelow, Bool.or_true]

end BackwardAnalysis

end Flowgraph

import Flowgraph.Proofs.Flow.Assembled
import Flowgraph.Proofs.Flow.Emission
import Flowgraph.Proofs.Flow.Flatten
import Flowgraph.Proofs.Semantics.Observation

/-!
# Walking a flow graph and running its layout

A walk executes the statements of each node that it comes to, takes the edge labelled with the truth
value of a condition, and ends at a return (`FlowGraph.Walks`). The machine that runs the layout
executes just what the walk does, and ends just as it does (`FlowGraph.executes_walk_of_flatten`).
-/

namespace Flowgraph

namespace FlowGraph

/-- One step of a walk through a flow graph, with what is executed. A function is called as a whole;
the walk waits until it has returned. -/
inductive Walks (cfg : FlowGraph) (program : Program) (name : String) :
    Spot Point → List Observation → Spot Point → Prop where
  | execute {instr : Instr} {rest : List Instr} {id : NodeId} {frame frame' : Frame}
      {world world' : World} :
      instr.effect name frame world = .proceed frame' world' →
      Walks cfg program name (.point (instr :: rest, id) frame world)
        [.execute instr frame world] (.point (rest, id) frame' world')
  | call {instr : Instr} {rest : List Instr} {id : NodeId} {frame : Frame} {world : World}
      {callee : String} {args : List Word} {collectors : List String} :
      instr.effect name frame world = .call callee args collectors →
      Walks cfg program name (.point (instr :: rest, id) frame world)
        [.execute instr frame world] (.waiting callee args collectors (rest, id) frame world)
  | fail {instr : Instr} {rest : List Instr} {id : NodeId} {frame : Frame} {world : World}
      {error : EvalError} :
      instr.effect name frame world = .fail error →
      Walks cfg program name (.point (instr :: rest, id) frame world) []
        (.ended (.error error) world)
  | back {callee : String} {args : List Word} {collectors : List String} {resume : Point}
      {frame : Frame} {world world' : World} {result : Result} :
      Eval program (.call callee args) world result world' →
      Walks cfg program name (.waiting callee args collectors resume frame world) []
        (.back callee collectors resume frame result world')
  | along {id next : NodeId} {label : Label} {node : Node} {frame : Frame} {world : World} :
      cfg.node? id = some node → node.kind ≠ .branch → cfg.hasEdge ⟨id, next, label⟩ = true →
      Walks cfg program name (.point ([], id) frame world) []
        (.point (cfg.arrive next) frame world)
  | decide {id next : NodeId} {cond : Expr} {span : Span} {value : Word} {frame : Frame}
      {world : World} :
      cfg.node? id = some (.branch cond span) →
      cond.eval frame.read world.heap.read = .ok value →
      cfg.hasEdge ⟨id, next, some (value != 0)⟩ = true →
      Walks cfg program name (.point ([], id) frame world)
        [.decide cond (value != 0) frame world] (.point (cfg.arrive next) frame world)
  | undecided {id : NodeId} {cond : Expr} {span : Span} {failure : Expr.Failure} {frame : Frame}
      {world : World} :
      cfg.node? id = some (.branch cond span) →
      cond.eval frame.read world.heap.read = .error failure →
      Walks cfg program name (.point ([], id) frame world) []
        (.ended (.error (.ofFailure name failure)) world)
  | ret {id : NodeId} {span : Span} {frame : Frame} {world : World} :
      cfg.node? id = some (.ret span) →
      Walks cfg program name (.point ([], id) frame world) []
        (.ended (.ok frame.results) world)

/-- The node of a spot can be reached from the start. -/
def ReachesSpot (cfg : FlowGraph) : Spot Point → Prop
  | .point point _ _ => cfg.Reaches cfg.start point.2
  | .waiting _ _ _ resume _ _ => cfg.Reaches cfg.start resume.2
  | .ended _ _ => True

section Walks

variable {cfg : FlowGraph} {program : Program} {name : String} {events : List Observation}
  {spot after : Spot Point} {id next : NodeId} {frame : Frame} {world : World}

/-- Returns come back to reached nodes. -/
theorem reachesSpot_back {resume : Point} (h : cfg.Reaches cfg.start resume.2) (callee : String)
    (collectors : List String) (frame : Frame) (result : Result) (world : World) :
    cfg.ReachesSpot (.back callee collectors resume frame result world) := by
  cases result with
  | error error => trivial
  | ok results =>
    rw [Spot.back]
    cases frame.collect callee 0 collectors results with
    | error error => trivial
    | ok received => exact h

/-- The only edge of a node that is no condition. -/
theorem Writable.successors_eq (h : cfg.Writable) {id next : NodeId} {label : Label} {node : Node}
    (hid : cfg.Reaches cfg.start id) (hnode : cfg.node? id = some node)
    (hkind : node.kind ≠ .branch) (hedge : cfg.hasEdge ⟨id, next, label⟩ = true) :
    (node.Onward ∨ node.kind = .spin ∧ next = id) ∧ cfg.successors id = [next] := by
  have hlink := Graph.hasEdge_iff.mp hedge
  obtain ⟨hwritable, hfits⟩ := h hid hnode
  have hone : (∃ next label, cfg.outgoing id = [(next, label)]) → cfg.successors id = [next] := by
    intro ⟨other, label', hout⟩
    rw [hout, List.mem_singleton] at hlink
    cases hlink
    exact Graph.successors_eq hout
  cases node with
  | start | assign | store | call | block =>
    exact ⟨.inl (by simp [Node.Onward, Node.kind]), hone hfits⟩
  | spin span =>
    obtain ⟨label', hout⟩ := hfits
    have hself := hone ⟨id, label', hout⟩
    rw [hout, List.mem_singleton] at hlink
    exact ⟨.inr ⟨rfl, congrArg Prod.fst hlink⟩, hself⟩
  | ret span =>
    rw [show cfg.outgoing id = [] from hfits] at hlink
    cases hlink
  | branch cond span => exact absurd rfl hkind
  | phi | stub => cases hwritable

/-- Control departs from a node that is no condition and has an edge. -/
theorem Writable.depart_along (h : cfg.Writable) {label : Label} {node : Node}
    (hid : cfg.Reaches cfg.start id) (hnode : cfg.node? id = some node)
    (hkind : node.kind ≠ .branch) (hedge : cfg.hasEdge ⟨id, next, label⟩ = true) (frame : Frame)
    (world : World) : cfg.depart name id frame world = cfg.goTo frame world next := by
  obtain ⟨honward | ⟨hspin, rfl⟩, hsucc⟩ := h.successors_eq hid hnode hkind hedge
  · exact depart_onward hnode honward hsucc
  · cases node with
    | spin span => exact depart_spin hnode
    | start | assign | store | call | block | ret | branch | phi | stub => cases hspin

/-- Where control departs from a condition with a value. -/
theorem Writable.depart_decide (h : cfg.Writable) {cond : Expr} {span : Span} {value : Word}
    (hid : cfg.Reaches cfg.start id) (hnode : cfg.node? id = some (.branch cond span))
    (hvalue : cond.eval frame.read world.heap.read = .ok value)
    (hedge : cfg.hasEdge ⟨id, next, some (value != 0)⟩ = true) :
    cfg.depart name id frame world = cfg.goTo frame world next := by
  obtain ⟨onTrue, onFalse, hout⟩ := (h hid hnode).2
  have hlink := Graph.hasEdge_iff.mp hedge
  rw [depart_branch hnode (Graph.successors_eq hout), Action.choose, hvalue]
  rw [hout] at hlink
  by_cases hzero : value = 0
  · obtain rfl : next = onFalse := by simpa [hzero] using hlink
    simp only [if_pos hzero]
  · have hway : (value != 0) := by simpa using hzero
    obtain rfl : next = onTrue := by simpa [hway] using hlink
    simp only [if_neg hzero]

/-- Effects without a failure are executed. -/
theorem executed_eq {instr : Instr} (h : ∀ error, instr.effect name frame world ≠ .fail error) :
    instr.executed name frame world = [.execute instr frame world] := by
  rw [Instr.executed]
  split
  · next error herror => exact absurd herror (h error)
  · rfl

/-- Walks are moves. -/
theorem Writable.moves_of_walks (h : cfg.Writable) (hspot : cfg.ReachesSpot spot)
    (hwalk : cfg.Walks program name spot events after) :
    Moves program (cfg.next name) (cfg.events name) spot events after ∧ cfg.ReachesSpot after := by
  cases hwalk with
  | @execute instr rest id frame frame' world world' heffect =>
    have hmove : Moves program (cfg.next name) (cfg.events name) _ _ _ :=
      .act (instr :: rest, id) frame world
    rw [next, heffect, events, executed_eq (by simp [heffect])] at hmove
    exact ⟨hmove, hspot⟩
  | @call instr rest id frame world callee args collectors heffect =>
    have hmove : Moves program (cfg.next name) (cfg.events name) _ _ _ :=
      .act (instr :: rest, id) frame world
    rw [next, heffect, events, executed_eq (by simp [heffect])] at hmove
    exact ⟨hmove, hspot⟩
  | @fail instr rest id frame world error heffect =>
    have hmove : Moves program (cfg.next name) (cfg.events name) _ _ _ :=
      .act (instr :: rest, id) frame world
    rw [next, heffect, events, Instr.executed, heffect] at hmove
    exact ⟨hmove, trivial⟩
  | back heval => exact ⟨.back heval, reachesSpot_back hspot _ _ _ _ _⟩
  | @along id target label node frame world hnode hkind hedge =>
    have hmove : Moves program (cfg.next name) (cfg.events name) _ _ _ := .act ([], id) frame world
    rw [next, h.depart_along hspot hnode hkind hedge, events_of_kind hnode hkind] at hmove
    exact ⟨hmove, hspot.tail (Graph.mem_successors.mpr ⟨label, Graph.hasEdge_iff.mp hedge⟩)⟩
  | @decide id target cond span value frame world hnode hvalue hedge =>
    have hmove : Moves program (cfg.next name) (cfg.events name) _ _ _ := .act ([], id) frame world
    rw [next, h.depart_decide hspot hnode hvalue hedge, events_branch hnode, Expr.decided,
      hvalue] at hmove
    exact ⟨hmove, hspot.tail (Graph.mem_successors.mpr ⟨_, Graph.hasEdge_iff.mp hedge⟩)⟩
  | @undecided id cond span failure frame world hnode hfailure =>
    obtain ⟨onTrue, onFalse, hout⟩ := (h hspot hnode).2
    have hmove : Moves program (cfg.next name) (cfg.events name) _ _ _ := .act ([], id) frame world
    rw [next, depart_branch hnode (Graph.successors_eq hout), Action.choose, events_branch hnode,
      Expr.decided, hfailure] at hmove
    exact ⟨hmove, trivial⟩
  | @ret id span frame world hnode =>
    have hmove : Moves program (cfg.next name) (cfg.events name) _ _ _ := .act ([], id) frame world
    rw [next, depart_ret hnode, events_of_kind hnode Kind.noConfusion] at hmove
    exact ⟨hmove, trivial⟩

variable (h : cfg.Writable) (hcfg : cfg.Sound)
include h hcfg

/-- A walk is not stuck at a point. -/
theorem Writable.exists_walks {point : Point} (hpoint : cfg.Reaches cfg.start point.2)
    (program : Program) (name : String) (frame : Frame) (world : World) :
    ∃ events after, cfg.Walks program name (.point point frame world) events after := by
  obtain ⟨instrs, id⟩ := point
  cases instrs with
  | cons instr rest =>
    cases heffect : instr.effect name frame world with
    | proceed frame' world' => exact ⟨_, _, .execute heffect⟩
    | call callee args collectors => exact ⟨_, _, .call heffect⟩
    | fail error => exact ⟨_, _, .fail heffect⟩
  | nil =>
    obtain ⟨node, hnode⟩ := exists_node (hpoint.contains hcfg.graph hcfg.start)
    obtain ⟨hwritable, hfits⟩ := h hpoint hnode
    have halong : node.kind ≠ .branch → (∃ next label, cfg.outgoing id = [(next, label)]) →
        ∃ events after, cfg.Walks program name (.point ([], id) frame world) events after := by
      intro hkind ⟨next, label, hout⟩
      have hedge : cfg.hasEdge ⟨id, next, label⟩ = true := Graph.hasEdge_iff.mpr (by simp [hout])
      exact ⟨_, _, .along hnode hkind hedge⟩
    cases node with
    | start | assign | store | call | block => exact halong Kind.noConfusion hfits
    | spin span =>
      obtain ⟨label, hout⟩ := hfits
      exact halong Kind.noConfusion ⟨id, label, hout⟩
    | ret span => exact ⟨_, _, .ret hnode⟩
    | branch cond span =>
      obtain ⟨onTrue, onFalse, hout⟩ := hfits
      cases hvalue : cond.eval frame.read world.heap.read with
      | error failure => exact ⟨_, _, .undecided hnode hvalue⟩
      | ok value =>
        have hedge : cfg.hasEdge ⟨id, if value != 0 then onTrue else onFalse,
            some (value != 0)⟩ = true := by
          rw [Graph.hasEdge_iff, hout]
          cases value != 0 <;> simp
        exact ⟨_, _, .decide hnode hvalue hedge⟩
    | phi | stub => cases hwritable

/-- Moves are walks. -/
theorem Writable.walks_of_moves (hspot : cfg.ReachesSpot spot)
    (hmove : Moves program (cfg.next name) (cfg.events name) spot events after) :
    cfg.Walks program name spot events after ∧ cfg.ReachesSpot after := by
  cases hmove with
  | act point frame world =>
    -- the walk goes on at a point, and there is only one move that it can be
    obtain ⟨events', after', hwalk⟩ := h.exists_walks hcfg hspot program name frame world
    obtain ⟨hother, hafter⟩ := h.moves_of_walks hspot hwalk
    cases hother
    exact ⟨hwalk, hafter⟩
  | back heval => exact ⟨.back heval, reachesSpot_back hspot _ _ _ _ _⟩

/-- Walks from the start are the trails of the graph as a body. -/
theorem Writable.trail_walks_iff (hspot : cfg.ReachesSpot spot) :
    Trail (cfg.Walks program name) spot events after ↔
      Trail (Moves program (cfg.next name) (cfg.events name)) spot events after :=
  ⟨Trail.congr h.moves_of_walks hspot, Trail.congr (h.walks_of_moves hcfg) hspot⟩

end Walks

variable {cfg : FlowGraph}

/-- A graph and its layout show the same and end alike. -/
theorem trail_flatten_iff (hcfg : cfg.Sound) {supply rest : LabelSupply} {body : Stmt}
    (hflatten : cfg.flatten supply = .done (body, rest)) {table : CodeTable} {name : String}
    {frame : Frame} {world : World} {events : List Observation} :
    ((∃ spot, Trail (Machine.CodeMoves table name (.ofBody body))
      (.point 0 frame world) events spot) ↔
      ∃ spot, Trail (Moves (.ofTable table) (cfg.next name) (cfg.events name))
        (.point (cfg.arrive cfg.start) frame world) events spot) ∧
    ∀ result final,
      (Trail (Machine.CodeMoves table name (.ofBody body)) (.point 0 frame world) events
          (.ended result final) ↔
        Trail (Moves (.ofTable table) (cfg.next name) (cfg.events name))
          (.point (cfg.arrive cfg.start) frame world) events (.ended result final)) := by
  obtain ⟨items, labels, htext, hcode⟩ := text_of_flatten hcfg hflatten
  rw [Code.ofBody_eq, hcode]
  have hentry : Layout.At cfg items labels (cfg.arrive cfg.start) 0 := .inr htext.entry
  refine ⟨⟨?_, ?_⟩, fun result final => ⟨?_, ?_⟩⟩
  · intro ⟨spot, htrail⟩
    obtain ⟨after, hafter, -⟩ := Mimics.trail (htext.mimics_text name) (.point hentry) htrail
    exact ⟨after, hafter⟩
  · intro ⟨spot, htrail⟩
    obtain ⟨after, hafter, -⟩ := Mimics.trail (htext.mimics_graph name) (.point hentry) htrail
    exact ⟨after, hafter⟩
  · intro htrail
    obtain ⟨after, hafter, halike⟩ := Mimics.trail (htext.mimics_text name) (.point hentry) htrail
    cases halike
    exact hafter
  · intro htrail
    obtain ⟨after, hafter, halike⟩ := Mimics.trail (htext.mimics_graph name) (.point hentry) htrail
    cases halike
    exact hafter

/-- Only reached nodes have to be writable. -/
theorem WellFormed.writable_of_reached (h : cfg.WellFormed)
    (hphi : ∀ id phis span, cfg.Reaches cfg.start id → cfg.node? id ≠ some (.phi phis span))
    (hblock : ∀ id children span, cfg.Reaches cfg.start id →
      cfg.node? id = some (.block children span) → Node.isStraightList children) :
    cfg.Writable := by
  intro id node hid hnode
  have hfits := h.outgoingFits hnode
  refine ⟨?_, hfits⟩
  cases node with
  | start | assign | store | call | ret | branch | spin => rfl
  | block children span => exact hblock id children span hid hnode
  | phi phis span => exact absurd hnode (hphi id phis span hid)
  | stub span => exact hfits.elim

/-- A well-formed flow graph is laid out, and the machine runs its layout just as a walk goes
through the graph: it executes the same, ends with the same result in the same world, and has no end
if the walk has none. -/
theorem executes_walk_of_flatten (hcfg : cfg.WellFormed)
    (hphi : ∀ id phis span, cfg.Reaches cfg.start id → cfg.node? id ≠ some (.phi phis span))
    (hblock : ∀ id children span, cfg.Reaches cfg.start id →
      cfg.node? id = some (.block children span) → Node.isStraightList children)
    (supply : LabelSupply) :
    (supply.Covers cfg.labelDemand →
      ∃ body, cfg.flatten supply = .done (body, supply.after cfg.labelDemand)) ∧
    (¬ supply.Covers cfg.labelDemand → cfg.flatten supply = .broken .labelsExhausted) ∧
    ∀ body rest, cfg.flatten supply = .done (body, rest) →
      ∀ (table : CodeTable) (name : String) (frame : Frame) (world : World),
        let state : State := ⟨⟨name, .ofBody body, 0, frame⟩, [], world⟩
        let walks := cfg.Walks (.ofTable table) name
        let start := Spot.point (cfg.arrive cfg.start) frame world
        (∀ events, (∃ fuel, Machine.observe table fuel (.running state) = events) ↔
          ∃ spot, Trail walks start events spot) ∧
        (∀ events result final, result ≠ .error .outOfFuel →
          ((∃ fuel left, Machine.run table fuel state = (result, final, left) ∧
              Machine.observe table fuel (.running state) = events) ↔
            Trail walks start events (.ended result final))) ∧
        (Endless walks start → ∀ fuel, (Machine.run table fuel state).1 = .error .outOfFuel) := by
  have hsound := hcfg.sound
  have hwritable : cfg.Writable := hcfg.writable_of_reached hphi hblock
  refine ⟨hwritable.exists_flatten, hwritable.flatten_eq_broken, ?_⟩
  intro body rest hflatten table name frame world state walks start
  have hstart : cfg.ReachesSpot start := .refl cfg.start
  have hcode : 0 < (Code.ofBody body).instrs.size := by
    obtain ⟨items, labels, htext, hcode⟩ := text_of_flatten hsound hflatten
    rw [Code.ofBody_eq, hcode]
    exact htext.length_pos
  have hended : ∀ events result final, result ≠ .error .outOfFuel →
      ((∃ fuel left, Machine.run table fuel state = (result, final, left) ∧
          Machine.observe table fuel (.running state) = events) ↔
        Trail walks start events (.ended result final)) := by
    intro events result final hresult
    rw [(Machine.observe_iff hcode events).2 result final hresult,
      (trail_flatten_iff hsound hflatten).2, ← hwritable.trail_walks_iff hsound hstart]
  refine ⟨fun events => ?_, hended, fun hendless fuel => ?_⟩
  · rw [(Machine.observe_iff hcode events).1, (trail_flatten_iff hsound hflatten).1]
    exact exists_congr fun spot => (hwritable.trail_walks_iff hsound hstart).symm
  · -- a run that does not run out of fuel would give the walk an end
    by_contra hfuel
    have htrail := (hended _ _ _ hfuel).mp ⟨fuel, _, rfl, rfl⟩
    have hmoves : Endless (Moves (.ofTable table) (cfg.next name) (cfg.events name)) start :=
      hendless.congr (fun hspot hwalk => hwritable.moves_of_walks hspot hwalk) hstart
    refine hmoves.not_trail Machine.moves_unique (fun events after hmove => ?_)
      ((hwritable.trail_walks_iff hsound hstart).mp htrail)
    cases hmove

/-- A loop that prints a counter and counts it down, with nested blocks. -/
def printingDown : FlowGraph :=
  .ofNodes .dummy [.assign "i" (.const 2) .dummy, .branch (.temp "i") .dummy,
      .block [.call [] "print" [.temp "i"] .dummy,
        .block [.assign "i" (.binary .sub (.temp "i") (.const 1)) .dummy] .dummy] .dummy,
      .ret .dummy]
    [⟨0, 1, none⟩, ⟨1, 2, none⟩, ⟨2, 3, some true⟩, ⟨2, 4, some false⟩, ⟨3, 2, none⟩]

/-- The walk ends after one statement, two rounds and a last decision. -/
theorem executes_walk_of_flatten_printingDown :
    printingDown.WellFormed ∧
      (∀ id node, printingDown.node? id = some node → node.isWritable) ∧
      ∃ events final, events.length = 8 ∧ final.output = #[2, 1] ∧
        Trail (printingDown.Walks (.ofTable ∅) "f")
          (.point (printingDown.arrive printingDown.start) (.ofArguments []) {}) events
          (.ended (.ok []) final) := by
  have hwell : printingDown.WellFormed := ⟨by decide +kernel, .dummy, rfl⟩
  have hnodes : ∀ id node, printingDown.node? id = some node → node.isWritable :=
    forall_node_of_nodes (by decide +kernel)
  have hexecutes := executes_walk_of_flatten hwell
    (fun id phis span _ hnode => Bool.noConfusion (hnodes id _ hnode))
    (fun id children span _ hnode => hnodes id _ hnode) ⟨0⟩
  obtain ⟨body, hflatten⟩ := hexecutes.1 (by decide +kernel)
  obtain ⟨-, hended, -⟩ := hexecutes.2.2 body _ hflatten ∅ "f" (.ofArguments []) {}
  let state (body : Stmt) : State := ⟨⟨"f", .ofBody body, 0, .ofArguments []⟩, [], {}⟩
  have hrun : (match printingDown.flatten ⟨0⟩ with
      | .done (body, _) => some ((Machine.run ∅ 40 (state body)).1,
          (Machine.run ∅ 40 (state body)).2.1.output,
          (Machine.observe ∅ 40 (.running (state body))).length)
      | _ => none) = some (.ok [], #[2, 1], 8) := by
    decide +kernel
  rw [hflatten] at hrun
  obtain ⟨hresult, hrest⟩ := Prod.mk.inj (Option.some.inj hrun)
  obtain ⟨houtput, hlength⟩ := Prod.mk.inj hrest
  refine ⟨hwell, hnodes, _, _, hlength, houtput, ?_⟩
  exact (hended _ (.ok []) _ (by simp)).mp ⟨40, _, Prod.ext hresult rfl, rfl⟩

end FlowGraph

end Flowgraph

import Flowgraph.Proofs.Flow.Edited
import Flowgraph.Proofs.Flow.Rewiring

/-!
# The entry of a flow graph

The check asks of every start node whether it is the designated one, but never looks at the
designated node, so it accepts graphs without a start node (`FlowGraph.not_pinned_rewriting`). Only
two operations write to the designated node (`Operation.entry_step`), and the entry of a graph that
passes the check is pinned down exactly if the last text written there was that of a start node
(`FlowGraph.check_pins_entry`).
-/

namespace Flowgraph

open List

namespace FlowGraph

variable {cfg cfg' : FlowGraph} {id : NodeId}

/-- The designated start is the only start node, and nothing enters it. -/
structure EntryPinned (cfg : FlowGraph) : Prop where
  kind : cfg.kind? cfg.start = some .start
  entered : cfg.incoming cfg.start = []
  only : ∀ id, cfg.kind? id = some .start → id = cfg.start

/-- The check passes without violations. -/
theorem check_eq_ok_iff : cfg.check = .ok () ↔ cfg.violations = [] := by
  rw [check]
  split
  · next hnone => simp [hnone]
  · next hsome => simp [hsome]

/-- A start node that passes the check is the designated one. -/
theorem start_of_check (hcheck : cfg.check = .ok ()) (hkind : cfg.kind? id = some .start) :
    id = cfg.start ∧ cfg.incoming id = [] := by
  have hviolations := check_eq_ok_iff.mp hcheck
  obtain ⟨span, hnode⟩ := exists_start_of_kind? hkind
  have hnil : cfg.nodeViolations id = [] :=
    flatMap_eq_nil_iff.mp (append_eq_nil_iff.mp hviolations).1 id
      (Graph.mem_nodes.mpr (contains_of_kind? hkind))
  simp only [nodeViolations, hnode, Node.kind, kindViolations, append_eq_nil_iff] at hnil
  have hstart : id = cfg.start := checkDesignated_eq_nil_iff.mp hnil.1.1.2
  subst hstart
  exact ⟨rfl, WellFormed.incoming_start ⟨hviolations, span, hnode⟩⟩

/-- A graph that passes the check is pinned exactly if the designated node is a start node. -/
theorem entryPinned_iff (hcheck : cfg.check = .ok ()) :
    cfg.EntryPinned ↔ cfg.kind? cfg.start = some .start :=
  ⟨EntryPinned.kind, fun hkind =>
    ⟨hkind, (start_of_check hcheck hkind).2, fun _ hother => (start_of_check hcheck hother).1⟩⟩

/-! ### Passes that leave the entry alone -/

/-- The same node is designated, and its kind is the same. -/
structure SameEntry (cfg cfg' : FlowGraph) : Prop where
  start : cfg'.start = cfg.start
  kind : cfg'.kind? cfg.start = cfg.kind? cfg.start

namespace SameEntry

/-- Nothing happens to the entry. -/
theorem refl (cfg : FlowGraph) : SameEntry cfg cfg := ⟨rfl, rfl⟩

/-- Entries stay the same in two steps. -/
theorem trans {cfg'' : FlowGraph} (h : SameEntry cfg cfg') (h' : SameEntry cfg' cfg'') :
    SameEntry cfg cfg'' := by
  refine ⟨h'.start.trans h.start, ?_⟩
  rw [← h.kind, ← h.start, h'.kind]

/-- The entry node is the same. -/
theorem of_node? (hstart : cfg'.start = cfg.start)
    (hnode : cfg'.node? cfg.start = cfg.node? cfg.start) : SameEntry cfg cfg' :=
  ⟨hstart, by rw [kind?, hnode, kind?]⟩

/-- The kind of the entry stays. -/
theorem kind?_start (h : SameEntry cfg cfg') : cfg'.kind? cfg'.start = cfg.kind? cfg.start := by
  rw [h.start, h.kind]

/-- The entry stays live. -/
theorem contains_start (h : SameEntry cfg cfg') (hlive : cfg.contains cfg.start) :
    cfg'.contains cfg'.start := by
  obtain ⟨node, hnode⟩ := exists_node hlive
  exact contains_of_kind? (h.kind?_start.trans (kind?_eq_some hnode))

end SameEntry

/-- Cleaning keeps the entry. -/
theorem Sound.sameEntry_clean (h : cfg.Sound) : SameEntry cfg cfg.clean :=
  .of_node? rfl (h.node?_clean (.refl _))

/-- Placing phi blocks keeps the entry. -/
theorem Sound.sameEntry_placePhis (h : cfg.Sound) : SameEntry cfg cfg.placePhis.1 := by
  suffices hall : ∀ (placements : List (NodeId × List String)) (cfg : FlowGraph) (count : Nat),
      cfg.Sound → (∀ placement ∈ placements, cfg.contains placement.1) →
      SameEntry cfg (placements.foldl placePhi (cfg, count)).1 from
    hall _ cfg 0 h fun _ => Sound.contains_of_mem_placements
  intro placements
  induction placements with
  | nil => exact fun cfg _ _ _ => .refl cfg
  | cons placement rest ih =>
    intro cfg count h hlive
    obtain ⟨hfirst, hrest⟩ := forall_mem_cons.mp hlive
    obtain ⟨hgrown, hsound⟩ := h.grown_placePhi count hfirst
    have hstep : SameEntry cfg (placePhi (cfg, count) placement).1 := by
      rw [placePhi]
      dsimp only
      split
      · exact .refl cfg
      · exact .of_node? rfl (node?_prependChain_of_contains h.start)
    exact hstep.trans (ih _ _ hsound fun other hother => hgrown.live (hrest other hother))

/-- Conversion keeps the entry. -/
theorem Sound.sameEntry_toSsa (h : cfg.Sound) {count : Nat} (hssa : cfg.toSsa = .ok (cfg', count)) :
    SameEntry cfg cfg' := by
  rw [FlowGraph.toSsa] at hssa
  split at hssa
  · cases hssa
  · cases hssa
    refine h.sameEntry_placePhis.trans ⟨(sameShape_rename ..).start, ?_⟩
    exact SameOutline.kind? (sameOutline_rename _ _) _

/-- Leading edges past keeps the entry. -/
theorem sameEntry_foldl_bypass (hlive : cfg.contains cfg.start) (phi : Phi) (successor : NodeId)
    (span : Span) (entries : List (Link × Nat)) :
    SameEntry cfg (entries.foldl (bypass phi successor span) cfg) := by
  induction entries generalizing cfg with
  | nil => exact .refl cfg
  | cons entry rest ih =>
    have hjoined : SameEntry cfg (cfg.withGraph (cfg.addEdge ⟨entry.1.1, successor, entry.1.2⟩)) :=
      .of_node? rfl (Graph.payload?_addEdge ..)
    have hstep : SameEntry cfg (bypass phi successor span cfg entry) := by
      rw [bypass]
      split
      · exact hjoined
      · exact hjoined.trans
          (.of_node? (start_splitEdge ..)
          (node?_splitEdge_of_contains (hjoined.contains_start hlive)))
    exact hstep.trans (ih (hstep.contains_start hlive))

/-- A phi block that is the designated start is not replaced. -/
theorem sameEntry_revertPhi (hlive : cfg.contains cfg.start) {phi : Phi}
    (hrevert : cfg.revertPhi id phi = .done cfg') : SameEntry cfg cfg' := by
  rw [revertPhi] at hrevert
  split at hrevert
  · split at hrevert
    · cases hrevert
    split at hrevert
    · cases hrevert
    next hne =>
    cases hrevert
    have herased : SameEntry cfg (cfg.withGraph (cfg.erase id)) := by
      refine .of_node? rfl ?_
      exact (Graph.payload?_erase ..).trans (if_neg hne)
    exact herased.trans (sameEntry_foldl_bypass (herased.contains_start hlive) _ _ _ _)
  · cases hrevert

/-- Reversion keeps the entry. -/
theorem Sound.sameEntry_fromSsa (h : cfg.Sound) : SameEntry cfg cfg.fromSsa.1 := by
  suffices hall : ∀ (phis : List (NodeId × Phi)) (cfg : FlowGraph), cfg.contains cfg.start →
      SameEntry cfg (cfg.revertAll phis).1 from hall _ cfg h.start
  intro phis
  induction phis with
  | nil => exact fun cfg _ => .refl cfg
  | cons entry rest ih =>
    intro cfg hlive
    rw [revertAll]
    split
    · next next hnext =>
      have hstep := sameEntry_revertPhi hlive hnext
      exact hstep.trans (ih next (hstep.contains_start hlive))
    · exact .refl cfg
    · exact .refl cfg

end FlowGraph

/-! ### Operations -/

/-- One operation on a flow graph. -/
inductive Operation where
  | edit (request : Graph.Edit Node)
  | splice (splice : Splice)
  | clean
  | toSsa
  | fromSsa

namespace Operation

open Graph (Edit)

variable {cfg after : FlowGraph} {op : Operation} {kind : Kind} {graph : Graph Node}
  {request : Edit Node} {change : Splice}

/-- Whether a request is one to remove a node. -/
def removes (id : NodeId) : Edit Node → Bool
  | .remove other => other = id
  | _ => false

/-- The graph behind an operation, also a refused one. There is none against its contract: the
designated start is not removed, and control reaches no stub in a conversion. -/
def run? (cfg : FlowGraph) : Operation → Option FlowGraph
  | edit request => if removes cfg.start request then none else some (cfg.edited [request])
  | splice change =>
    match change.perform.run cfg with
    | .ok _ after | .error _ after => some after
  | clean => some cfg.clean
  | toSsa => cfg.toSsa.toOption.map Prod.fst
  | fromSsa => some cfg.fromSsa.1

/-- The kind that an operation writes at the designated start, if any. -/
def written? (cfg : FlowGraph) : Operation → Option Kind
  | edit (.offer id node) | edit (.assign id node) | splice (.replace id node) =>
    if id = cfg.start then some node.kind else none
  | _ => none

/-- An operation keeps graphs sound, and the entry is as written or as before. -/
structure EntryStep (cfg after : FlowGraph) (op : Operation) : Prop where
  sound : after.Sound
  kind : after.kind? after.start = (op.written? cfg).or (cfg.kind? cfg.start)

/-- A step that keeps the entry. -/
theorem EntryStep.of_sameEntry (hsound : after.Sound) (h : FlowGraph.SameEntry cfg after)
    (hwritten : op.written? cfg = none) : EntryStep cfg after op :=
  ⟨hsound, by rw [h.kind?_start, hwritten, Option.none_or]⟩

/-- Writing at a node writes at the start if that is the node. -/
theorem kind?_setPayload (h : cfg.Sound) (id : NodeId) (node : Node) :
    (cfg.withGraph (cfg.setPayload id node)).kind? cfg.start =
      (if id = cfg.start then some node.kind else none).or (cfg.kind? cfg.start) := by
  obtain ⟨old, hold⟩ := FlowGraph.exists_node h.start
  have hpayload : (cfg.setPayload id node).payload? cfg.start =
      if id = cfg.start then some node else some old := by
    rw [Graph.payload?_setPayload, show cfg.payload? cfg.start = some old from hold]
    rfl
  rw [FlowGraph.kind?, FlowGraph.node?, FlowGraph.withGraph, hpayload, FlowGraph.kind?, hold]
  split <;> rfl

/-- A step on the graph alone. -/
theorem EntryStep.of_withGraph (h : cfg.Sound) (hgraph : graph.Sound)
    (hkind : (cfg.withGraph graph).kind? cfg.start = (op.written? cfg).or (cfg.kind? cfg.start)) :
    EntryStep cfg (cfg.withGraph graph) op := by
  obtain ⟨node, hnode⟩ := FlowGraph.exists_node h.start
  obtain ⟨kind, hsome⟩ : ∃ kind, (op.written? cfg).or (cfg.kind? cfg.start) = some kind := by
    rw [FlowGraph.kind?_eq_some hnode]
    cases op.written? cfg with
    | none => exact ⟨_, rfl⟩
    | some kind => exact ⟨_, rfl⟩
  exact ⟨⟨hgraph, FlowGraph.contains_of_kind? (hkind.trans hsome)⟩, hkind⟩

section

variable (h : cfg.Sound) (hstart : removes cfg.start request = false)
include h hstart

/-- A request leaves the entry alone or writes to it. -/
theorem kind?_applied {reply : Edit.Reply Node}
    (happlied : Edit.Applied cfg.toGraph request reply graph) :
    (cfg.withGraph graph).kind? cfg.start =
      (written? cfg (.edit request)).or (cfg.kind? cfg.start) := by
  have hsame : graph.payload? cfg.start = cfg.payload? cfg.start →
      (cfg.withGraph graph).kind? cfg.start = cfg.kind? cfg.start := fun hpayload =>
    congrArg (Option.map Node.kind) hpayload
  cases happlied with
  | insert node =>
    refine hsame ?_
    rw [Graph.payload?_insert, if_neg (Graph.ne_nextId_of_contains h.start)]
  | @remove id node hnode =>
    have hne : id ≠ cfg.start := of_decide_eq_false hstart
    exact hsame ((Graph.payload?_erase ..).trans (if_neg hne))
  | join hsource htarget => exact hsame (Graph.payload?_addEdge ..)
  | unlink hne => exact hsame (Graph.payload?_eraseEdges ..)
  | unlinkEdge hedge => exact hsame (Graph.payload?_eraseEdge ..)
  | offer id node => exact kind?_setPayload h id node
  | assign hold => exact kind?_setPayload h _ _

/-- Requests leave the entry alone unless they write to it. -/
theorem entryStep_edit : EntryStep cfg (cfg.edited [request]) (.edit request) := by
  rcases Edit.run_cases h.graph request with
    ⟨reply, graph, hrun, happlied⟩ | ⟨error, hrun, hrefused⟩
  · have hedited : cfg.edited [request] = cfg.withGraph graph := by
      rw [FlowGraph.edited, Edit.runAll, hrun]
      rfl
    rw [hedited]
    exact .of_withGraph h (happlied.sound h.graph) (kind?_applied h hstart happlied)
  · have hedited : cfg.edited [request] = cfg := by
      rw [FlowGraph.edited, Edit.runAll, hrun]
      rfl
    rw [hedited]
    refine .of_sameEntry h (.refl cfg) ?_
    cases hrefused with
    | @assign id node hdead =>
      -- The designated start is live, so that writing to it is not refused.
      have hne : id ≠ cfg.start := by
        rintro rfl
        rw [h.start] at hdead
        cases hdead
      exact if_neg hne
    | remove | joinTarget | joinSource | unlinkSource | unlink | unlinkEdgeSource | unlinkEdge =>
      rfl

end

/-- A splice writes at the designated start only if it replaces that. -/
theorem written?_splice (hkept : change.removed? ≠ some cfg.start) :
    written? cfg (.splice change) = none := by
  cases change with
  | replace id node => exact if_neg fun heq => hkept (congrArg some heq)
  | prepend | postpend | innerInsert => rfl

/-- Splices leave the entry alone unless they replace it. -/
theorem entryStep_splice (h : cfg.Sound) (hrun : run? cfg (.splice change) = some after) :
    EntryStep cfg after (.splice change) := by
  rw [run?, Splice.perform_eq h] at hrun
  by_cases hdone : change.present cfg ∧ change.chain ≠ []
  · rw [if_pos hdone.1, if_neg hdone.2] at hrun
    cases hrun
    have he := Splice.effect_result h hdone.1 hdone.2
    refine ⟨Splice.sound_result h hdone.1 hdone.2, ?_⟩
    rw [he.kind?_start h]
    split
    · next hremoved =>
      cases change with
      | replace id node =>
        rw [written?, if_pos (Option.some.inj hremoved)]
        rfl
      | prepend | postpend | innerInsert => cases hremoved
    · next hother => rw [written?_splice hother, Option.none_or]
  · have hsame : after = cfg := by
      by_cases hpresent : change.present cfg
      · rw [if_pos hpresent, if_pos (by_contra fun hchain => hdone ⟨hpresent, hchain⟩)] at hrun
        exact (Option.some.inj hrun).symm
      · rw [if_neg hpresent] at hrun
        exact (Option.some.inj hrun).symm
    subst hsame
    refine .of_sameEntry h (.refl after) (written?_splice fun hremoved => hdone ?_)
    cases change with
    | replace id node =>
      refine ⟨?_, cons_ne_nil _ _⟩
      rw [Splice.present, Option.some.inj hremoved, h.start]
    | prepend | postpend | innerInsert => cases hremoved

/-- Without writing, the kind of the designated start stays. -/
theorem entry_step (h : cfg.Sound) (hrun : op.run? cfg = some after) : EntryStep cfg after op := by
  cases op with
  | edit request =>
    rw [run?] at hrun
    split at hrun
    · cases hrun
    · next hkept =>
      cases hrun
      exact entryStep_edit h (Bool.not_eq_true _ ▸ hkept)
  | splice change => exact entryStep_splice h hrun
  | clean =>
    cases hrun
    exact .of_sameEntry h.clean h.sameEntry_clean rfl
  | toSsa =>
    rw [run?] at hrun
    cases hssa : cfg.toSsa with
    | error breach =>
      rw [hssa] at hrun
      cases hrun
    | ok result =>
      rw [hssa] at hrun
      cases hrun
      exact .of_sameEntry (h.toSsa hssa) (h.sameEntry_toSsa hssa) rfl
  | fromSsa =>
    cases hrun
    exact .of_sameEntry h.fromSsa h.sameEntry_fromSsa rfl

/-- Carry out an operation and keep the kind last written at the start. -/
def track (state : FlowGraph × Kind) (op : Operation) : Option (FlowGraph × Kind) :=
  (op.run? state.1).map fun after => (after, (op.written? state.1).getD state.2)

/-- The designated start has the kind last written there. -/
theorem entry_run {ops : List Operation} {last : Kind} (h : cfg.Sound)
    (hkind : cfg.kind? cfg.start = some kind)
    (hrun : ops.foldlM track (cfg, kind) = some (after, last)) :
    after.kind? after.start = some last := by
  induction ops generalizing cfg kind with
  | nil =>
    cases hrun
    exact hkind
  | cons op rest ih =>
    rw [foldlM_cons, Option.bind_eq_bind, Option.bind_eq_some_iff] at hrun
    obtain ⟨state, hfirst, hrest⟩ := hrun
    obtain ⟨next, hnext, rfl⟩ := Option.map_eq_some_iff.mp hfirst
    have hstep := entry_step h hnext
    refine ih hstep.sound ?_ hrest
    rw [hstep.kind, hkind]
    cases written? cfg op <;> rfl

end Operation

namespace FlowGraph

open Operation (track)

/-- A graph that passes the check has no start node but the designated one, and nothing enters that.
If operations have made it from another graph, its entry is pinned down exactly if the text that was
last written at the designated start is that of a start node. -/
theorem check_pins_entry {cfg after : FlowGraph} {ops : List Operation} {kind last : Kind}
    (h : cfg.Assembled) (hkind : cfg.kind? cfg.start = some kind)
    (hrun : ops.foldlM track (cfg, kind) = some (after, last)) (hcheck : after.check = .ok ()) :
    (∀ id, after.kind? id = some .start → id = after.start ∧ after.incoming id = []) ∧
      (after.EntryPinned ↔ last = .start) := by
  refine ⟨fun id => start_of_check hcheck, ?_⟩
  rw [entryPinned_iff hcheck, Operation.entry_run h.sound hkind hrun, Option.some.injEq]

/-- Two nodes are put behind the start, and another start node takes its place. -/
def restarting : List Operation :=
  [.edit (.insert (.assign "x" (.const 1) .dummy)), .edit (.insert (.ret .dummy)),
    .edit (.join ⟨0, 1, none⟩), .edit (.join ⟨1, 2, none⟩), .splice (.replace 0 (.start ⟨3, 4⟩))]

/-- The new start node is the designated one. -/
theorem check_pins_entry_restarting : (ofStart .dummy).Assembled ∧
    ∃ after, restarting.foldlM track (ofStart .dummy, .start) = some (after, .start) ∧
      after.check = .ok () ∧ after.start = 3 ∧ after.EntryPinned := by
  have hresult : (restarting.foldlM track (ofStart .dummy, .start)).any (fun state =>
      decide (state.2 = .start ∧ state.1.violations = [] ∧ state.1.start = 3)) := by decide +kernel
  obtain ⟨⟨after, last⟩, hrun, hstate⟩ := (Option.any_eq_true ..).mp hresult
  obtain ⟨rfl, hviolations, hstart⟩ := of_decide_eq_true hstate
  have hcheck := check_eq_ok_iff.mpr hviolations
  exact ⟨.ofStart _, after, hrun, hcheck, hstart,
    (check_pins_entry (.ofStart .dummy) rfl hrun hcheck).2.mpr rfl⟩

/-- An assignment leads back to the start, and another takes its place. -/
def rewriting : List Operation :=
  [.edit (.insert (.assign "x" (.const 1) .dummy)), .edit (.join ⟨0, 1, none⟩),
    .edit (.join ⟨1, 0, none⟩), .splice (.replace 0 (.assign "y" (.const 2) .dummy))]

/-- The check passes a graph whose start is an assignment that is entered. -/
theorem not_pinned_rewriting :
    ∃ after, rewriting.foldlM track (ofStart .dummy, .start) = some (after, .assign) ∧
      after.check = .ok () ∧ after.kind? after.start = some .assign ∧
      after.incoming after.start = [(1, none)] ∧ ¬ after.EntryPinned := by
  have hresult : (rewriting.foldlM track (ofStart .dummy, .start)).any (fun state =>
      decide (state.2 = .assign ∧ state.1.violations = [] ∧
        state.1.kind? state.1.start = some .assign ∧
        state.1.incoming state.1.start = [(1, none)])) := by decide +kernel
  obtain ⟨⟨after, last⟩, hrun, hstate⟩ := (Option.any_eq_true ..).mp hresult
  obtain ⟨rfl, hviolations, hkind, hentered⟩ := of_decide_eq_true hstate
  refine ⟨after, hrun, check_eq_ok_iff.mpr hviolations, hkind, hentered, fun hpinned => ?_⟩
  have hstart := hpinned.kind.symm.trans hkind
  cases hstart

end FlowGraph

end Flowgraph

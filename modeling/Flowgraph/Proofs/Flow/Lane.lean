import Flowgraph.Proofs.Flow.Sound

/-!
# Chains on edges

A lane is a way through nodes that each have one way out, without a label. Putting a chain into an
edge makes a lane out of it (`FlowGraph.Detour`): the edge leads to the lane, the lane to the old
target, and the edges that enter any other node stay in their order.
-/

namespace Flowgraph

open List Graph

namespace Graph

variable {α : Type} {g : Graph α} {id : NodeId} {first count : Nat}

/-! ### What an inserted chain looks like -/

/-- New nodes add no links out. -/
@[simp] theorem outgoing_foldl_insert (chain : List α) :
    (chain.foldl Graph.insert g).outgoing id = g.outgoing id :=
  foldl_keeps (f := (·.outgoing id)) (fun _ _ _ => outgoing_insert ..) g

/-- New nodes add no links in. -/
@[simp] theorem incoming_foldl_insert (chain : List α) :
    (chain.foldl Graph.insert g).incoming id = g.incoming id :=
  foldl_keeps (f := (·.incoming id)) (fun _ _ _ => incoming_insert ..) g

/-- New nodes keep the old payloads. -/
theorem payload?_foldl_insert_of_lt (chain : List α) (h : id < g.nextId) :
    (chain.foldl Graph.insert g).payload? id = g.payload? id := by
  induction chain generalizing g with
  | nil => rfl
  | cons payload rest ih =>
    have hlt : id < (g.insert payload).nextId := by
      rw [nextId_insert]
      exact Nat.lt_succ_of_lt h
    rw [foldl_cons, ih hlt, payload?_insert, if_neg (Nat.ne_of_lt h)]

/-- The nodes of a chain get the next numbers in order. -/
theorem payload?_foldl_insert_add (chain : List α) {k : Nat} (hk : k < chain.length) :
    (chain.foldl Graph.insert g).payload? (g.nextId + k) = chain[k]? := by
  induction chain generalizing g k with
  | nil => cases hk
  | cons payload rest ih =>
    rw [foldl_cons]
    cases k with
    | zero =>
      have hlt : g.nextId + 0 < (g.insert payload).nextId := by
        rw [nextId_insert]
        exact Nat.lt_succ_self _
      rw [payload?_foldl_insert_of_lt rest hlt, payload?_insert, if_pos (Nat.add_zero _)]
      rfl
    | succ k =>
      have hnext : g.nextId + (k + 1) = (g.insert payload).nextId + k := by
        rw [nextId_insert, Nat.add_assoc, Nat.add_comm 1]
      rw [hnext, ih (Nat.lt_of_succ_lt_succ hk)]
      rfl

/-- Joining a run keeps the payloads. -/
@[simp] theorem payload?_joinRun (first count : Nat) :
    (g.joinRun first count).payload? id = g.payload? id := by
  induction count generalizing g first with
  | zero => rfl
  | succ count ih => rw [joinRun, ih, payload?_addEdge]

/-- Every node of a run leads to the next. -/
theorem mem_outgoing_joinRun (hlive : ∀ k ≤ count, g.contains (first + k)) {link : Link} :
    link ∈ (g.joinRun first count).outgoing id ↔
      link ∈ g.outgoing id ∨ ∃ k < count, id = first + k ∧ link = (first + k + 1, none) := by
  induction count generalizing g first with
  | zero => simp [joinRun]
  | succ count ih =>
    rw [joinRun, ih (contains_addEdge_run hlive), mem_outgoing_addEdge (hlive 0 (Nat.zero_le _)),
      or_assoc]
    refine or_congr_right ?_
    constructor
    · intro h
      rcases h with ⟨rfl, rfl⟩ | ⟨k, hk, rfl, rfl⟩
      · exact ⟨0, Nat.succ_pos _, rfl, rfl⟩
      · have hsum : first + 1 + k = first + (k + 1) := Nat.add_right_comm first 1 k
        exact ⟨k + 1, by omega, hsum, by rw [hsum]⟩
    · intro h
      obtain ⟨k, hk, hid, hlink⟩ := h
      cases k with
      | zero => exact .inl ⟨hid, hlink⟩
      | succ k =>
        have hsum : first + 1 + k = first + (k + 1) := Nat.add_right_comm first 1 k
        exact .inr ⟨k, by omega, hid.trans hsum.symm, by rw [hlink, hsum]⟩

/-- Nothing enters a run. -/
theorem incoming_joinRun_of_le (h : id ≤ first) :
    (g.joinRun first count).incoming id = g.incoming id := by
  induction count generalizing g first with
  | zero => rfl
  | succ count ih =>
    rw [joinRun, ih (Nat.le_succ_of_le h),
      incoming_addEdge_of_ne (Nat.ne_of_gt (Nat.lt_succ_of_le h))]

end Graph

namespace FlowGraph

variable {cfg cfg' : FlowGraph} {id target : NodeId} {nodes : List Node}

/-- A lane to a target, with the texts and the numbers of its nodes. -/
inductive Lane (cfg : FlowGraph) (target : NodeId) : NodeId → List Node → List NodeId → Prop where
  | nil : Lane cfg target target [] []
  | cons {id next : NodeId} {node : Node} {nodes : List Node} {ids : List NodeId} :
      cfg.node? id = some node → cfg.outgoing id = [(next, none)] →
      Lane cfg target next nodes ids → Lane cfg target id (node :: nodes) (id :: ids)

namespace Lane

variable {first : NodeId} {ids : List NodeId}

section

variable (h : cfg.Lane target first nodes ids)
include h

/-- A lane stays as long as its nodes do. -/
theorem congr (hnode : ∀ id ∈ ids, cfg'.node? id = cfg.node? id)
    (houtgoing : ∀ id ∈ ids, cfg'.outgoing id = cfg.outgoing id) :
    cfg'.Lane target first nodes ids := by
  induction h with
  | nil => exact .nil
  | @cons id next node nodes ids hid hnext _ ih =>
    obtain ⟨hnode, hnodes⟩ := forall_mem_cons.mp hnode
    obtain ⟨hout, houts⟩ := forall_mem_cons.mp houtgoing
    exact .cons (hnode.trans hid) (hout.trans hnext) (ih hnodes houts)

/-- A lane is empty or has a first node. -/
theorem first_cases : first = target ∨ first ∈ ids := by
  cases h with
  | nil => exact .inl rfl
  | cons => exact .inr mem_cons_self

/-- What stands at a node of a lane, and where it leads. -/
theorem node_of_mem (hid : id ∈ ids) : ∃ node ∈ nodes, cfg.node? id = some node ∧
      ∃ next, cfg.outgoing id = [(next, none)] ∧ (next = target ∨ next ∈ ids) := by
  induction h with
  | nil => cases hid
  | @cons other next node nodes ids hnode hnext hrest ih =>
    rcases mem_cons.mp hid with rfl | hid
    · exact ⟨node, mem_cons_self, hnode, next, hnext,
        hrest.first_cases.imp_right (mem_cons_of_mem _)⟩
    · obtain ⟨found, hfound, hspec, next', hnext', hcases⟩ := ih hid
      exact ⟨found, mem_cons_of_mem _ hfound, hspec, next', hnext',
        hcases.imp_right (mem_cons_of_mem _)⟩

/-- Lanes lead to their target. -/
theorem reaches_target : cfg.Reaches first target := by
  induction h with
  | nil => exact .refl _
  | cons _ hnext _ ih =>
    exact ((Reaches.refl _).tail (mem_successors_of_eq hnext)).trans ih

/-- Lanes reach all their nodes. -/
theorem reaches_of_mem (hid : id ∈ ids) : cfg.Reaches first id := by
  induction h with
  | nil => cases hid
  | cons _ hnext _ ih =>
    rcases mem_cons.mp hid with rfl | hid
    · exact .refl _
    · exact ((Reaches.refl _).tail (mem_successors_of_eq hnext)).trans (ih hid)

end

/-- One lane and then another. -/
theorem append {middle : NodeId} {others : List Node} {otherIds : List NodeId}
    (h : cfg.Lane middle first nodes ids) (hrest : cfg.Lane target middle others otherIds) :
    cfg.Lane target first (nodes ++ others) (ids ++ otherIds) := by
  induction h with
  | nil => exact hrest
  | cons hnode hnext _ ih => exact .cons hnode hnext ih

/-- Nodes of a lane, and its target, begin it or are behind another. -/
theorem entered_of_mem (h : cfg.Lane target first nodes ids) (hid : id = target ∨ id ∈ ids) :
    id = first ∨ ∃ source ∈ ids, (id, none) ∈ cfg.outgoing source := by
  induction h with
  | nil => exact .inl (hid.resolve_right not_mem_nil)
  | @cons other next node nodes ids hnode hnext _ ih =>
    rw [mem_cons, or_left_comm] at hid
    rcases hid with rfl | hid
    · exact .inl rfl
    · rcases ih hid with rfl | ⟨source, hsource, hedge⟩
      · exact .inr ⟨other, mem_cons_self, by rw [hnext]; exact mem_singleton_self _⟩
      · exact .inr ⟨source, mem_cons_of_mem _ hsource, hedge⟩

/-- Neighbouring numbers that lead one to the next are a lane. -/
theorem of_run {first : Nat} (hnode : ∀ k < nodes.length, cfg.node? (first + k) = nodes[k]?)
    (hnext : ∀ k, k + 1 < nodes.length → cfg.outgoing (first + k) = [(first + k + 1, none)])
    (hlast : ∀ k, k + 1 = nodes.length → cfg.outgoing (first + k) = [(target, none)])
    (hne : nodes ≠ []) :
    cfg.Lane target first nodes (List.range' first nodes.length) := by
  induction nodes generalizing first with
  | nil => exact absurd rfl hne
  | cons node rest ih =>
    have hfirst : cfg.node? first = some node := hnode 0 (Nat.succ_pos _)
    rw [length_cons, range'_succ]
    by_cases hrest : rest = []
    · subst hrest
      exact .cons hfirst (hlast 0 rfl) .nil
    · have hlength := length_pos_of_ne_nil hrest
      refine .cons hfirst (hnext 0 (by simpa using hlength)) (ih (fun k hk => ?_) (fun k hk => ?_)
        (fun k hk => ?_) hrest)
      · rw [Nat.add_right_comm]
        exact hnode (k + 1) (Nat.succ_lt_succ hk)
      · rw [Nat.add_right_comm first 1 k]
        exact hnext (k + 1) (Nat.succ_lt_succ hk)
      · rw [Nat.add_right_comm first 1 k]
        exact hlast (k + 1) (by rw [length_cons, hk])

end Lane

/-- A new way out of a node, by a lane of new nodes to a target. -/
structure Detour (cfg cfg' : FlowGraph) (link : Link) (target first : NodeId) (nodes : List Node)
    (ids : List NodeId) : Prop where
  sound : cfg'.Sound
  start : cfg'.start = cfg.start
  node : ∀ {id}, cfg.contains id → cfg'.node? id = cfg.node? id
  live : ∀ {id}, cfg'.contains id → cfg.contains id ∨ id ∈ ids
  fresh : ∀ id ∈ ids, cfg.contains id = false
  outgoing : ∀ {id other}, cfg.contains id → (other ∈ cfg'.outgoing id ↔
    other ∈ cfg.outgoing id ∨ (id = link.1 ∧ other = (first, link.2)))
  incoming : ∀ {id}, cfg.contains id → id ≠ target → cfg'.incoming id = cfg.incoming id
  lane : cfg'.Lane target first nodes ids

/-- A new edge is a way without nodes. -/
theorem Sound.detour_addEdge (h : cfg.Sound) {link : Link} (hsource : cfg.contains link.1)
    (htarget : cfg.contains target) :
    Detour cfg (cfg.withGraph (cfg.addEdge ⟨link.1, target, link.2⟩)) link target target [] [] where
  sound := h.grown ((Grown.refl h.graph).addEdge hsource htarget)
  start := rfl
  node _ := payload?_addEdge ..
  live hid := .inl ((Graph.contains_addEdge ..).symm.trans hid)
  fresh := by simp
  outgoing _ := mem_outgoing_addEdge hsource
  incoming _ hne := incoming_addEdge_of_ne (Ne.symm hne)
  lane := .nil

section Split

variable {edge : Edge} {link : Link}

/-- Splitting keeps the old nodes. -/
theorem node?_splitEdge_of_contains (hid : cfg.contains id) :
    (cfg.splitEdge edge nodes).node? id = cfg.node? id := by
  have hlt := lt_nextId_of_contains hid
  simp only [node?, toGraph_splitEdge, payload?_addEdge, payload?_redirect,
    Graph.insertChain, payload?_joinRun]
  exact payload?_foldl_insert_of_lt nodes hlt

/-- Splitting adds the nodes of the chain. -/
theorem node?_splitEdge_add {k : Nat} (hk : k < nodes.length) :
    (cfg.splitEdge edge nodes).node? (cfg.nextId + k) = nodes[k]? := by
  simp only [node?, toGraph_splitEdge, payload?_addEdge, payload?_redirect,
    Graph.insertChain, payload?_joinRun]
  exact payload?_foldl_insert_add nodes hk

/-- The live nodes after splitting. -/
theorem contains_splitEdge : (cfg.splitEdge edge nodes).contains id =
    (decide (cfg.nextId ≤ id ∧ id < cfg.nextId + nodes.length) || cfg.contains id) := by
  simp only [toGraph_splitEdge, Graph.contains_addEdge, contains_redirect,
    contains_insertChain]

/-- The ways out after a chain was put into an edge. -/
theorem Sound.mem_outgoing_splitEdge (h : cfg.Sound) (hsource : cfg.contains edge.source)
    (hnodes : nodes ≠ []) : link ∈ (cfg.splitEdge edge nodes).outgoing id ↔
      (((link ∈ cfg.outgoing id ∨ ∃ k < nodes.length - 1, id = cfg.nextId + k ∧
          link = (cfg.nextId + k + 1, none)) ∧
        ¬ (id = edge.source ∧ link = (edge.target, edge.label))) ∨
        (id = edge.source ∧ link = (cfg.nextId, edge.label))) ∨
      (id = cfg.nextId + (nodes.length - 1) ∧ link = (edge.target, none)) := by
  have hinsert := Grown.insertChain h.graph nodes
  obtain ⟨hfirst, hlast⟩ := contains_chainEnds (g := cfg.toGraph) hnodes
  have hlive : ∀ k ≤ nodes.length - 1,
      (nodes.foldl Graph.insert cfg.toGraph).contains (cfg.nextId + k) := fun k hk =>
    contains_foldl_insert_add (Nat.lt_of_le_pred (length_pos_of_ne_nil hnodes) hk)
  have hredirected : (cfg.insertChain nodes).contains
      (Edge.mk edge.source (cfg.chainEnds nodes).1 edge.label).source := hinsert.live hsource
  rw [toGraph_splitEdge, mem_outgoing_addEdge (by simpa using hlast),
    mem_outgoing_redirect hinsert.sound hredirected, Graph.insertChain,
    mem_outgoing_joinRun hlive, outgoing_foldl_insert]
  rfl

/-- Splitting enters the target only. -/
theorem incoming_splitEdge_of_ne (hid : cfg.contains id) (hne : id ≠ edge.target) :
    (cfg.splitEdge edge nodes).incoming id = cfg.incoming id := by
  have hlt := lt_nextId_of_contains hid
  have htarget : (Edge.mk (cfg.chainEnds nodes).2 edge.target none).target ≠ id := Ne.symm hne
  have hfirst : (Edge.mk edge.source (cfg.chainEnds nodes).1 edge.label).target ≠ id :=
    Nat.ne_of_gt hlt
  rw [toGraph_splitEdge, incoming_addEdge_of_ne htarget, Graph.redirect,
    incoming_addEdge_of_ne hfirst, incoming_eraseEdge, if_neg (Ne.symm hne),
    Graph.insertChain, incoming_joinRun_of_le (Nat.le_of_lt hlt),
    incoming_foldl_insert]

/-- A new edge with a chain put into it is a way by a lane. -/
theorem Sound.detour_splitEdge (h : cfg.Sound) (hsource : cfg.contains link.1)
    (htarget : cfg.contains target) (hnew : (target, link.2) ∉ cfg.outgoing link.1)
    (hnodes : nodes ≠ []) :
    Detour cfg ((cfg.withGraph (cfg.addEdge ⟨link.1, target, link.2⟩)).splitEdge
      ⟨link.1, target, link.2⟩ nodes) link target cfg.nextId nodes
      (List.range' cfg.nextId nodes.length) := by
  have hjoined := h.detour_addEdge hsource htarget
  generalize hcfg' : cfg.withGraph (cfg.addEdge ⟨link.1, target, link.2⟩) = joined at *
  have hnext : joined.nextId = cfg.nextId := by
    rw [← hcfg']
    exact nextId_addEdge ..
  have hcontains : ∀ id, joined.contains id = cfg.contains id := by
    intro id
    rw [← hcfg']
    exact Graph.contains_addEdge ..
  have hlength := length_pos_of_ne_nil hnodes
  have hlt := lt_nextId_of_contains hsource
  have hsplit : (joined.splitEdge ⟨link.1, target, link.2⟩ nodes).Sound :=
    hjoined.sound.splitEdge ((hcontains _).trans hsource) ((hcontains _).trans htarget) hnodes
  -- the way out of a node of the lane
  have hlane : ∀ k < nodes.length, ∀ other,
      other ∈ (joined.splitEdge ⟨link.1, target, link.2⟩ nodes).outgoing (cfg.nextId + k) ↔
        other = (if k + 1 = nodes.length then target else cfg.nextId + k + 1, none) := by
    intro k hk other
    have hdead : joined.outgoing (cfg.nextId + k) = [] := by
      refine outgoing_eq_nil ((hcontains _).trans (Bool.eq_false_iff.mpr fun hlive => ?_))
      exact absurd (lt_nextId_of_contains hlive) (Nat.not_lt.mpr (Nat.le_add_right _ k))
    have hne : cfg.nextId + k ≠ link.1 :=
      Nat.ne_of_gt (Nat.lt_of_lt_of_le hlt (Nat.le_add_right _ k))
    rw [hjoined.sound.mem_outgoing_splitEdge ((hcontains _).trans hsource) hnodes, hnext, hdead]
    constructor
    · intro hother
      rcases hother with (⟨hchain | ⟨j, hj, heq, hlink⟩, -⟩ | ⟨heq, -⟩) | ⟨heq, hlink⟩
      · cases hchain
      · obtain rfl : k = j := Nat.add_left_cancel heq
        rw [if_neg (by omega)]
        exact hlink
      · exact absurd heq hne
      · have hend : k = nodes.length - 1 := Nat.add_left_cancel heq
        rw [if_pos (by omega)]
        exact hlink
    · intro hother
      by_cases hend : k + 1 = nodes.length
      · rw [if_pos hend] at hother
        exact .inr ⟨congrArg (cfg.nextId + ·) (by omega : k = nodes.length - 1), hother⟩
      · rw [if_neg hend] at hother
        exact .inl (.inl ⟨.inr ⟨k, by omega, rfl, hother⟩, fun hedge => hne hedge.1⟩)
  refine ⟨hsplit, (start_splitEdge ..).trans hjoined.start, fun {id} hid => ?_, fun {id} hid => ?_,
    fun id hid => ?_, fun {id other} hid => ?_, fun {id} hid hne => ?_, ?_⟩
  · rw [node?_splitEdge_of_contains ((hcontains id).trans hid), hjoined.node hid]
  · rw [contains_splitEdge, hnext, hcontains, Bool.or_eq_true, decide_eq_true_eq] at hid
    exact hid.symm.imp_right fun hrange => mem_range'_1.mpr hrange
  · refine Bool.eq_false_iff.mpr fun hlive => ?_
    have hge := (mem_range'_1.mp hid).1
    exact absurd (lt_nextId_of_contains hlive) (Nat.not_lt.mpr hge)
  · have hidlt := lt_nextId_of_contains hid
    rw [hjoined.sound.mem_outgoing_splitEdge ((hcontains _).trans hsource) hnodes, hnext,
      hjoined.outgoing hid]
    constructor
    · intro hother
      rcases hother with (⟨(hold | hedge) | ⟨k, -, heq, -⟩, hnot⟩ | hfirst) | ⟨heq, -⟩
      · exact .inl hold
      · exact absurd hedge hnot
      · exact absurd heq (Nat.ne_of_lt (Nat.lt_of_lt_of_le hidlt (Nat.le_add_right _ k)))
      · exact .inr hfirst
      · exact absurd heq (Nat.ne_of_lt (Nat.lt_of_lt_of_le hidlt (Nat.le_add_right _ _)))
    · intro hother
      rcases hother with hold | hfirst
      · refine .inl (.inl ⟨.inl (.inl hold), fun ⟨hid, hother⟩ => hnew ?_⟩)
        rwa [hid, hother] at hold
      · exact .inl (.inr hfirst)
  · rw [incoming_splitEdge_of_ne ((hcontains id).trans hid) hne, hjoined.incoming hid hne]
  · refine .of_run (fun k hk => ?_) (fun k hk => ?_) (fun k hk => ?_) hnodes
    · rw [← hnext]
      exact node?_splitEdge_add hk
    · refine hsplit.graph.outgoing_eq_singleton fun other => ?_
      rw [hlane k (by omega), if_neg (by omega)]
    · refine hsplit.graph.outgoing_eq_singleton fun other => ?_
      rw [hlane k (by omega), if_pos hk]

end Split

end FlowGraph

end Flowgraph

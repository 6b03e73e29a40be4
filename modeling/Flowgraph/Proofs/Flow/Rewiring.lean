import Flowgraph.Proofs.Flow.Condensation
import Flowgraph.Proofs.Flow.Splice
import Flowgraph.Proofs.Ssa.Fronted

/-!
# What a splice does to the edges

`Splice.Effect`: the edges of the new graph are the images of the old ones and the added ones, each
of them once. In every flow graph that can be made a splice has this effect or none
(`Splice.performs_effect`).
-/

namespace Flowgraph

open List hiding beq_eq_decide

variable {id p : NodeId} {edge : Edge}

open FlowGraph Graph

namespace Graph

variable {α : Type} {g : Graph α} {chain : List α} {edges : List Edge} {next : Edge → Edge}

/-- Inserting a chain adds the edges along it. -/
theorem hasEdge_insertChain :
    (g.insertChain chain).hasEdge edge ↔ g.hasEdge edge ∨ edge ∈ g.chainEdges chain := by
  by_cases hchain : chain = []
  · subst hchain
    simp [insertChain, joinRun, chainEdges]
  have hlength := length_pos_of_ne_nil hchain
  have hlive : ∀ k ≤ chain.length - 1, (chain.foldl Graph.insert g).contains (g.nextId + k) :=
    fun k hk => contains_foldl_insert_add (by omega)
  obtain ⟨source, target, label⟩ := edge
  rw [hasEdge_iff, insertChain, mem_outgoing_joinRun hlive, outgoing_foldl_insert, hasEdge_iff,
    mem_chainEdges]
  refine or_congr_right (exists_congr fun k => and_congr_right fun _ => ?_)
  simp only [Prod.mk.injEq, Edge.mk.injEq, eq_comm]

/-! ### Edges that move one after another -/

/-- The edges after new ones. -/
theorem hasEdge_foldl_addEdge (hlive : ∀ added ∈ edges, g.contains added.source) :
    (edges.foldl addEdge g).hasEdge edge ↔ g.hasEdge edge ∨ edge ∈ edges := by
  induction edges generalizing g with
  | nil => simp
  | cons first rest ih =>
    obtain ⟨hfirst, hrest⟩ := forall_mem_cons.mp hlive
    rw [foldl_cons, ih (by simpa using hrest), hasEdge_addEdge hfirst, mem_cons, or_assoc]

/-- New edges leave their sources only. -/
theorem outgoing_foldl_addEdge_of_ne (h : ∀ added ∈ edges, added.source ≠ id) :
    (edges.foldl addEdge g).outgoing id = g.outgoing id :=
  foldl_keeps (f := (·.outgoing id)) (fun added hadded _ =>
    outgoing_addEdge_of_ne (h added hadded)) g

/-- New edges enter their targets only. -/
theorem incoming_foldl_addEdge_of_ne (h : ∀ added ∈ edges, added.target ≠ id) :
    (edges.foldl addEdge g).incoming id = g.incoming id :=
  foldl_keeps (f := (·.incoming id)) (fun added hadded _ =>
    incoming_addEdge_of_ne (h added hadded)) g

/-- Edges that move to places which none of them leaves. -/
theorem Sound.hasEdge_redirectEach (hg : g.Sound)
    (hlive : ∀ old ∈ edges, g.contains (next old).source ∧ g.contains (next old).target)
    (hnext : ∀ old ∈ edges, next old ∉ edges) : (g.redirectEach edges next).hasEdge edge ↔
      g.hasEdge edge ∧ edge ∉ edges ∨ edge ∈ edges.map next := by
  -- The places that are left may grow: what matters is that no edge moves to one of those still to
  -- be left.
  suffices hall : ∀ rest, rest ⊆ edges → ∀ g : Graph α, g.Sound →
      (∀ old ∈ edges, g.contains (next old).source ∧ g.contains (next old).target) →
      ((g.redirectEach rest next).hasEdge edge ↔
        g.hasEdge edge ∧ edge ∉ rest ∨ edge ∈ rest.map next) from
    hall edges (List.Subset.refl _) g hg hlive
  intro rest hrest g hg hlive
  induction rest generalizing g with
  | nil => simp [redirectEach]
  | cons first rest ih =>
    obtain ⟨hfirst, hrest⟩ := cons_subset.mp hrest
    obtain ⟨hsource, htarget⟩ := hlive first hfirst
    have hstep : (g.redirect first (next first)).Sound :=
      ((Grown.refl hg).redirect hsource htarget).sound
    have hkept : next first ∉ rest := fun hmem => hnext first hfirst (hrest hmem)
    rw [redirectEach, foldl_cons, ← redirectEach, ih hrest _ hstep (by simpa using hlive),
      hg.hasEdge_redirect hsource, map_cons, mem_cons, mem_cons]
    by_cases heq : edge = next first
    · simp [heq, hkept]
    · simp only [heq, or_false, false_or, not_or, and_assoc]

/-- Redirection keeps other links out. -/
theorem outgoing_redirectEach_of_ne (hold : ∀ edge ∈ edges, edge.source ≠ id)
    (hnew : ∀ edge ∈ edges, (next edge).source ≠ id) :
    (g.redirectEach edges next).outgoing id = g.outgoing id := by
  refine foldl_keeps (f := (·.outgoing id)) (fun edge hedge g => ?_) g
  rw [redirect, outgoing_addEdge_of_ne (hnew edge hedge), outgoing_eraseEdge,
    if_neg (hold edge hedge)]

/-- Redirection keeps other links in. -/
theorem incoming_redirectEach_of_ne (hold : ∀ edge ∈ edges, edge.target ≠ id)
    (hnew : ∀ edge ∈ edges, (next edge).target ≠ id) :
    (g.redirectEach edges next).incoming id = g.incoming id :=
  foldl_keeps (f := (·.incoming id))
    (fun edge hedge _ => incoming_redirect_of_ne (hold edge hedge) (hnew edge hedge)) g

/-- A chain gets the next numbers, and no other node changes. -/
theorem payload?_insertChain (g : Graph α) (chain : List α) (id : NodeId) :
    (g.insertChain chain).payload? id = if id < g.nextId then g.payload? id else
      chain[id - g.nextId]? := by
  split
  · next hlt => exact payload?_insertChain_of_lt hlt
  next hle =>
  obtain ⟨k, rfl⟩ := Nat.exists_eq_add_of_le (Nat.not_lt.mp hle)
  rw [Nat.add_sub_cancel_left]
  by_cases hk : k < chain.length
  · rw [insertChain, payload?_joinRun, payload?_foldl_insert_add chain hk]
  · have hdead : (g.insertChain chain).contains (g.nextId + k) = false := by
      have hold : g.contains (g.nextId + k) = false :=
        Bool.eq_false_iff.mpr fun hlive => hle (lt_nextId_of_contains hlive)
      rw [contains_insertChain, hold, Bool.or_false, decide_eq_false_iff_not]
      exact fun hin => hk (Nat.lt_of_add_lt_add_left hin.2)
    rw [getElem?_eq_none (Nat.le_of_not_lt hk), ← Option.not_isSome_iff_eq_none,
      payload?_isSome, hdead]
    exact Bool.false_ne_true

end Graph

namespace Splice

variable {cfg cfg' : FlowGraph} {splice : Splice}

/-- A splice gives some edges other ends and adds edges and nodes. Nothing else changes: not the
nodes, and not the order in which they list edges that stay. -/
structure Effect (cfg cfg' : FlowGraph) (splice : Splice) : Prop where
  edges : cfg'.edges.Perm (cfg.edges.map (splice.image cfg) ++ splice.added cfg)
  nodes : ∀ p, cfg'.node? p =
    if splice.removed? = some p then none
    else if p < cfg.nextId then cfg.node? p else splice.chain[p - cfg.nextId]?
  start : cfg'.start = if splice.removed? = some cfg.start then cfg.nextId else cfg.start
  entries : ∀ id chain, splice = .prepend id chain →
    cfg'.incoming cfg.nextId =
    (cfg.incoming id).filter fun link => splice.moves cfg ⟨link.1, id, link.2⟩
  outgoing : ∀ p < cfg.nextId, (∀ edge ∈ cfg.edges, splice.moves cfg edge → edge.source ≠ p) →
    (∀ edge ∈ splice.added cfg, edge.source ≠ p) → cfg'.outgoing p = cfg.outgoing p
  incoming : ∀ p < cfg.nextId, (∀ edge ∈ cfg.edges, splice.moves cfg edge → edge.target ≠ p) →
    (∀ edge ∈ splice.added cfg, edge.target ≠ p) → cfg'.incoming p = cfg.incoming p

/-- Edges that are images or added are listed once each. -/
theorem perm_edges (h : cfg.Sound) (h' : cfg'.Sound) (hpresent : splice.present cfg)
    (hedges : ∀ edge, cfg'.hasEdge edge ↔
      (∃ old, cfg.hasEdge old ∧ splice.image cfg old = edge) ∨ edge ∈ splice.added cfg) :
    cfg'.edges.Perm (cfg.edges.map (splice.image cfg) ++ splice.added cfg) := by
  have hmap : (cfg.edges.map (splice.image cfg)).Nodup := by
    refine h.graph.nodup_edges.map_on fun first hfirst second hsecond heq => ?_
    rw [← restore_image h splice (mem_edges.mp hfirst), heq,
      restore_image h splice (mem_edges.mp hsecond)]
  have hapart : (cfg.edges.map (splice.image cfg)).Disjoint (splice.added cfg) := by
    intro edge himage hadded
    obtain ⟨old, hold, rfl⟩ := mem_map.mp himage
    exact image_not_mem_added h splice (mem_edges.mp hold) hadded
  refine (perm_ext_iff_of_nodup h'.graph.nodup_edges
    (hmap.append (nodup_added hpresent h) hapart)).mpr fun edge => ?_
  rw [mem_edges, hedges, mem_append, mem_map]
  simp only [mem_edges]

/-! ### Chains that are woven in -/

/-- A splice that inserts a chain, moves edges in turn and ties the chain in. -/
structure Woven (cfg cfg' : FlowGraph) (splice : Splice) (moved : List Edge) (tie : Edge) :
    Prop where
  graph : cfg'.toGraph =
    ((cfg.insertChain splice.chain).redirectEach moved (splice.shift cfg)).addEdge tie
  start : cfg'.start = cfg.start
  mem : ∀ {edge}, edge ∈ moved ↔ cfg.hasEdge edge ∧ splice.moves cfg edge
  live : ∀ edge ∈ moved, (cfg.insertChain splice.chain).contains (splice.shift cfg edge).source ∧
    (cfg.insertChain splice.chain).contains (splice.shift cfg edge).target
  tied : (cfg.insertChain splice.chain).contains tie.source
  added : splice.added cfg = tie :: cfg.chainEdges splice.chain
  removed : splice.removed? = none

namespace Woven

variable {moved : List Edge} {tie : Edge}

variable (hw : Woven cfg cfg' splice moved tie)
include hw

/-- Edges that do not move, new places of those that do, and added edges. -/
theorem hasEdge_iff (h : cfg.Sound) (edge : Edge) : cfg'.hasEdge edge ↔
      (∃ old, cfg.hasEdge old ∧ splice.image cfg old = edge) ∨ edge ∈ splice.added cfg := by
  have hnext : ∀ old ∈ moved, splice.shift cfg old ∉ moved := by
    intro old hold hmem
    simpa [hasEdge_shift h (hw.mem.mp hold).2] using (hw.mem.mp hmem).1
  have hchain : edge ∈ cfg.chainEdges splice.chain → edge ∉ moved := by
    intro hedge hmem
    exact Nat.not_lt.mpr (lt_of_mem_chainEdges hedge).1
      (lt_nextId_of_hasEdge h (hw.mem.mp hmem).1).1
  have himage : (∃ old, cfg.hasEdge old ∧ splice.image cfg old = edge) ↔
      cfg.hasEdge edge ∧ edge ∉ moved ∨ edge ∈ moved.map (splice.shift cfg) := by
    rw [mem_map]
    constructor
    · intro hold
      obtain ⟨old, hold, rfl⟩ := hold
      rw [image]
      split
      · next hmoves => exact .inr ⟨old, hw.mem.mpr ⟨hold, hmoves⟩, rfl⟩
      · next hstays => exact .inl ⟨hold, fun hmem => hstays (hw.mem.mp hmem).2⟩
    · intro hnew
      rcases hnew with ⟨hedge, hstays⟩ | ⟨old, hold, rfl⟩
      · exact ⟨edge, hedge, if_neg fun hmoves => hstays (hw.mem.mpr ⟨hedge, hmoves⟩)⟩
      · exact ⟨old, (hw.mem.mp hold).1, if_pos (hw.mem.mp hold).2⟩
  rw [hw.graph, hasEdge_addEdge (by simpa using hw.tied),
    (Grown.insertChain h.graph splice.chain).sound.hasEdge_redirectEach hw.live hnext,
    hasEdge_insertChain, himage, hw.added, mem_cons]
  tauto

/-- Old nodes stay, and the chain is new. -/
theorem node? (p : NodeId) : cfg'.node? p =
    if p < cfg.nextId then cfg.node? p else splice.chain[p - cfg.nextId]? := by
  rw [FlowGraph.node?, hw.graph, payload?_addEdge, redirectEach,
    foldl_keeps (f := (·.payload? p)) fun _ _ _ => payload?_redirect ..]
  exact payload?_insertChain ..

/-- The edges out of a node stay if none moves and none is added. -/
theorem outgoing (hp : p < cfg.nextId)
    (hmoved : ∀ edge ∈ cfg.edges, splice.moves cfg edge → edge.source ≠ p)
    (hadded : ∀ edge ∈ splice.added cfg, edge.source ≠ p) : cfg'.outgoing p = cfg.outgoing p := by
  have hold : ∀ edge ∈ moved, edge.source ≠ p := fun edge hedge =>
    hmoved edge (mem_edges.mpr (hw.mem.mp hedge).1) (hw.mem.mp hedge).2
  have hnew : ∀ edge ∈ moved, (splice.shift cfg edge).source ≠ p := fun edge hedge =>
    ne_of_shifted (shift_ends cfg splice edge).1 hp (hold edge hedge)
  have htie : tie.source ≠ p := hadded tie (by rw [hw.added]; exact mem_cons_self)
  rw [hw.graph, outgoing_addEdge_of_ne htie, outgoing_redirectEach_of_ne hold hnew,
    outgoing_insertChain_of_lt hp]

/-- The edges into a node stay if none moves and none is added. -/
theorem incoming (hp : p < cfg.nextId)
    (hmoved : ∀ edge ∈ cfg.edges, splice.moves cfg edge → edge.target ≠ p)
    (hadded : ∀ edge ∈ splice.added cfg, edge.target ≠ p) : cfg'.incoming p = cfg.incoming p := by
  have hold : ∀ edge ∈ moved, edge.target ≠ p := fun edge hedge =>
    hmoved edge (mem_edges.mpr (hw.mem.mp hedge).1) (hw.mem.mp hedge).2
  have hnew : ∀ edge ∈ moved, (splice.shift cfg edge).target ≠ p := fun edge hedge =>
    ne_of_shifted (shift_ends cfg splice edge).2 hp (hold edge hedge)
  have htie : tie.target ≠ p := hadded tie (by rw [hw.added]; exact mem_cons_self)
  rw [hw.graph, incoming_addEdge_of_ne htie, incoming_redirectEach_of_ne hold hnew,
    incoming_insertChain_of_lt hp]

/-- Woven splices have their effect. -/
theorem effect (h : cfg.Sound) (h' : cfg'.Sound) (hpresent : splice.present cfg)
    (hentries : ∀ id chain, splice = .prepend id chain →
      cfg'.incoming cfg.nextId =
        (cfg.incoming id).filter fun link => splice.moves cfg ⟨link.1, id, link.2⟩) :
    Effect cfg cfg' splice where
  edges := perm_edges h h' hpresent (hw.hasEdge_iff h)
  nodes p := by rw [hw.node?, hw.removed, if_neg (Option.some_ne_none p).symm]
  start := by rw [hw.start, hw.removed, if_neg (Option.some_ne_none _).symm]
  entries := hentries
  outgoing _ hp hmoved hadded := hw.outgoing hp hmoved hadded
  incoming _ hp hmoved hadded := hw.incoming hp hmoved hadded

end Woven

section Chains

variable {chain : List Node}

/-- Prepending weaves a chain in. -/
theorem woven_prepend (h : cfg.Sound) (hchain : chain ≠ []) :
    Woven cfg (cfg.prependChain id chain) (.prepend id chain) (cfg.edgesMovedIn id)
      ⟨(cfg.chainEnds chain).2, id, none⟩ where
  graph := toGraph_prependChain_eq cfg id chain
  start := rfl
  mem := by
    intro edge
    rw [h.mem_edgesMovedIn, moves, decide_eq_true_iff]
    simp [keepsSelfEdge]
  live edge hedge :=
    ⟨(Grown.insertChain h.graph chain).live (h.contains_ends (h.mem_edgesMovedIn.mp hedge).1).1,
      (contains_chainEnds hchain).1⟩
  tied := (contains_chainEnds hchain).2
  added := rfl
  removed := rfl

/-- Postpending weaves a chain in. -/
theorem woven_postpend (h : cfg.Sound) (hid : cfg.contains id) (hchain : chain ≠ []) :
    Woven cfg (cfg.postpendChain id chain) (.postpend id chain) (cfg.edgesMovedOut id)
      ⟨id, (cfg.chainEnds chain).1, none⟩ where
  graph := toGraph_postpendChain_eq cfg id chain
  start := rfl
  mem := by
    intro edge
    rw [mem_edgesMovedOut, moves, decide_eq_true_iff]
    simp [keepsSelfEdge]
  live edge hedge :=
    ⟨(contains_chainEnds hchain).2, (Grown.insertChain h.graph chain).live
      (h.contains_ends (mem_edgesMovedOut.mp hedge).1).2⟩
  tied := (Grown.insertChain h.graph chain).live hid
  added := rfl
  removed := rfl

/-- Splitting weaves a chain in. -/
theorem woven_innerInsert (h : cfg.Sound) (hedge : cfg.hasEdge edge) (hchain : chain ≠ []) :
    Woven cfg (cfg.splitEdge edge chain) (.innerInsert edge chain) [edge]
      ⟨(cfg.chainEnds chain).2, edge.target, none⟩ where
  graph := by
    rw [toGraph_splitEdge]
    rfl
  start := start_splitEdge cfg edge chain
  mem := by
    intro other
    rw [mem_singleton, moves, decide_eq_true_iff]
    exact ⟨fun heq => ⟨heq ▸ hedge, heq⟩, fun hother => hother.2⟩
  live other hother := by
    obtain rfl := mem_singleton.mp hother
    exact ⟨(Grown.insertChain h.graph chain).live (h.contains_ends hedge).1,
      (contains_chainEnds hchain).1⟩
  tied := (contains_chainEnds hchain).2
  added := rfl
  removed := rfl

end Chains

/-! ### A node in the place of another -/

section Replacement

variable {node : Node}

/-- The edges that a node gets in the place of another. -/
def inherited (cfg : FlowGraph) (id : NodeId) : List Edge :=
  ((cfg.incoming id).map fun link => ⟨if link.1 = id then cfg.nextId
    else link.1, cfg.nextId, link.2⟩) ++
    ((cfg.outgoing id).filter (·.1 != id)).map fun link => ⟨cfg.nextId, link.1, link.2⟩

/-- Replacing inherits the edges. -/
theorem toGraph_substitute_eq (cfg : FlowGraph) (id : NodeId) (node : Node) :
    (cfg.substitute id node).toGraph = ((inherited cfg id).foldl Graph.addEdge
      (cfg.insert node)).erase id := by
  rw [toGraph_substitute, inherited, foldl_append, foldl_map, foldl_map]

/-- The new node gets the edges of the old one under its own number. -/
theorem mem_inherited (h : cfg.Sound) (node : Node) : edge ∈ inherited cfg id ↔
    ∃ old, cfg.hasEdge old ∧ moves cfg (.replace id node) old ∧
      shift cfg (.replace id node) old = edge := by
  rw [inherited, mem_append, mem_map, mem_map]
  constructor
  · intro hmem
    rcases hmem with ⟨link, hlink, rfl⟩ | ⟨link, hlink, rfl⟩
    · refine ⟨⟨link.1, id, link.2⟩, Graph.hasEdge_iff.mpr (h.graph.mirrored.mpr hlink), ?_, ?_⟩
      · simp [moves]
      · simp [shift]
    · obtain ⟨hlink, hother⟩ := mem_filter.mp hlink
      have hne : link.1 ≠ id := by simpa using hother
      refine ⟨⟨id, link.1, link.2⟩, Graph.hasEdge_iff.mpr hlink, ?_, ?_⟩
      · simp [moves]
      · simp [shift, hne]
  · intro hold
    obtain ⟨⟨source, target, label⟩, hold, hmoves, rfl⟩ := hold
    have hlink : (target, label) ∈ cfg.outgoing source := Graph.hasEdge_iff.mp hold
    by_cases htarget : target = id
    · subst htarget
      exact .inl ⟨(source, label), h.graph.mirrored.mp hlink, by simp [shift]⟩
    · have hsource : source = id := by simpa [moves, htarget] using hmoves
      subst hsource
      exact .inr ⟨(target, label), mem_filter.mpr ⟨hlink, by simpa using htarget⟩, by
        simp [shift, htarget]⟩

/-- No edge is at the old node when its edges have moved. -/
theorem shift_replace_ne (hid : cfg.contains id) (node : Node) (edge : Edge) :
    (shift cfg (.replace id node) edge).source ≠ id ∧
      (shift cfg (.replace id node) edge).target ≠ id := by
  have hne : cfg.nextId ≠ id := Nat.ne_of_gt (lt_nextId_of_contains hid)
  by_cases hsource : edge.source = id <;> by_cases htarget : edge.target = id <;>
    simp [shift, hsource, htarget, hne]

/-- The edges after replacing. -/
theorem hasEdge_substitute (h : cfg.Sound) (hid : cfg.contains id) (edge : Edge) :
    (cfg.substitute id node).hasEdge edge ↔
      ∃ old, cfg.hasEdge old ∧ image cfg (.replace id node) old = edge := by
  have hgrown := h.grown_insert node
  have hlive : ∀ added ∈ inherited cfg id, (cfg.insert node).contains added.source := by
    intro added hadded
    obtain ⟨old, hold, -, rfl⟩ := (mem_inherited h node).mp hadded
    by_cases hsource : old.source = id
    · simp [shift, hsource, Graph.contains_insert]
    · simp [shift, hsource, hgrown.live (h.contains_ends hold).1]
  have hjoined : ((inherited cfg id).foldl Graph.addEdge (cfg.insert node)).hasEdge edge ↔
      cfg.hasEdge edge ∨ edge ∈ inherited cfg id := by
    rw [hasEdge_foldl_addEdge hlive, Graph.hasEdge_iff, outgoing_insert, Graph.hasEdge_iff]
  have herased : (cfg.substitute id node).hasEdge edge ↔ id ≠ edge.source ∧ edge.target ≠ id ∧
      (cfg.hasEdge edge ∨ edge ∈ inherited cfg id) := by
    rw [← hjoined, toGraph_substitute_eq, Graph.hasEdge_iff, mem_outgoing_erase, Graph.hasEdge_iff]
  rw [herased, mem_inherited h node]
  constructor
  · intro hnew
    obtain ⟨hsource, htarget, hedge | ⟨old, hold, hmoves, rfl⟩⟩ := hnew
    · exact ⟨edge, hedge, if_neg (by simp [moves, Ne.symm hsource, htarget])⟩
    · exact ⟨old, hold, if_pos hmoves⟩
  · intro hold
    obtain ⟨old, hold, rfl⟩ := hold
    rw [image]
    split
    · next hmoves =>
      obtain ⟨hsource, htarget⟩ := shift_replace_ne hid node old
      exact ⟨Ne.symm hsource, htarget, .inr ⟨old, hold, hmoves, rfl⟩⟩
    · next hstays =>
      have hends : old.source ≠ id ∧ old.target ≠ id := by simpa [moves] using hstays
      exact ⟨Ne.symm hends.1, hends.2, .inl hold⟩

/-- The nodes after replacing. -/
theorem node?_substitute (cfg : FlowGraph) (id : NodeId) (node : Node) (p : NodeId) :
    (cfg.substitute id node).node? p = if id = p then none
      else if p < cfg.nextId then cfg.node? p else [node][p - cfg.nextId]? := by
  rw [FlowGraph.node?, toGraph_substitute_eq, payload?_erase,
    foldl_keeps (f := (·.payload? p)) fun _ _ _ => payload?_addEdge ..]
  exact congrArg (ite _ none) (payload?_insertChain cfg.toGraph [node] p)

/-- The edges out of a node stay if none leads to the replaced one. -/
theorem outgoing_substitute (h : cfg.Sound) (hp : p < cfg.nextId)
    (hmoved : ∀ edge ∈ cfg.edges, moves cfg (.replace id node) edge → edge.source ≠ p) :
    (cfg.substitute id node).outgoing p = cfg.outgoing p := by
  have hother : ∀ link ∈ cfg.outgoing p, p ≠ id ∧ link.1 ≠ id := by
    intro link hlink
    have hstays := mt (hmoved ⟨p, link.1, link.2⟩ (mem_edges.mpr (Graph.hasEdge_iff.mpr hlink)))
      fun hne => hne rfl
    simpa [moves] using hstays
  have hinherited : ∀ added ∈ inherited cfg id, added.source ≠ p := by
    intro added hadded
    obtain ⟨old, hold, hmoves, rfl⟩ := (mem_inherited h node).mp hadded
    exact ne_of_shifted (shift_ends cfg _ old).1 hp (hmoved old (mem_edges.mpr hold) hmoves)
  rw [toGraph_substitute_eq, outgoing_erase, outgoing_foldl_addEdge_of_ne hinherited,
    outgoing_insert]
  split
  · next heq =>
    exact (eq_nil_iff_forall_not_mem.mpr fun link hlink => (hother link hlink).1 heq.symm).symm
  · exact filter_eq_self.mpr fun link hlink => by simpa using (hother link hlink).2

/-- The edges into a node stay if none comes from the replaced one. -/
theorem incoming_substitute (h : cfg.Sound) (hp : p < cfg.nextId)
    (hmoved : ∀ edge ∈ cfg.edges, moves cfg (.replace id node) edge → edge.target ≠ p) :
    (cfg.substitute id node).incoming p = cfg.incoming p := by
  have hother : ∀ link ∈ cfg.incoming p, link.1 ≠ id ∧ p ≠ id := by
    intro link hlink
    have hedge : cfg.hasEdge ⟨link.1, p, link.2⟩ = true :=
      Graph.hasEdge_iff.mpr (h.graph.mirrored.mpr hlink)
    have hstays := mt (hmoved _ (mem_edges.mpr hedge)) fun hne => hne rfl
    simpa [moves] using hstays
  have hinherited : ∀ added ∈ inherited cfg id, added.target ≠ p := by
    intro added hadded
    obtain ⟨old, hold, hmoves, rfl⟩ := (mem_inherited h node).mp hadded
    exact ne_of_shifted (shift_ends cfg _ old).2 hp (hmoved old (mem_edges.mpr hold) hmoves)
  rw [toGraph_substitute_eq, incoming_erase, incoming_foldl_addEdge_of_ne hinherited,
    Graph.incoming_insert]
  split
  · next heq =>
    exact (eq_nil_iff_forall_not_mem.mpr fun link hlink => (hother link hlink).2 heq.symm).symm
  · exact filter_eq_self.mpr fun link hlink => by simpa using (hother link hlink).1

/-- Replacing has its effect. -/
theorem effect_replace (h : cfg.Sound) (hid : cfg.contains id) (node : Node) :
    Effect cfg (cfg.substitute id node) (.replace id node) where
  edges := by
    refine perm_edges h (h.substitute hid node) hid fun edge => ?_
    rw [hasEdge_substitute h hid]
    exact (or_iff_left not_mem_nil).symm
  nodes p := by
    rw [node?_substitute]
    exact if_congr (by simp [removed?]) rfl rfl
  start := if_congr (by simp [removed?]) rfl rfl
  entries _ _ heq := by cases heq
  outgoing _ hp hmoved _ := outgoing_substitute h hp hmoved
  incoming _ hp hmoved _ := incoming_substitute h hp hmoved

end Replacement

/-! ### All splices -/

section

variable (h : cfg.Sound) (hpresent : splice.present cfg) (hchain : splice.chain ≠ [])
include h hpresent hchain

/-- Splices keep a flow graph sound. -/
theorem sound_result : (splice.result cfg).Sound := by
  cases splice with
  | prepend id chain => exact h.prependChain hpresent hchain
  | postpend id chain => exact h.postpendChain hpresent hchain
  | innerInsert edge chain =>
    obtain ⟨hsource, htarget⟩ := h.contains_ends hpresent
    exact h.splitEdge hsource htarget hchain
  | replace id node => exact h.substitute hpresent node

/-- A splice at a node or an edge that is there has its effect. -/
theorem effect_result : Effect cfg (splice.result cfg) splice := by
  have hsound := sound_result h hpresent hchain
  cases splice with
  | prepend id chain =>
    refine (woven_prepend h hchain).effect h hsound hpresent fun other links heq => ?_
    cases heq
    refine (h.incoming_prependChain_first hpresent hchain).trans ?_
    rw [movableIncoming_eq_entries, FlowGraph.entries]
    refine filter_congr fun link _ => ?_
    by_cases hspin : cfg.kind? id = some .spin <;> simp [moves, hspin, beq_eq_decide]
  | postpend id chain =>
    exact (woven_postpend h hpresent hchain).effect h hsound hpresent fun _ _ heq => by cases heq
  | innerInsert edge chain =>
    exact (woven_innerInsert h hpresent hchain).effect h hsound hpresent fun _ _ heq => by cases heq
  | replace id node => exact effect_replace h hpresent node

end

/-- The kind of the designated start changes only if it is replaced. -/
theorem Effect.kind?_start (he : Effect cfg cfg' splice) (h : cfg.Sound) : cfg'.kind? cfg'.start =
    if splice.removed? = some cfg.start then splice.chain[0]?.map Node.kind else cfg.kind?
      cfg.start := by
  rw [FlowGraph.kind?, he.nodes, he.start]
  by_cases hremoved : splice.removed? = some cfg.start
  · have hnext : splice.removed? ≠ some cfg.nextId := by
      rw [hremoved]
      exact fun heq => ne_nextId_of_contains h.start (Option.some.inj heq)
    rw [if_pos hremoved, if_pos hremoved, if_neg hnext, if_neg (Nat.lt_irrefl _), Nat.sub_self]
  · rw [if_neg hremoved, if_neg hremoved, if_neg hremoved, if_pos (lt_nextId_of_contains h.start),
      FlowGraph.kind?]

/-- A splice of a flow graph that can be made is refused exactly if its node or its edge is not
there, and then nothing changes. An empty chain changes nothing either. Every other splice answers
the ends of what it has put in, and has its effect on the edges, on the nodes and on the start. -/
theorem performs_effect (h : cfg.Assembled) (splice : Splice) :
    (∀ error after, splice.perform.run cfg = .error error after ↔
      splice.present cfg = false ∧ error = splice.missing ∧ after = cfg) ∧
    (splice.present cfg → splice.chain = [] → splice.perform.run cfg = .ok none cfg) ∧
    (splice.present cfg → splice.chain ≠ [] → ∃ after,
      splice.perform.run cfg = .ok (some (cfg.chainEnds splice.chain)) after ∧
        Effect cfg after splice) := by
  rw [perform_eq h.sound splice]
  cases hpresent : splice.present cfg with
  | false =>
    refine ⟨fun error after => ?_, fun hthere => ?_, fun hthere => ?_⟩
    · simp [eq_comm]
    · cases hthere
    · cases hthere
  | true =>
    refine ⟨fun error after => ?_, fun _ hchain => ?_, fun _ hchain => ?_⟩
    · by_cases hchain : splice.chain = [] <;> simp [hchain]
    · rw [if_pos rfl, if_pos hchain]
    · exact ⟨splice.result cfg, by rw [if_pos rfl, if_neg hchain],
        effect_result h.sound hpresent hchain⟩

/-- A spin with two edges to itself, an assignment with one, and edges that differ in their labels.
-/
def tangled : FlowGraph :=
  .ofNodes .dummy [.spin .dummy, .assign "x" (.const 1) .dummy]
    [⟨0, 1, none⟩, ⟨1, 1, none⟩, ⟨2, 1, some true⟩, ⟨1, 1, some true⟩, ⟨2, 1, some false⟩,
      ⟨2, 2, none⟩, ⟨1, 0, none⟩]

/-- The spin keeps its own edges, and the assignment takes its own with it. -/
theorem performs_effect_tangled : tangled.Assembled ∧
    (innerInsert ⟨0, 1, some true⟩ [.spin .dummy]).perform.run tangled =
      .error (.missingEdge 0 1 (some (some true))) tangled ∧
    (∃ after, (prepend 1 [.ret .dummy, .spin .dummy]).perform.run tangled =
      .ok (some (3, 4)) after ∧ after.incoming 3 = [(0, none), (2, some true), (2, some false)] ∧
      after.edges.Perm [⟨0, 3, none⟩, ⟨1, 1, some true⟩, ⟨1, 1, none⟩, ⟨1, 0, none⟩,
        ⟨2, 3, some true⟩, ⟨2, 3, some false⟩, ⟨2, 2, none⟩, ⟨4, 1, none⟩, ⟨3, 4, none⟩]) ∧
    ∃ after, (replace 2 (.spin .dummy)).perform.run tangled = .ok (some (3, 3)) after ∧
      after.node? 2 = none ∧ after.edges.Perm [⟨0, 1, none⟩, ⟨1, 1, some true⟩, ⟨1, 1, none⟩,
        ⟨1, 0, none⟩, ⟨3, 1, some true⟩, ⟨3, 1, some false⟩, ⟨3, 3, none⟩] := by
  have htangled : tangled.Assembled := .ofNodes ..
  refine ⟨htangled, ((performs_effect htangled _).1 _ _).mpr ⟨by decide +kernel, rfl, rfl⟩, ?_, ?_⟩
  · obtain ⟨after, hrun, heffect⟩ := (performs_effect htangled
      (prepend 1 [.ret .dummy, .spin .dummy])).2.2 (by decide +kernel) (cons_ne_nil _ _)
    refine ⟨after, hrun, (heffect.entries _ _ rfl).trans (by decide +kernel),
      heffect.edges.trans ?_⟩
    exact List.Perm.of_eq (by decide +kernel)
  · obtain ⟨after, hrun, heffect⟩ := (performs_effect htangled (replace 2 (.spin .dummy))).2.2
      (by decide +kernel) (cons_ne_nil _ _)
    refine ⟨after, hrun, heffect.nodes 2, heffect.edges.trans ?_⟩
    exact List.Perm.of_eq (by decide +kernel)

end Splice

end Flowgraph

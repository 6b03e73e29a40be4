import Flowgraph.Proofs.Flow.Rewiring

/-!
# Splices that keep a flow graph well formed

The edges out of every old node leave one node of the new graph, its heir (`Splice.heir`), with the
same labels, and all other nodes have one way out, which was added. A node that was entered still
is, from another node if it was before (`Splice.exists_entry`).

So a chain of instructions and blocks may be put into any edge but that of a spin to itself, in
front of any node but the start and the phi blocks, and behind any node with one way out, and any
node may be replaced by one of its kind (`Splice.wellFormed_performed`).
-/

namespace Flowgraph

open List FlowGraph Graph

/-- Whether a node of a kind has one way out, wherever it leads. -/
def Kind.single : Kind → Bool
  | .start | .assign | .store | .call | .block | .phi => true
  | .ret | .branch | .spin | .stub => false

/-- Whether a kind has one way out and asks only to be entered. -/
def Kind.plain : Kind → Bool
  | .assign | .store | .call | .block => true
  | .start | .ret | .branch | .spin | .phi | .stub => false

/-- Plain nodes have a single successor. -/
theorem Kind.single_of_plain {kind : Kind} (h : kind.plain) : kind.single := by
  cases kind with
  | assign | store | call | block => rfl
  | start | ret | branch | spin | phi | stub => cases h

namespace FlowGraph

variable {cfg : FlowGraph} {id : NodeId} {kind : Kind}

/-- Single successors fit. -/
theorem outgoingFits_of_single (h : kind.single) :
    cfg.OutgoingFits id kind ↔ ∃ next label, cfg.outgoing id = [(next, label)] := by
  cases kind with
  | start | assign | store | call | block | phi => exact Iff.rfl
  | ret | branch | spin | stub => cases h

/-- Plain nodes have to be entered. -/
theorem incomingFits_of_plain (h : kind.plain) :
    cfg.IncomingFits id kind ↔ cfg.incoming id ≠ [] := by
  cases kind with
  | assign | store | call | block => exact Iff.rfl
  | start | ret | branch | spin | phi | stub => cases h

end FlowGraph

namespace Splice

variable {cfg cfg' : FlowGraph} {splice : Splice} {edge : Edge} {p : NodeId} {k : Nat} {node : Node}

/-- A chain that may be put in: instructions and blocks, at least one. -/
def Insertable (chain : List Node) : Prop :=
  chain ≠ [] ∧ ∀ node ∈ chain, node.kind.plain

/-- What a splice has to respect in a well-formed graph. -/
def Admissible (cfg : FlowGraph) : Splice → Prop
  | prepend id chain =>
    cfg.contains id ∧ id ≠ cfg.start ∧ cfg.kind? id ≠ some .phi ∧ Insertable chain
  | postpend id chain => (∃ kind, cfg.kind? id = some kind ∧ kind.single) ∧ Insertable chain
  | innerInsert edge chain => cfg.hasEdge edge ∧
      ¬ (cfg.kind? edge.source = some .spin ∧ edge.target = edge.source) ∧ Insertable chain
  | replace id node => ∃ old, cfg.node? id = some old ∧ node.kind = old.kind ∧
      node.phi?.map (·.arity) = old.phi?.map (·.arity)

namespace Admissible

/-- Admissible splices name what is there. -/
theorem present (h : splice.Admissible cfg) : splice.present cfg := by
  cases splice with
  | prepend id chain => exact h.1
  | postpend id chain =>
    obtain ⟨⟨kind, hkind, -⟩, -⟩ := h
    exact contains_of_kind? hkind
  | innerInsert cut chain => exact h.1
  | replace id node =>
    obtain ⟨old, hold, -⟩ := h
    exact contains_of_payload? hold

/-- Admissible splices add nodes. -/
theorem chain_ne_nil (h : splice.Admissible cfg) : splice.chain ≠ [] := by
  cases splice with
  | prepend id chain => exact h.2.2.2.1
  | postpend id chain => exact h.2.1
  | innerInsert cut chain => exact h.2.2.1
  | replace id node => exact cons_ne_nil _ _

/-- A node behind which a chain may be put has one way out; a spin's is to itself. -/
theorem kind?_ne_spin {id : NodeId} {chain : List Node} (h : Admissible cfg (.postpend id chain)) :
    cfg.kind? id ≠ some .spin := by
  obtain ⟨⟨kind, hkind, hsingle⟩, -⟩ := h
  intro hspin
  obtain rfl : kind = .spin := Option.some.inj (hkind.symm.trans hspin)
  cases hsingle

end Admissible

/-- Splices with a chain succeed. -/
theorem run_result (hpresent : splice.present cfg) (hchain : splice.chain ≠ []) :
    splice.run cfg = .ok (splice.result cfg) := by
  cases splice with
  | prepend id chain | postpend id chain =>
    have hid : cfg.contains id := hpresent
    have hchain : chain ≠ [] := hchain
    simp [run, FlowGraph.prepend, FlowGraph.postpend, FlowGraph.spliceAt, hid, hchain,
      Except.map, result]
  | innerInsert cut chain =>
    have hcut : cfg.hasEdge cut := hpresent
    have hchain : chain ≠ [] := hchain
    simp [run, FlowGraph.innerInsert, hcut, hchain, Except.map, result]
  | replace id node =>
    have hid : cfg.contains id := hpresent
    simp [run, FlowGraph.replace, hid, Except.map, result]

/-! ### Heirs -/

section

variable (he : Effect cfg cfg' splice)
include he

/-- Edges after a splice are images or new. -/
theorem Effect.hasEdge_iff : cfg'.hasEdge edge ↔
    (∃ old, cfg.hasEdge old ∧ splice.image cfg old = edge) ∨ edge ∈ splice.added cfg := by
  rw [← mem_edges, he.edges.mem_iff, mem_append, mem_map]
  simp only [mem_edges]

/-- The links out after a splice. -/
theorem Effect.mem_outgoing_iff {link : Link} : link ∈ cfg'.outgoing p ↔
    (∃ old, cfg.hasEdge old ∧ splice.image cfg old = ⟨p, link.1, link.2⟩) ∨
      ⟨p, link.1, link.2⟩ ∈ splice.added cfg := by
  rw [← he.hasEdge_iff, Graph.hasEdge_iff]

/-- The links in after a splice. -/
theorem Effect.mem_incoming_iff (h' : cfg'.Sound) {link : Link} :
    link ∈ cfg'.incoming p ↔ (∃ old, cfg.hasEdge old ∧ splice.image cfg old = ⟨link.1, p, link.2⟩) ∨
      ⟨link.1, p, link.2⟩ ∈ splice.added cfg := by
  rw [← he.hasEdge_iff, h'.graph.hasEdge_iff_incoming]

end

/-- The node that the edges out of a node leave after a splice. -/
def heir (cfg : FlowGraph) : Splice → NodeId → NodeId
  | prepend .., p | innerInsert .., p => p
  | postpend id chain, p => if p = id then (cfg.chainEnds chain).2 else p
  | replace id _, p => if p = id then cfg.nextId else p

/-- Images leave the heir of the source. -/
theorem source_image (hs : splice.Admissible cfg) (edge : Edge) :
    (splice.image cfg edge).source = splice.heir cfg edge.source := by
  cases splice with
  | prepend id chain | innerInsert cut chain =>
    rw [image]
    split <;> rfl
  | postpend id chain =>
    by_cases hid : edge.source = id <;> simp [image, moves, shift, heir, hid, hs.kind?_ne_spin]
  | replace id node =>
    by_cases hid : edge.source = id <;> by_cases htarget : edge.target = id <;>
      simp [image, moves, shift, heir, hid, htarget]

/-- Heirs tell nodes apart. -/
theorem heir_injective {q : NodeId} (hp : p < cfg.nextId) (hq : q < cfg.nextId)
    (h : splice.heir cfg p = splice.heir cfg q) : p = q := by
  cases splice with
  | prepend id chain | innerInsert cut chain => exact h
  | postpend id chain =>
    have hlast := (le_chainEnds cfg chain).2
    simp only [heir] at h
    split at h <;> split at h <;> simp only [NodeId] at * <;> omega
  | replace id node =>
    simp only [heir] at h
    split at h <;> split at h <;> simp only [NodeId] at * <;> omega

/-- No edge that is added leaves an heir. -/
theorem source_ne_heir (hs : splice.Admissible cfg) (hp : p < cfg.nextId)
    (hedge : edge ∈ splice.added cfg) : edge.source ≠ splice.heir cfg p := by
  cases splice with
  | prepend id chain | innerInsert cut chain =>
    rcases mem_cons.mp hedge with rfl | hmem
    · exact Nat.ne_of_gt (Nat.lt_of_lt_of_le hp (le_chainEnds cfg chain).2)
    · exact Nat.ne_of_gt (Nat.lt_of_lt_of_le hp (lt_of_mem_chainEdges hmem).1)
  | postpend id chain =>
    have hid : id < cfg.nextId := lt_nextId_of_contains hs.present
    have hlast := (le_chainEnds cfg chain).2
    rcases mem_cons.mp hedge with rfl | hmem
    · simp only [heir, NodeId] at *
      split <;> omega
    · have hsource := (lt_of_mem_chainEdges hmem).1
      have hbefore := source_lt_of_mem_chainEdges hmem
      simp only [heir, NodeId] at *
      split <;> omega
  | replace id node => cases hedge

/-- Images keep the label. -/
theorem label_image (splice : Splice) (edge : Edge) :
    (splice.image cfg edge).label = edge.label := by
  rw [image]
  split
  · cases splice <;> rfl
  · rfl

/-- The image of an edge, by its parts. -/
theorem image_eq (hs : splice.Admissible cfg) (edge : Edge) : splice.image cfg edge =
    ⟨splice.heir cfg edge.source, (splice.image cfg edge).target, edge.label⟩ := by
  rw [← source_image hs, ← label_image splice edge]

/-- A well-formed graph, and what an admissible splice makes of it. -/
structure Admitted (cfg cfg' : FlowGraph) (splice : Splice) : Prop where
  wellFormed : cfg.WellFormed
  admissible : splice.Admissible cfg
  run : splice.run cfg = .ok cfg'
  sound : cfg'.Sound
  effect : Effect cfg cfg' splice

section

variable (h : Admitted cfg cfg' splice)
include h

/-- Admitted graphs fit. -/
theorem Admitted.fitting : cfg.Fitting :=
  wellFormed_iff_fitting.mp h.wellFormed

/-- An heir has the edges of the old node, with their labels. -/
theorem Admitted.outgoing_heir (hp : p < cfg.nextId) : cfg'.outgoing (splice.heir cfg p) =
      (cfg.outgoing p).map fun link => ((splice.image cfg ⟨p, link.1, link.2⟩).target, link.2) := by
  refine h.wellFormed.outgoing_eq_map h.sound.graph
    (fun link => (splice.image cfg ⟨p, link.1, link.2⟩).target) fun link => ?_
  rw [h.effect.mem_outgoing_iff]
  constructor
  · intro hnew
    rcases hnew with ⟨old, hold, heq⟩ | hadded
    · have hsource : splice.heir cfg old.source = splice.heir cfg p := by
        rw [← source_image h.admissible, heq]
      obtain rfl := heir_injective (lt_nextId_of_hasEdge h.wellFormed.sound hold).1 hp hsource
      refine ⟨(old.target, old.label), Graph.hasEdge_iff.mp hold, ?_⟩
      show link = ((splice.image cfg old).target, old.label)
      rw [← label_image splice old, heq]
    · exact absurd rfl (source_ne_heir h.admissible hp hadded)
  · intro hold
    obtain ⟨old, hold, rfl⟩ := hold
    exact .inl ⟨⟨p, old.1, old.2⟩, Graph.hasEdge_iff.mpr hold, image_eq h.admissible _⟩

/-- The outgoing edges of an heir fit the kind of the old node. -/
theorem Admitted.outgoingFits_heir {kind : Kind} (hkind : cfg.kind? p = some kind) :
    cfg'.OutgoingFits (splice.heir cfg p) kind := by
  have hp := lt_nextId_of_contains (contains_of_kind? hkind)
  have hfits := h.fitting.outgoing hkind
  refine hfits.map (h.outgoing_heir hp) fun hspin link hlink => ?_
  -- No splice that is admissible moves the edge of a spin to itself, unless the spin is replaced.
  subst hspin
  obtain ⟨label, hself⟩ := hfits
  obtain rfl : link = (p, label) := by simpa [hself] using hlink
  cases splice with
  | prepend id chain => by_cases hid : p = id <;> simp [image, moves, heir, hid, ← hkind]
  | postpend id chain =>
    have hne : p ≠ id := fun heq => h.admissible.kind?_ne_spin (heq ▸ hkind)
    simp [image, moves, heir, hne]
  | innerInsert cut chain =>
    have hne : (⟨p, p, label⟩ : Edge) ≠ cut := by
      rintro rfl
      exact h.admissible.2.1 ⟨hkind, rfl⟩
    simp [image, moves, heir, hne]
  | replace id node => by_cases hid : p = id <;> simp [image, moves, shift, heir, hid]

end

/-! ### Edges that are added -/

/-- Chain edges are added. -/
theorem chainEdge_mem_added (hk : k + 1 < splice.chain.length) :
    (⟨cfg.nextId + k, cfg.nextId + k + 1, none⟩ : Edge) ∈ splice.added cfg := by
  have hmem : (⟨cfg.nextId + k, cfg.nextId + k + 1, none⟩ : Edge) ∈ cfg.chainEdges splice.chain :=
    mem_chainEdges.mpr ⟨k, Nat.lt_sub_of_add_lt hk, rfl⟩
  cases splice with
  | prepend id chain | postpend id chain | innerInsert cut chain =>
    exact mem_cons_of_mem _ hmem
  | replace id node => exact hmem

/-- No two edges that are added leave the same node. -/
theorem eq_of_mem_added (hs : splice.Admissible cfg) {other : Edge}
    (hedge : edge ∈ splice.added cfg)
    (hother : other ∈ splice.added cfg) (h : other.source = edge.source) : other = edge := by
  have htied : ∀ (tie : Edge) (chain : List Node),
      (∀ e ∈ cfg.chainEdges chain, e.source ≠ tie.source) →
      edge ∈ tie :: cfg.chainEdges chain → other ∈ tie :: cfg.chainEdges chain → other = edge := by
    intro tie chain hapart hedge hother
    rcases mem_cons.mp hedge with rfl | hfirst <;> rcases mem_cons.mp hother
      with rfl | hsecond
    · rfl
    · exact absurd h (hapart other hsecond)
    · exact absurd h.symm (hapart edge hfirst)
    · obtain ⟨k, -, rfl⟩ := mem_chainEdges.mp hfirst
      obtain ⟨k', -, rfl⟩ := mem_chainEdges.mp hsecond
      obtain rfl : k' = k := Nat.add_left_cancel h
      rfl
  cases splice with
  | prepend id chain | innerInsert cut chain =>
    refine htied _ chain (fun e he => ?_) hedge hother
    exact Nat.ne_of_lt (source_lt_of_mem_chainEdges he)
  | postpend id chain =>
    refine htied _ chain (fun e he => ?_) hedge hother
    exact Nat.ne_of_gt (Nat.lt_of_lt_of_le (lt_nextId_of_contains hs.present)
      (lt_of_mem_chainEdges he).1)
  | replace id node => cases hedge

/-- An edge that is added is the one way out of its source. -/
theorem Admitted.outgoing_added (h : Admitted cfg cfg' splice) (hedge : edge ∈ splice.added cfg) :
    cfg'.outgoing edge.source = [(edge.target, edge.label)] := by
  refine h.sound.graph.outgoing_eq_singleton fun link => ?_
  rw [h.effect.mem_outgoing_iff]
  constructor
  · intro hnew
    rcases hnew with ⟨old, hold, heq⟩ | hadded
    · have hsource : edge.source = splice.heir cfg old.source := by
        rw [← source_image h.admissible, heq]
      exact absurd hsource (source_ne_heir h.admissible
        (lt_nextId_of_hasEdge h.wellFormed.sound hold).1 hedge)
    · rw [← eq_of_mem_added h.admissible hedge hadded rfl]
  · intro heq
    subst heq
    exact .inr hedge

/-- Every node of a chain has one way out. -/
theorem Admitted.outgoing_inserted (h : Admitted cfg cfg' splice) (hk : k < splice.chain.length)
    (hchain : ∀ id node, splice ≠ .replace id node) :
    ∃ next label, cfg'.outgoing (cfg.nextId + k) = [(next, label)] := by
  by_cases hinner : k + 1 < splice.chain.length
  · exact ⟨_, _, h.outgoing_added (chainEdge_mem_added hinner)⟩
  · -- The last node of the chain is tied to the graph, or is the heir of the node in front.
    obtain rfl : k = splice.chain.length - 1 := by omega
    cases splice with
    | prepend id chain | innerInsert cut chain =>
      exact ⟨_, _, h.outgoing_added mem_cons_self⟩
    | postpend id chain =>
      obtain ⟨kind, hkind, hsingle⟩ := h.admissible.1
      have hfits := h.outgoingFits_heir hkind
      rw [heir, if_pos rfl] at hfits
      exact (outgoingFits_of_single hsingle).mp hfits
    | replace id node => exact absurd rfl (hchain id node)

/-! ### Entries -/

/-- An edge that is added has a new number at one end. -/
theorem le_of_mem_added (hedge : edge ∈ splice.added cfg) :
    cfg.nextId ≤ edge.source ∨ cfg.nextId ≤ edge.target := by
  cases splice with
  | prepend id chain | innerInsert cut chain =>
    rcases mem_cons.mp hedge with rfl | hmem
    · exact .inl (le_chainEnds cfg chain).2
    · exact .inl (lt_of_mem_chainEdges hmem).1
  | postpend id chain =>
    rcases mem_cons.mp hedge with rfl | hmem
    · exact .inr (Nat.le_refl _)
    · exact .inl (lt_of_mem_chainEdges hmem).1
  | replace id node => cases hedge

/-- Added edges enter an old node only from a chain in front or in an edge into it. -/
theorem enters_of_mem_added (hedge : edge ∈ splice.added cfg) (hlt : edge.target < cfg.nextId) :
    (∃ chain, splice = .prepend edge.target chain) ∨
      ∃ cut chain, splice = .innerInsert cut chain ∧ cut.target = edge.target := by
  have hinner : ∀ chain, edge ∉ cfg.chainEdges chain := fun chain hmem =>
    Nat.lt_asymm (lt_of_mem_chainEdges hmem).2 hlt
  cases splice with
  | prepend id chain =>
    obtain rfl := (mem_cons.mp hedge).resolve_right (hinner chain)
    exact .inl ⟨chain, rfl⟩
  | postpend id chain =>
    obtain rfl := (mem_cons.mp hedge).resolve_right (hinner chain)
    exact absurd hlt (Nat.lt_irrefl _)
  | innerInsert cut chain =>
    obtain rfl := (mem_cons.mp hedge).resolve_right (hinner chain)
    exact .inr ⟨cut, chain, rfl, rfl⟩
  | replace id node => cases hedge

/-- A node without an edge to itself does not get one. -/
theorem not_mem_successors (h : cfg.Sound) (he : Effect cfg cfg' splice) (hp : p < cfg.nextId)
    (hself : p ∉ cfg.successors p) : p ∉ cfg'.successors p := by
  intro hmem
  obtain ⟨label, hlink⟩ := Graph.mem_successors.mp hmem
  rcases he.mem_outgoing_iff.mp hlink with ⟨old, hold, himage⟩ | hadded
  · have heq := restore_image h splice hold
    rw [himage] at heq
    obtain rfl : (⟨p, p, label⟩ : Edge) = old := by simpa [restore, hp] using heq
    exact hself (Graph.mem_successors.mpr ⟨label, Graph.hasEdge_iff.mp hold⟩)
  · rcases le_of_mem_added hadded with hle | hle <;> exact Nat.not_lt.mpr hle hp

/-- A redirected edge is followed by an added one to its old target. -/
theorem exists_tie (hkept : splice.removed? ≠ some edge.target)
    (hmoved : (splice.image cfg edge).target ≠ edge.target) :
    ∃ tie ∈ splice.added cfg, tie.target = edge.target ∧ cfg.nextId ≤ tie.source := by
  cases splice with
  | prepend id chain =>
    have hid : edge.target = id := by
      by_contra hne
      simp [image, moves, hne] at hmoved
    exact ⟨_, mem_cons_self, hid.symm, (le_chainEnds cfg chain).2⟩
  | postpend id chain =>
    rw [image] at hmoved
    split at hmoved <;> exact absurd rfl hmoved
  | innerInsert cut chain =>
    obtain rfl : edge = cut := by
      by_contra hne
      simp [image, moves, hne] at hmoved
    exact ⟨_, mem_cons_self, rfl, (le_chainEnds cfg chain).2⟩
  | replace id node =>
    have hne : edge.target ≠ id := fun hid => hkept (congrArg some hid.symm)
    by_cases hsource : edge.source = id <;> simp [image, moves, shift, hne, hsource] at hmoved

/-- A node stays entered, and from another node if it was. -/
theorem exists_entry (h : cfg.Sound) (he : Effect cfg cfg' splice) (hold : cfg.hasEdge edge)
    (hkept : splice.removed? ≠ some edge.target) : ∃ new, cfg'.hasEdge new ∧
      new.target = edge.target ∧ (edge.source ≠ edge.target → new.source ≠ edge.target) := by
  have hlt := (lt_nextId_of_hasEdge h hold).2
  by_cases hsame : (splice.image cfg edge).target = edge.target
  · refine ⟨_, he.hasEdge_iff.mpr (.inl ⟨edge, hold, rfl⟩), hsame, fun hne => ?_⟩
    rw [image]
    split
    · rcases (shift_ends cfg splice edge).1 with hsource | hfresh
      · rwa [hsource]
      · exact Nat.ne_of_gt (Nat.lt_of_lt_of_le hlt hfresh)
    · exact hne
  · obtain ⟨tie, htie, htarget, hfresh⟩ := exists_tie hkept hsame
    exact ⟨tie, he.hasEdge_iff.mpr (.inr htie), htarget,
      fun _ => Nat.ne_of_gt (Nat.lt_of_lt_of_le hlt hfresh)⟩

/-- A node is newly entered only by a chain in front of it. -/
theorem incoming_eq_nil (h : cfg.Sound) (h' : cfg'.Sound) (he : Effect cfg cfg' splice)
    (hpresent : splice.present cfg) (hp : p < cfg.nextId)
    (hfront : ∀ chain, splice ≠ .prepend p chain)
    (hnil : cfg.incoming p = []) : cfg'.incoming p = [] := by
  have hnone : ∀ old, cfg.hasEdge old → old.target ≠ p := by
    intro old hold htarget
    have hlink := h.graph.mirrored.mp (Graph.hasEdge_iff.mp hold)
    simp [htarget, hnil] at hlink
  refine eq_nil_iff_forall_not_mem.mpr fun link hlink => ?_
  rcases (he.mem_incoming_iff h').mp hlink with ⟨old, hold, himage⟩ | hadded
  · have heq := restore_image h splice hold
    rw [himage] at heq
    exact hnone old hold (by simp [← heq, restore, hp])
  · rcases enters_of_mem_added hadded hp with ⟨chain, hprepend⟩ | ⟨cut, chain, rfl, htarget⟩
    · exact hfront chain hprepend
    · exact hnone cut hpresent htarget

/-- The incoming edges of a node that stays go on to fit. -/
theorem Admitted.incomingFits_kept (h : Admitted cfg cfg' splice) {kind : Kind}
    (hkind : cfg.kind? p = some kind)
    (hkept : splice.removed? ≠ some p) : cfg'.IncomingFits p kind := by
  have hp := lt_nextId_of_contains (contains_of_kind? hkind)
  have hfits := h.fitting.incoming hkind
  have hentered : ∀ link ∈ cfg.incoming p, ∃ new ∈ cfg'.incoming p, link.1 ≠ p → new.1 ≠ p := by
    intro link hlink
    have hold : cfg.hasEdge ⟨link.1, p, link.2⟩ = true :=
      Graph.hasEdge_iff.mpr (h.wellFormed.sound.graph.mirrored.mpr hlink)
    obtain ⟨⟨source, target, label⟩, hnew, rfl, hother⟩ :=
      exists_entry h.wellFormed.sound h.effect hold hkept
    exact ⟨(source, label), h.sound.graph.hasEdge_iff_incoming.mp hnew, hother⟩
  cases kind with
  | start =>
    obtain ⟨rfl, hnil⟩ := hfits
    refine ⟨by rw [h.effect.start, if_neg hkept], ?_⟩
    refine incoming_eq_nil h.wellFormed.sound h.sound h.effect h.admissible.present hp
      (fun chain heq => ?_) hnil
    subst heq
    exact h.admissible.2.1 rfl
  | spin =>
    obtain ⟨link, hlink, hne⟩ := hfits
    obtain ⟨new, hnew, hother⟩ := hentered link hlink
    exact ⟨new, hnew, hother hne⟩
  | phi => exact not_mem_successors h.wellFormed.sound h.effect hp hfits
  | ret | branch | assign | store | call | block | stub =>
    obtain ⟨link, hlink⟩ := exists_mem_of_ne_nil _ hfits
    obtain ⟨new, hnew, -⟩ := hentered link hlink
    exact ne_nil_of_mem hnew

/-- A node in front of which a chain may be put is entered by an edge that moves. -/
theorem exists_moved_entry (h : cfg.WellFormed) {id : NodeId} {chain : List Node}
    (hs : Admissible cfg (.prepend id chain)) :
    ∃ old, cfg.hasEdge old ∧ moves cfg (.prepend id chain) old := by
  obtain ⟨hid, hstart, hphi, -⟩ := hs
  obtain ⟨node, hnode⟩ := FlowGraph.exists_node hid
  have hkind := kind?_eq_some hnode
  have hfits := (wellFormed_iff_fitting.mp h).incoming hkind
  have hmoves : ∀ link ∈ cfg.incoming id, ¬ (link.1 = id ∧ cfg.kind? id = some .spin) →
      ∃ old, cfg.hasEdge old ∧ moves cfg (.prepend id chain) old := by
    intro link hlink hkeeps
    refine ⟨⟨link.1, id, link.2⟩, Graph.hasEdge_iff.mpr (h.sound.graph.mirrored.mpr hlink), ?_⟩
    exact decide_eq_true ⟨rfl, hkeeps⟩
  rw [hkind] at hphi hmoves
  generalize node.kind = kind at *
  cases kind with
  | start => exact absurd hfits.1 hstart
  | spin =>
    obtain ⟨link, hlink, hne⟩ := hfits
    exact hmoves link hlink fun hself => hne hself.1
  | phi => exact absurd rfl hphi
  | ret | branch | assign | store | call | block | stub =>
    obtain ⟨link, hlink⟩ := exists_mem_of_ne_nil _ hfits
    exact hmoves link hlink (by simp)

/-- Every node of a chain is entered. -/
theorem Admitted.incoming_inserted (h : Admitted cfg cfg' splice) (hk : k < splice.chain.length)
    (hchain : ∀ id node, splice ≠ .replace id node) : cfg'.incoming (cfg.nextId + k) ≠ [] := by
  suffices hentry : ∃ edge, cfg'.hasEdge edge ∧ edge.target = cfg.nextId + k by
    obtain ⟨⟨source, target, label⟩, hedge, rfl⟩ := hentry
    exact ne_nil_of_mem (h.sound.graph.hasEdge_iff_incoming.mp hedge)
  cases k with
  | zero =>
    cases splice with
    | prepend id chain =>
      obtain ⟨old, hold, hmoves⟩ := exists_moved_entry h.wellFormed h.admissible
      exact ⟨_, h.effect.hasEdge_iff.mpr (.inl ⟨old, hold, if_pos hmoves⟩), rfl⟩
    | postpend id chain => exact ⟨_, h.effect.hasEdge_iff.mpr (.inr mem_cons_self), rfl⟩
    | innerInsert cut chain =>
      exact ⟨_, h.effect.hasEdge_iff.mpr (.inl ⟨cut, h.admissible.1, if_pos (decide_eq_true rfl)⟩),
        rfl⟩
    | replace id node => exact absurd rfl (hchain id node)
  | succ k =>
    exact ⟨_, h.effect.hasEdge_iff.mpr (.inr (chainEdge_mem_added hk)), rfl⟩

section Replacement

variable {id : NodeId}

/-- Edges at the old node become edges at the new one. -/
theorem perm_incoming_replace (h : cfg.Sound) (h' : cfg'.Sound)
    (he : Effect cfg cfg' (.replace id node)) : (cfg'.incoming cfg.nextId).Perm
      ((cfg.incoming id).map fun link => (if link.1 = id then cfg.nextId else link.1, link.2)) := by
  have hnodup : ((cfg.incoming id).map fun link : Link =>
      (if link.1 = id then cfg.nextId else link.1, link.2)).Nodup := by
    refine (h.graph.incoming_nodup id).map_on fun first hfirst second hsecond heq => ?_
    have hfirst := lt_nextId_of_contains (h.graph.contains_source hfirst)
    have hsecond := lt_nextId_of_contains (h.graph.contains_source hsecond)
    obtain ⟨hsource, hlabel⟩ := Prod.mk.inj heq
    refine Prod.ext ?_ hlabel
    simp only [NodeId] at *
    split at hsource <;> split at hsource <;> omega
  refine (perm_ext_iff_of_nodup (h'.graph.incoming_nodup _) hnodup).mpr fun link => ?_
  rw [he.mem_incoming_iff h', mem_map]
  constructor
  · intro hnew
    rcases hnew with ⟨old, hold, himage⟩ | hadded
    · have htarget : old.target = id := by
        have heq := restore_image h (.replace id node) hold
        rw [himage] at heq
        simp [← heq, restore, site]
      have hlink : (old.source, old.label) ∈ cfg.incoming id := by
        rw [← htarget]
        exact h.graph.mirrored.mp (Graph.hasEdge_iff.mp hold)
      refine ⟨_, hlink, ?_⟩
      simp only [image, moves, htarget, or_true, decide_true, if_pos, shift, Edge.mk.injEq]
        at himage
      exact Prod.ext himage.1 himage.2.2
    · cases hadded
  · intro hold
    obtain ⟨old, hold, rfl⟩ := hold
    refine .inl ⟨⟨old.1, id, old.2⟩, Graph.hasEdge_iff.mpr (h.graph.mirrored.mpr hold), ?_⟩
    simp [image, moves, shift]

/-- A node in the place of one of its kind has fitting incoming edges. -/
theorem Admitted.incomingFits_replacement (h : Admitted cfg cfg' (.replace id node)) :
    cfg'.IncomingFits cfg.nextId node.kind := by
  obtain ⟨old, hold, hkind, -⟩ := h.admissible
  have hperm := perm_incoming_replace h.wellFormed.sound h.sound h.effect
  have hfits := h.fitting.incoming (kind?_eq_some hold)
  have hlt : ∀ link ∈ cfg.incoming id, link.1 < cfg.nextId := fun link hlink =>
    lt_nextId_of_contains (h.wellFormed.sound.graph.contains_source hlink)
  rw [hkind]
  generalize old.kind = kind at hfits
  cases kind with
  | start =>
    obtain ⟨hstart, hnil⟩ := hfits
    rw [hnil, map_nil] at hperm
    refine ⟨?_, hperm.eq_nil⟩
    rw [h.effect.start]
    exact (if_pos (congrArg some hstart)).symm
  | spin =>
    obtain ⟨link, hlink, hne⟩ := hfits
    refine ⟨link, hperm.mem_iff.mpr (mem_map.mpr ⟨link, hlink, ?_⟩),
      Nat.ne_of_lt (hlt link hlink)⟩
    rw [if_neg hne]
  | phi =>
    intro hmem
    obtain ⟨label, hself⟩ := Graph.mem_successors.mp hmem
    obtain ⟨link, hlink, heq⟩ := mem_map.mp
      (hperm.mem_iff.mp (h.sound.graph.mirrored.mp hself))
    have hsource : link.1 = id := by
      by_contra hne
      rw [if_neg hne] at heq
      exact Nat.ne_of_lt (hlt link hlink) (congrArg Prod.fst heq)
    have hown : (id, link.2) = link := Prod.ext hsource.symm rfl
    exact hfits (Graph.mem_successors.mpr ⟨link.2, h.wellFormed.sound.graph.mirrored.mpr
      (hown ▸ hlink)⟩)
  | ret | branch | assign | store | call | block | stub =>
    intro hnil
    rw [hnil] at hperm
    exact hfits (map_eq_nil_iff.mp hperm.symm.eq_nil)

/-- A phi block in the place of another has a slot for each edge. -/
theorem Admitted.slots_replacement (h : Admitted cfg cfg' (.replace id node)) {phi : Phi}
    {span : Span} (hphi : node = .phi phi span) :
    (cfg'.incoming cfg.nextId).length = phi.arity := by
  obtain ⟨old, hold, -, harity⟩ := h.admissible
  subst hphi
  cases old with
  | phi phi' span' =>
    have harity : phi.arity = phi'.arity := by simpa [Node.phi?] using harity
    rw [(perm_incoming_replace h.wellFormed.sound h.sound h.effect).length_eq,
      length_map, harity]
    exact h.fitting.slots hold
  | _ => simp [Node.phi?] at harity

end Replacement

/-- A phi block that stays has a slot for each edge. -/
theorem Admitted.slots_kept (h : Admitted cfg cfg' splice) {phi : Phi} {span : Span}
    (hphi : cfg.node? p = some (.phi phi span)) (hkept : splice.removed? ≠ some p) :
    (cfg'.incoming p).length = phi.arity := by
  have hlive : cfg.contains p := contains_of_payload? hphi
  have hp := lt_nextId_of_contains hlive
  by_cases hsite : splice.site? = some p
  · cases splice with
    | prepend id chain =>
      cases hsite
      exact absurd (kind?_eq_some hphi) h.admissible.2.2.1
    | postpend id chain =>
      cases hsite
      -- A phi block has no edge to itself, so that no edge into it moves.
      rw [h.effect.incoming _ hp, h.fitting.slots hphi]
      · intro edge hedge hmoves htarget
        obtain ⟨hsource, -⟩ := of_decide_eq_true hmoves
        refine h.fitting.incoming (kind?_eq_some hphi) (Graph.mem_successors.mpr ⟨edge.label, ?_⟩)
        have hlink := Graph.hasEdge_iff.mp (mem_edges.mp hedge)
        rwa [hsource, htarget] at hlink
      · intro edge hedge htarget
        rcases enters_of_mem_added hedge (htarget ▸ hp) with ⟨_, heq⟩ | ⟨_, _, heq, -⟩ <;> cases heq
    | innerInsert cut chain => cases hsite
    | replace id node => exact absurd hsite hkept
  · have hrequeued := (requeued h.wellFormed.sound h.run hlive hsite).2
    rw [hrequeued.perm.length_eq, length_map, h.fitting.slots hphi]

/-! ### All nodes -/

/-- A node is one of the old graph or was put in. -/
theorem Effect.node_cases (he : Effect cfg cfg' splice) (hnode : cfg'.node? p = some node) :
    cfg.node? p = some node ∧ splice.removed? ≠ some p ∨
      ∃ k, p = cfg.nextId + k ∧ splice.chain[k]? = some node := by
  rw [he.nodes] at hnode
  split at hnode
  · cases hnode
  next hkept =>
  split at hnode
  · exact .inl ⟨hnode, hkept⟩
  · next hle => exact .inr ⟨p - cfg.nextId, (Nat.add_sub_cancel' (Nat.not_lt.mp hle)).symm, hnode⟩

/-- A node put in replaces one of its kind, or is in a chain. -/
theorem Admissible.inserted_cases (hs : splice.Admissible cfg)
    (hnode : splice.chain[k]? = some node) : (∃ id, splice = .replace id node ∧ k = 0) ∨
      (∀ id node, splice ≠ .replace id node) ∧ k < splice.chain.length ∧ node.kind.plain := by
  obtain ⟨hk, hget⟩ := List.getElem?_eq_some_iff.mp hnode
  have hmem := mem_of_getElem? hnode
  cases splice with
  | prepend id chain => exact .inr ⟨by simp, hk, hs.2.2.2.2 node hmem⟩
  | postpend id chain => exact .inr ⟨by simp, hk, hs.2.2 node hmem⟩
  | innerInsert cut chain => exact .inr ⟨by simp, hk, hs.2.2.2 node hmem⟩
  | replace id new =>
    obtain rfl := mem_singleton.mp hmem
    exact .inl ⟨id, rfl, Nat.lt_one_iff.mp hk⟩

section

variable (h : Admitted cfg cfg' splice)
include h

/-- Links out fit after the splice. -/
theorem Admitted.outgoingFits_node (hnode : cfg'.node? p = some node) :
    cfg'.OutgoingFits p node.kind := by
  rcases h.effect.node_cases hnode with ⟨hold, hkept⟩ | ⟨k, rfl, hget⟩
  · have hkind := kind?_eq_some hold
    have hfits := h.outgoingFits_heir hkind
    -- A node that is not its own heir has a chain behind it, and the edge to the chain is its way
    -- out.
    cases splice with
    | prepend id chain | innerInsert cut chain => exact hfits
    | postpend id chain =>
      by_cases hid : p = id
      · subst hid
        obtain ⟨kind, hsite, hsingle⟩ := h.admissible.1
        obtain rfl : node.kind = kind := Option.some.inj (hkind.symm.trans hsite)
        exact (outgoingFits_of_single hsingle).mpr
          ⟨_, _, h.outgoing_added mem_cons_self⟩
      · rwa [heir, if_neg hid] at hfits
    | replace id new =>
      have hid : p ≠ id := fun heq => hkept (congrArg some heq.symm)
      rwa [heir, if_neg hid] at hfits
  · rcases h.admissible.inserted_cases hget with ⟨id, rfl, rfl⟩ | ⟨hchain, hk, hplain⟩
    · obtain ⟨old, hold, hkind, -⟩ := h.admissible
      have hfits := h.outgoingFits_heir (kind?_eq_some hold)
      rwa [heir, if_pos rfl, ← hkind] at hfits
    · exact (outgoingFits_of_single (Kind.single_of_plain hplain)).mpr
        (h.outgoing_inserted hk hchain)

/-- Links in fit after the splice. -/
theorem Admitted.incomingFits_node (hnode : cfg'.node? p = some node) :
    cfg'.IncomingFits p node.kind := by
  rcases h.effect.node_cases hnode with ⟨hold, hkept⟩ | ⟨k, rfl, hget⟩
  · exact h.incomingFits_kept (kind?_eq_some hold) hkept
  · rcases h.admissible.inserted_cases hget with ⟨id, rfl, rfl⟩ | ⟨hchain, hk, hplain⟩
    · exact h.incomingFits_replacement
    · exact (incomingFits_of_plain hplain).mpr (h.incoming_inserted hk hchain)

/-- The start is a start node, also if it was replaced. -/
theorem Admitted.kind?_start : cfg'.kind? cfg'.start = some .start := by
  have hstart := h.fitting.start
  rw [h.effect.kind?_start h.wellFormed.sound]
  split
  · next hremoved =>
    cases splice with
    | replace id node =>
      obtain ⟨old, hold, hkind, -⟩ := h.admissible
      obtain rfl : id = cfg.start := Option.some.inj hremoved
      rw [← hstart, kind?_eq_some hold, ← hkind]
      rfl
    | prepend | postpend | innerInsert => cases hremoved
  · exact hstart

end

/-- Every node fits after an admissible splice. -/
theorem fitting_result (h : cfg.WellFormed) (hs : splice.Admissible cfg) :
    (splice.result cfg).Fitting := by
  have hpresent := hs.present
  have hchain := hs.chain_ne_nil
  have hadmitted : Admitted cfg (splice.result cfg) splice :=
    ⟨h, hs, run_result hpresent hchain, sound_result h.sound hpresent hchain,
      effect_result h.sound hpresent hchain⟩
  refine ⟨hadmitted.sound, hadmitted.kind?_start, fun hkind => ?_, fun hkind => ?_, fun hphi => ?_⟩
  · obtain ⟨node, hnode, rfl⟩ := Option.map_eq_some_iff.mp hkind
    exact hadmitted.outgoingFits_node hnode
  · obtain ⟨node, hnode, rfl⟩ := Option.map_eq_some_iff.mp hkind
    exact hadmitted.incomingFits_node hnode
  · rcases hadmitted.effect.node_cases hphi with ⟨hold, hkept⟩ | ⟨k, rfl, hget⟩
    · exact hadmitted.slots_kept hold hkept
    · rcases hs.inserted_cases hget with ⟨id, rfl, rfl⟩ | ⟨-, -, hplain⟩
      · exact hadmitted.slots_replacement rfl
      · cases hplain

/-- A well-formed graph is well formed again when a chain of instructions and blocks was put into an
edge that is not that of a spin to itself, in front of a node that is neither the start nor a phi
block, or behind a node with one way out, and when a node was replaced by one of its kind, a phi
block by one with as many slots. -/
theorem wellFormed_performed (h : cfg.WellFormed) (hs : splice.Admissible cfg) : ∃ after,
    splice.perform.run cfg = .ok (some (cfg.chainEnds splice.chain)) after ∧ after.WellFormed := by
  refine ⟨splice.result cfg, ?_, FlowGraph.wellFormed_iff_fitting.mpr (fitting_result h hs)⟩
  rw [perform_eq h.sound, if_pos hs.present, if_neg hs.chain_ne_nil]

/-- Two ways to a phi block, and a spin behind it. -/
def merging : FlowGraph :=
  .ofNodes .dummy [.branch (.temp "c") .dummy, .assign "x" (.const 1) .dummy, .phi ⟨2, ∅⟩ .dummy,
      .spin .dummy]
    [⟨0, 1, none⟩, ⟨1, 2, some true⟩, ⟨1, 3, some false⟩, ⟨2, 3, none⟩, ⟨3, 4, none⟩, ⟨4, 4, none⟩]

/-- Chains into the false way, in front of the spin and behind the phi block, and another phi block.
-/
theorem wellFormed_performed_merging : merging.WellFormed ∧
    ∀ splice ∈ [innerInsert ⟨1, 3, some false⟩ [.assign "y" (.const 2) .dummy, .block [] .dummy],
        prepend 4 [.assign "y" (.const 2) .dummy], postpend 3 [.assign "y" (.const 2) .dummy],
        replace 3 (.phi (.ofVars 2 ["x"]) .dummy)],
      splice.Admissible merging ∧ ∃ ends after, splice.perform.run merging = .ok ends after ∧
        after.WellFormed := by
  have hwell : merging.WellFormed := ⟨by decide +kernel, .dummy, rfl⟩
  refine ⟨hwell, fun splice hmem => ?_⟩
  have hs : splice.Admissible merging := by
    simp only [mem_cons, not_mem_nil, or_false] at hmem
    rcases hmem with rfl | rfl | rfl | rfl
    · exact ⟨by decide +kernel, by decide +kernel, cons_ne_nil _ _, by decide⟩
    · exact ⟨by decide +kernel, by decide +kernel, by decide +kernel,
        cons_ne_nil _ _, by decide⟩
    · exact ⟨⟨.phi, rfl, rfl⟩, cons_ne_nil _ _, by decide⟩
    · exact ⟨.phi ⟨2, ∅⟩ .dummy, rfl, rfl, rfl⟩
  obtain ⟨after, hrun, hafter⟩ := wellFormed_performed hwell hs
  exact ⟨hs, _, after, hrun, hafter⟩

end Splice

end Flowgraph

import Flowgraph.Flow.Surgery
import Mathlib.Data.List.Nodup
import Mathlib.Logic.Relation

/-!
# Graphs whose adjacency lists agree

A graph stores every edge twice. `Graph.Sound` says that the two copies agree, that no list has a
repetition, and that the true way out of a node comes first. Edges of a sound graph have live ends.
The first part says what each change does to liveness, payloads and lists, the second that sound
graphs stay sound.
-/

namespace Flowgraph.Graph

open List

variable {α : Type} {g : Graph α} {id source target : NodeId} {link : Link} {edge : Edge}

/-! ### Liveness -/

/-- The next number is free. -/
theorem vertex?_nextId (g : Graph α) : g.vertex? g.nextId = none := by
  simp [vertex?, nextId]

/-- The next number is not in use. -/
@[simp] theorem contains_nextId (g : Graph α) : g.contains g.nextId = false := by
  simp [contains, vertex?_nextId]

/-- A live node has a number that was handed out. -/
theorem lt_nextId_of_contains (h : g.contains id) : id < g.nextId := by
  by_contra hge
  have hnone : g.vertex? id = none := by
    simp [vertex?, Array.getElem?_eq_none (Nat.le_of_not_lt hge)]
  simp [contains, hnone] at h

/-- Live nodes are below the next number. -/
theorem ne_nextId_of_contains (h : g.contains id) : id ≠ g.nextId := by
  rintro rfl
  simp at h

/-- Live nodes are those with a payload. -/
theorem payload?_isSome (g : Graph α) (id : NodeId) : (g.payload? id).isSome = g.contains id := by
  simp [payload?, contains]

/-- Nodes with a payload are live. -/
theorem contains_of_payload? {payload : α} (h : g.payload? id = some payload) :
    g.contains id := by
  rw [← payload?_isSome, h, Option.isSome_some]

/-- Nodes without a payload are missing. -/
theorem not_contains_of_payload? (h : g.payload? id = none) : g.contains id = false := by
  rw [← payload?_isSome, h, Option.isSome_none]

/-- A node with an outgoing edge is live. -/
theorem contains_of_mem_outgoing (h : link ∈ g.outgoing id) : g.contains id := by
  cases hv : g.vertex? id with
  | none => simp [outgoing, hv] at h
  | some vertex => simp [contains, hv]

/-- A node with an incoming edge is live. -/
theorem contains_of_mem_incoming (h : link ∈ g.incoming id) : g.contains id := by
  cases hv : g.vertex? id with
  | none => simp [incoming, hv] at h
  | some vertex => simp [contains, hv]

/-- Missing nodes have no links. -/
theorem outgoing_eq_nil (h : g.contains id = false) : g.outgoing id = [] := by
  have hv : g.vertex? id = none := by simpa [contains] using h
  simp [outgoing, hv]

/-- Edges are listed at their source. -/
theorem hasEdge_iff :
    g.hasEdge edge ↔ (edge.target, edge.label) ∈ g.outgoing edge.source := by
  simp [hasEdge]

/-- The edges out of a node. -/
theorem mem_edgesFrom :
    edge ∈ g.edgesFrom source ↔ edge.source = source ∧ g.hasEdge edge := by
  rw [hasEdge_iff, edgesFrom, mem_map]
  constructor
  · intro ⟨link, hlink, hedge⟩
    subst hedge
    exact ⟨rfl, hlink⟩
  · intro ⟨hsource, hedge⟩
    subst hsource
    exact ⟨_, hedge, rfl⟩

/-- Successors are read off the links. -/
theorem successors_eq {links : List Link} (h : g.outgoing id = links) :
    g.successors id = links.map (·.1) := by
  rw [successors, h]

/-- Successors are the ends of links. -/
theorem mem_successors :
    target ∈ g.successors source ↔ ∃ label, (target, label) ∈ g.outgoing source := by
  simp [successors]

/-- The successor along a single link. -/
theorem mem_successors_of_eq {label : Label} (h : g.outgoing source = [(target, label)]) :
    target ∈ g.successors source := by
  rw [successors_eq h]
  exact mem_singleton_self _

/-- Predecessors are the sources of links. -/
theorem mem_predecessors :
    source ∈ g.predecessors target ↔ ∃ label, (source, label) ∈ g.incoming target := by
  simp [predecessors]

/-! ### What a change of payload does -/

section Payload

variable (g : Graph α) (id other : NodeId) (payload : α)

/-- Payloads take no number. -/
@[simp] theorem nextId_setPayload : (g.setPayload id payload).nextId = g.nextId := by
  simp [nextId, setPayload, update]

/-- Payloads keep the nodes. -/
@[simp] theorem contains_setPayload :
    (g.setPayload id payload).contains other = g.contains other := by
  by_cases h : id = other <;> simp [contains, setPayload, h]

/-- Payloads keep the links out. -/
@[simp] theorem outgoing_setPayload :
    (g.setPayload id payload).outgoing other = g.outgoing other := by
  cases hv : g.vertex? other <;> by_cases h : id = other <;> simp [outgoing, setPayload, h, hv]

/-- Payloads keep the links in. -/
@[simp] theorem incoming_setPayload :
    (g.setPayload id payload).incoming other = g.incoming other := by
  cases hv : g.vertex? other <;> by_cases h : id = other <;> simp [incoming, setPayload, h, hv]

/-- A new payload is seen at its own node only. -/
theorem payload?_setPayload :
    (g.setPayload id payload).payload? other =
      if id = other then (g.payload? other).map fun _ => payload else g.payload? other := by
  cases hv : g.vertex? other <;> by_cases h : id = other <;> simp [payload?, setPayload, h, hv]

end Payload

/-! ### What an insertion does -/

section Insertion

variable (g : Graph α) (payload : α) (id : NodeId)

/-- Insertion takes one number. -/
@[simp] theorem nextId_insert : (g.insert payload).nextId = g.nextId + 1 := by
  simp [nextId, insert]

/-- Insertion adds one node. -/
theorem contains_insert :
    (g.insert payload).contains id = (decide (id = g.nextId) || g.contains id) := by
  by_cases h : id = g.nextId <;> simp [contains, h]

/-- The inserted node is live. -/
theorem contains_insert_self : (g.insert payload).contains g.nextId := by
  simp [contains_insert]

/-- Insertion adds no link out. -/
@[simp] theorem outgoing_insert : (g.insert payload).outgoing id = g.outgoing id := by
  by_cases h : id = g.nextId <;> simp [outgoing, h, vertex?_nextId]

/-- Insertion adds no link in. -/
@[simp] theorem incoming_insert : (g.insert payload).incoming id = g.incoming id := by
  by_cases h : id = g.nextId <;> simp [incoming, h, vertex?_nextId]

/-- Insertion keeps the other payloads. -/
theorem payload?_insert :
    (g.insert payload).payload? id = if id = g.nextId then some payload else g.payload? id := by
  by_cases h : id = g.nextId <;> simp [payload?, h]

end Insertion

/-! ### What a new edge does -/

section AddEdge

variable (g : Graph α) (edge : Edge) (id : NodeId) {links : List Link}

/-- Edges take no number. -/
@[simp] theorem nextId_addEdge : (g.addEdge edge).nextId = g.nextId := by
  unfold addEdge
  split <;> simp [nextId, update]

/-- Edges add no node. -/
@[simp] theorem contains_addEdge : (g.addEdge edge).contains id = g.contains id := by
  unfold addEdge
  split
  · rfl
  · by_cases hs : edge.source = id <;> by_cases ht : edge.target = id <;> simp [contains, hs, ht]

/-- Edges keep the payloads. -/
@[simp] theorem payload?_addEdge : (g.addEdge edge).payload? id = g.payload? id := by
  unfold addEdge
  split
  · rfl
  · cases hv : g.vertex? id <;> by_cases hs : edge.source = id <;>
      by_cases ht : edge.target = id <;> simp [payload?, hs, ht, hv]

/-- An edge that is there already changes nothing. -/
theorem addEdge_of_hasEdge (h : g.hasEdge edge) : g.addEdge edge = g := by
  simp [addEdge, h]

/-- New edges are placed by their label. -/
theorem outgoing_addEdge (hnew : g.hasEdge edge = false) :
    (g.addEdge edge).outgoing id =
      if edge.source = id ∧ g.contains id then
        addOutgoing (g.outgoing id) (edge.target, edge.label)
      else g.outgoing id := by
  cases hv : g.vertex? id <;> by_cases hs : edge.source = id <;> by_cases ht : edge.target = id <;>
    simp [addEdge, hnew, outgoing, contains, hs, ht, hv]

/-- New edges enter last. -/
theorem incoming_addEdge (hnew : g.hasEdge edge = false) :
    (g.addEdge edge).incoming id =
      if edge.target = id ∧ g.contains id then
        g.incoming id ++ [(edge.source, edge.label)]
      else g.incoming id := by
  cases hv : g.vertex? id <;> by_cases hs : edge.source = id <;> by_cases ht : edge.target = id <;>
    simp [addEdge, hnew, incoming, contains, hs, ht, hv]

/-- One link is added. -/
theorem mem_addOutgoing {other : Link} :
    other ∈ addOutgoing links link ↔ other ∈ links ∨ other = link := by
  unfold addOutgoing
  split
  · simp [or_comm]
  · simp

/-- New links are listed once. -/
theorem nodup_addOutgoing (h : links.Nodup) (hnew : link ∉ links) :
    (addOutgoing links link).Nodup := by
  unfold addOutgoing
  split
  · exact nodup_cons.mpr ⟨hnew, h⟩
  · simpa using h.concat hnew

/-- True branches stay in front. -/
theorem pairwise_addOutgoing
    (h : links.Pairwise fun first second => second.2 = some true → first.2 = some true) :
    (addOutgoing links link).Pairwise fun first second =>
      second.2 = some true → first.2 = some true := by
  unfold addOutgoing
  split
  · next htrue => exact pairwise_cons.mpr ⟨fun _ _ _ => htrue, h⟩
  · next hother =>
    refine pairwise_append.mpr ⟨h, pairwise_singleton _ _, ?_⟩
    intro first _ second hsecond htrue
    rw [mem_singleton.mp hsecond] at htrue
    exact absurd htrue hother

variable {g edge id}

/-- A new edge between live nodes is the only one that comes in. -/
theorem mem_outgoing_addEdge (hsource : g.contains edge.source) :
    link ∈ (g.addEdge edge).outgoing id ↔
      link ∈ g.outgoing id ∨ (id = edge.source ∧ link = (edge.target, edge.label)) := by
  by_cases hold : g.hasEdge edge
  · rw [addEdge_of_hasEdge g edge hold]
    constructor
    · exact Or.inl
    · rintro (h | ⟨rfl, rfl⟩)
      · exact h
      · exact hasEdge_iff.mp hold
  · rw [outgoing_addEdge g edge id (by simpa using hold)]
    by_cases hs : edge.source = id
    · subst hs
      simp [hsource, mem_addOutgoing]
    · simp [hs, Ne.symm hs]

/-- Edges leave their source only. -/
theorem outgoing_addEdge_of_ne {edge : Edge} {id : NodeId} (h : edge.source ≠ id) :
    (g.addEdge edge).outgoing id = g.outgoing id := by
  by_cases hold : g.hasEdge edge
  · rw [addEdge_of_hasEdge g edge hold]
  · rw [outgoing_addEdge g edge id (by simpa using hold), if_neg fun hsource => h hsource.1]

/-- Edges enter their target only. -/
theorem incoming_addEdge_of_ne {edge : Edge} {id : NodeId} (h : edge.target ≠ id) :
    (g.addEdge edge).incoming id = g.incoming id := by
  by_cases hold : g.hasEdge edge
  · rw [addEdge_of_hasEdge g edge hold]
  · rw [incoming_addEdge g edge id (by simpa using hold), if_neg fun htarget => h htarget.1]

end AddEdge

/-! ### What the removal of an edge does -/

section EraseEdge

variable (g : Graph α) (edge : Edge) (id : NodeId)

/-- Erasing an edge takes no number. -/
@[simp] theorem nextId_eraseEdge : (g.eraseEdge edge).nextId = g.nextId := by
  simp [nextId, eraseEdge, update]

/-- Erasing an edge keeps the nodes. -/
@[simp] theorem contains_eraseEdge : (g.eraseEdge edge).contains id = g.contains id := by
  by_cases hs : edge.source = id <;> by_cases ht : edge.target = id <;>
    simp [eraseEdge, contains, hs, ht]

/-- Erasing an edge keeps the payloads. -/
@[simp] theorem payload?_eraseEdge : (g.eraseEdge edge).payload? id = g.payload? id := by
  cases hv : g.vertex? id <;> by_cases hs : edge.source = id <;> by_cases ht : edge.target = id <;>
    simp [eraseEdge, payload?, hs, ht, hv]

/-- One link out is erased. -/
theorem outgoing_eraseEdge :
    (g.eraseEdge edge).outgoing id =
      if edge.source = id then (g.outgoing id).erase (edge.target, edge.label)
      else g.outgoing id := by
  cases hv : g.vertex? id <;> by_cases hs : edge.source = id <;> by_cases ht : edge.target = id <;>
    simp [eraseEdge, outgoing, hs, ht, hv]

/-- One link in is erased. -/
theorem incoming_eraseEdge :
    (g.eraseEdge edge).incoming id =
      if edge.target = id then (g.incoming id).erase (edge.source, edge.label)
      else g.incoming id := by
  cases hv : g.vertex? id <;> by_cases hs : edge.source = id <;> by_cases ht : edge.target = id <;>
    simp [eraseEdge, incoming, hs, ht, hv]

end EraseEdge

/-! ### What the removal of a node does -/

section Erase

variable (g : Graph α) (id other : NodeId)

/-- Erasing a node takes no number. -/
@[simp] theorem nextId_erase : (g.erase id).nextId = g.nextId := by
  simp [nextId, erase]

/-- One node is erased. -/
theorem contains_erase :
    (g.erase id).contains other = (decide (id ≠ other) && g.contains other) := by
  by_cases h : id = other <;> simp [contains, h]

/-- One payload is erased. -/
theorem payload?_erase :
    (g.erase id).payload? other = if id = other then none else g.payload? other := by
  cases hv : g.vertex? other <;> by_cases h : id = other <;>
    simp [payload?, h, hv, Vertex.forget]

/-- Links to the erased node go. -/
theorem outgoing_erase :
    (g.erase id).outgoing other =
      if id = other then [] else (g.outgoing other).filter (·.1 != id) := by
  cases hv : g.vertex? other <;> by_cases h : id = other <;>
    simp [outgoing, h, hv, Vertex.forget]

/-- Links from the erased node go. -/
theorem incoming_erase :
    (g.erase id).incoming other =
      if id = other then [] else (g.incoming other).filter (·.1 != id) := by
  cases hv : g.vertex? other <;> by_cases h : id = other <;>
    simp [incoming, h, hv, Vertex.forget]

/-- The edges that remain are those at other nodes. -/
theorem mem_outgoing_erase : link ∈ (g.erase id).outgoing other ↔
      id ≠ other ∧ link.1 ≠ id ∧ link ∈ g.outgoing other := by
  rw [outgoing_erase]
  by_cases h : id = other
  · simp [h]
  · simp [h, and_comm]

/-- The links into a node that stay. -/
theorem mem_incoming_erase : link ∈ (g.erase id).incoming other ↔
      id ≠ other ∧ link.1 ≠ id ∧ link ∈ g.incoming other := by
  rw [incoming_erase]
  by_cases h : id = other
  · simp [h]
  · simp [h, and_comm]

end Erase

/-- The first live node has a payload, and the others outlive it. -/
theorem stay_erase {ids : List NodeId} (hlive : ∀ other ∈ id :: ids, g.contains other)
    (hnodup : (id :: ids).Nodup) :
    (∃ payload, g.payload? id = some payload) ∧ ∀ other ∈ ids, (g.erase id).contains other := by
  obtain ⟨hid, hrest⟩ := forall_mem_cons.mp hlive
  refine ⟨Option.isSome_iff_exists.mp ((payload?_isSome g id).trans hid), fun other hother => ?_⟩
  have hne : id ≠ other := fun heq => (nodup_cons.mp hnodup).1 (heq ▸ hother)
  simp [contains_erase, hne, hrest other hother]

/-! ### Sound graphs -/

/-- Copies of edges agree, lists have no repetitions, and true ways come first. -/
structure Sound (g : Graph α) : Prop where
  mirrored : ∀ {source target label},
    (target, label) ∈ g.outgoing source ↔ (source, label) ∈ g.incoming target
  outgoing_nodup : ∀ id, (g.outgoing id).Nodup
  incoming_nodup : ∀ id, (g.incoming id).Nodup
  true_first : ∀ id,
    (g.outgoing id).Pairwise fun first second => second.2 = some true → first.2 = some true

namespace Sound

variable {label : Label}

section

variable (hg : g.Sound)
include hg

/-- The target of an edge is live. -/
theorem contains_target (h : (target, label) ∈ g.outgoing source) : g.contains target :=
  contains_of_mem_incoming (hg.mirrored.mp h)

/-- The source of an incoming edge is live. -/
theorem contains_source (h : (source, label) ∈ g.incoming target) : g.contains source :=
  contains_of_mem_outgoing (hg.mirrored.mpr h)

/-- Successors are live. -/
theorem contains_successor (h : target ∈ g.successors source) : g.contains target := by
  obtain ⟨label, hlabel⟩ := mem_successors.mp h
  exact hg.contains_target hlabel

/-- Edges out of a node are listed once. -/
theorem nodup_edgesFrom (source : NodeId) : (g.edgesFrom source).Nodup := by
  refine (hg.outgoing_nodup source).map fun first second heq => ?_
  simpa [Prod.ext_iff] using heq

/-- Predecessors are the nodes of which one is a successor. -/
theorem mem_predecessors_iff : source ∈ g.predecessors target ↔ target ∈ g.successors source := by
  rw [mem_predecessors, mem_successors]
  exact exists_congr fun label => hg.mirrored.symm

end

/-- The empty graph is sound. -/
theorem empty : ({} : Graph α).Sound where
  mirrored := by simp [outgoing, incoming, vertex?]
  outgoing_nodup := by simp [outgoing, vertex?]
  incoming_nodup := by simp [incoming, vertex?]
  true_first := by simp [outgoing, vertex?]

variable (hg : g.Sound)
include hg

/-- Only the edges of a graph matter. -/
theorem of_eq {g' : Graph α} (hout : ∀ id, g'.outgoing id = g.outgoing id)
    (hin : ∀ id, g'.incoming id = g.incoming id) : g'.Sound where
  mirrored := by intros; simpa [hout, hin] using hg.mirrored
  outgoing_nodup := by simpa [hout] using hg.outgoing_nodup
  incoming_nodup := by simpa [hin] using hg.incoming_nodup
  true_first := by simpa [hout] using hg.true_first

/-- Payloads keep a graph sound. -/
theorem setPayload (id : NodeId) (payload : α) : (g.setPayload id payload).Sound :=
  hg.of_eq (by simp) (by simp)

/-- Insertion keeps a graph sound. -/
theorem insert (payload : α) : (g.insert payload).Sound :=
  hg.of_eq (by simp) (by simp)

/-- The counterpart of `mem_outgoing_addEdge` at the target. -/
theorem mem_incoming_addEdge (htarget : g.contains edge.target) :
    link ∈ (g.addEdge edge).incoming id ↔
      link ∈ g.incoming id ∨ (id = edge.target ∧ link = (edge.source, edge.label)) := by
  by_cases hold : g.hasEdge edge
  · rw [addEdge_of_hasEdge g edge hold]
    constructor
    · exact Or.inl
    · rintro (h | ⟨rfl, rfl⟩)
      · exact h
      · exact hg.mirrored.mp (hasEdge_iff.mp hold)
  · rw [incoming_addEdge g edge id (by simpa using hold)]
    by_cases ht : edge.target = id
    · subst ht
      simp [htarget]
    · simp [ht, Ne.symm ht]

/-- Edges between live nodes keep it sound. -/
theorem addEdge (hsource : g.contains edge.source)
    (htarget : g.contains edge.target) : (g.addEdge edge).Sound where
  mirrored := by
    intro source target label
    rw [mem_outgoing_addEdge hsource, hg.mem_incoming_addEdge htarget, hg.mirrored]
    simp only [Prod.mk.injEq]
    exact or_congr_right ⟨fun ⟨hs, ht, hl⟩ => ⟨ht, hs, hl⟩, fun ⟨ht, hs, hl⟩ => ⟨hs, ht, hl⟩⟩
  outgoing_nodup id := by
    by_cases hold : g.hasEdge edge
    · simpa [addEdge_of_hasEdge g edge hold] using hg.outgoing_nodup id
    rw [outgoing_addEdge g edge id (by simpa using hold)]
    split
    · next h =>
      have hnew : (edge.target, edge.label) ∉ g.outgoing id := by
        rw [← h.1]
        exact fun hmem => hold (hasEdge_iff.mpr hmem)
      exact nodup_addOutgoing (hg.outgoing_nodup id) hnew
    · exact hg.outgoing_nodup id
  incoming_nodup id := by
    by_cases hold : g.hasEdge edge
    · simpa [addEdge_of_hasEdge g edge hold] using hg.incoming_nodup id
    rw [incoming_addEdge g edge id (by simpa using hold)]
    split
    · next h =>
      have hnew : (edge.source, edge.label) ∉ g.incoming id := by
        rw [← h.1]
        exact fun hmem => hold (hasEdge_iff.mpr (hg.mirrored.mpr hmem))
      simpa using (hg.incoming_nodup id).concat hnew
    · exact hg.incoming_nodup id
  true_first id := by
    by_cases hold : g.hasEdge edge
    · simpa [addEdge_of_hasEdge g edge hold] using hg.true_first id
    rw [outgoing_addEdge g edge id (by simpa using hold)]
    split
    · exact pairwise_addOutgoing (hg.true_first id)
    · exact hg.true_first id

/-- Exactly the removed edge is gone at its source. -/
theorem mem_outgoing_eraseEdge : link ∈ (g.eraseEdge edge).outgoing id ↔
      link ∈ g.outgoing id ∧ ¬ (id = edge.source ∧ link = (edge.target, edge.label)) := by
  rw [outgoing_eraseEdge]
  by_cases hs : edge.source = id
  · subst hs
    simp [(hg.outgoing_nodup _).mem_erase_iff, and_comm]
  · simp [hs, Ne.symm hs]

/-- Exactly the removed edge is gone at its target. -/
theorem mem_incoming_eraseEdge : link ∈ (g.eraseEdge edge).incoming id ↔
      link ∈ g.incoming id ∧ ¬ (id = edge.target ∧ link = (edge.source, edge.label)) := by
  rw [incoming_eraseEdge]
  by_cases ht : edge.target = id
  · subst ht
    simp [(hg.incoming_nodup _).mem_erase_iff, and_comm]
  · simp [ht, Ne.symm ht]

/-- Erasing an edge keeps a graph sound. -/
theorem eraseEdge (edge : Edge) : (g.eraseEdge edge).Sound where
  mirrored := by
    intro source target label
    rw [hg.mem_outgoing_eraseEdge, hg.mem_incoming_eraseEdge, hg.mirrored]
    simp only [Prod.mk.injEq]
    refine and_congr_right fun _ => not_congr ?_
    exact ⟨fun ⟨hs, ht, hl⟩ => ⟨ht, hs, hl⟩, fun ⟨ht, hs, hl⟩ => ⟨hs, ht, hl⟩⟩
  outgoing_nodup id := by
    rw [outgoing_eraseEdge]
    split
    · exact (hg.outgoing_nodup id).erase _
    · exact hg.outgoing_nodup id
  incoming_nodup id := by
    rw [incoming_eraseEdge]
    split
    · exact (hg.incoming_nodup id).erase _
    · exact hg.incoming_nodup id
  true_first id := by
    rw [outgoing_eraseEdge]
    split
    · exact (hg.true_first id).sublist erase_sublist
    · exact hg.true_first id

/-- Erasing a node keeps a graph sound. -/
theorem erase (id : NodeId) : (g.erase id).Sound where
  mirrored := by
    intro source target label
    rw [mem_outgoing_erase, mem_incoming_erase, hg.mirrored]
    exact ⟨fun ⟨hs, ht, h⟩ => ⟨ht.symm, hs.symm, h⟩, fun ⟨ht, hs, h⟩ => ⟨hs.symm, ht.symm, h⟩⟩
  outgoing_nodup other := by
    rw [outgoing_erase]
    split
    · exact nodup_nil
    · exact (hg.outgoing_nodup other).filter _
  incoming_nodup other := by
    rw [incoming_erase]
    split
    · exact nodup_nil
    · exact (hg.incoming_nodup other).filter _
  true_first other := by
    rw [outgoing_erase]
    split
    · exact List.Pairwise.nil
    · exact (hg.true_first other).filter _

/-- A single outgoing edge. -/
theorem outgoing_eq_singleton (hmem : ∀ other, other ∈ g.outgoing id ↔ other = link) :
    g.outgoing id = [link] := by
  have hperm := (perm_ext_iff_of_nodup (hg.outgoing_nodup id)
    (nodup_singleton link)).mpr (by simpa using hmem)
  exact perm_singleton.mp hperm

/-- Of two ways out the true way comes first. -/
theorem outgoing_eq_pair {onTrue onFalse : NodeId}
    (hmem : ∀ link, link ∈ g.outgoing id ↔
      link = (onTrue, some true) ∨ link = (onFalse, some false)) :
    g.outgoing id = [(onTrue, some true), (onFalse, some false)] := by
  have hperm : (g.outgoing id).Perm [(onTrue, some true), (onFalse, some false)] :=
    (perm_ext_iff_of_nodup (hg.outgoing_nodup id) (by simp)).mpr (by simpa using hmem)
  -- Two links of these that may stand in either order are one link.
  refine hperm.eq_of_pairwise (fun first second hfirst hsecond hle hge => ?_) (hg.true_first id)
    (by simp)
  have hfirst := (hmem first).mp hfirst
  simp only [mem_cons, not_mem_nil, or_false] at hsecond
  rcases hfirst with rfl | rfl <;> rcases hsecond with rfl | rfl <;> simp_all

end Sound

end Flowgraph.Graph

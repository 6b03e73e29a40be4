import Flowgraph.Graph.Edit
import Flowgraph.Proofs.Graph.Sound
import Mathlib.Tactic.Tauto

/-!
# Edits are carried out as a whole or not at all

The operations on a graph take several steps, and a refusal undoes nothing. In a sound graph no
operation is refused after its first write (`Graph.Edit.perform_eq`). Removing a node edge by edge
leaves the same graph as dropping its links at once (`Graph.Sound.vacate_eraseEdges`).

`Graph.Edit.run_cases` says once what a request can do. All requests keep graphs sound
(`Graph.Edit.sound_runAll`), and numbers are handed out in increasing order
(`Graph.Edit.inserted_runAll`).
-/

namespace Flowgraph.Graph

open List

variable {α β γ : Type} {g g' : Graph α} {id : NodeId} {source target : NodeId} {edge : Edge}

/-! ### Graphs by what they show -/

/-- A vertex is a payload with its links. -/
theorem vertex?_eq (g : Graph α) (id : NodeId) : g.vertex? id =
    (g.payload? id).map fun payload => ⟨payload, g.outgoing id, g.incoming id⟩ := by
  cases h : g.vertex? id <;> simp [payload?, outgoing, incoming, h]

/-- The vertex of a live node. -/
theorem vertex?_of_payload? {payload : α} (h : g.payload? id = some payload) :
    g.vertex? id = some ⟨payload, g.outgoing id, g.incoming id⟩ := by
  rw [vertex?_eq, h, Option.map_some]

/-- Two graphs are the same if all queries have the same answers. -/
theorem eq_of_shown (hnext : g.nextId = g'.nextId) (hlive : g.live = g'.live)
    (hpayload : ∀ id, g.payload? id = g'.payload? id)
    (hout : ∀ id, g.outgoing id = g'.outgoing id)
    (hin : ∀ id, g.incoming id = g'.incoming id) : g = g' := by
  have hvertex : ∀ id, g.vertex? id = g'.vertex? id := by
    intro id
    rw [vertex?_eq, vertex?_eq, hpayload, hout, hin]
  have hslots : g.slots = g'.slots := by
    refine Array.ext hnext fun index h h' => ?_
    simpa [vertex?, h, h'] using hvertex index
  cases g
  cases g'
  simp_all

/-! ### Taking edges away one after another -/

/-- Take edges away, one after another. -/
def eraseEdges (g : Graph α) (edges : List Edge) : Graph α :=
  edges.foldl eraseEdge g

section EraseEdges

variable (g : Graph α) (edges : List Edge) (id : NodeId)

/-- Erasing no edges. -/
@[simp] theorem eraseEdges_nil : g.eraseEdges [] = g := rfl

/-- Edges are erased in turn. -/
@[simp] theorem eraseEdges_cons (edge : Edge) :
    g.eraseEdges (edge :: edges) = (g.eraseEdge edge).eraseEdges edges := rfl

/-- Edges can be erased in two steps. -/
theorem eraseEdges_append (more : List Edge) :
    g.eraseEdges (edges ++ more) = (g.eraseEdges edges).eraseEdges more := by
  simp [eraseEdges]

/-- Erasing an edge keeps the live count. -/
@[simp] theorem live_eraseEdge (edge : Edge) : (g.eraseEdge edge).live = g.live := rfl

/-- Erasing edges hands out no number. -/
@[simp] theorem nextId_eraseEdges : (g.eraseEdges edges).nextId = g.nextId := by
  induction edges generalizing g <;> simp_all

/-- Erasing edges keeps the live count. -/
@[simp] theorem live_eraseEdges : (g.eraseEdges edges).live = g.live := by
  induction edges generalizing g <;> simp_all

/-- Erasing edges keeps the nodes. -/
@[simp] theorem contains_eraseEdges : (g.eraseEdges edges).contains id = g.contains id := by
  induction edges generalizing g <;> simp_all

/-- Erasing edges keeps the payloads. -/
@[simp] theorem payload?_eraseEdges : (g.eraseEdges edges).payload? id = g.payload? id := by
  induction edges generalizing g <;> simp_all

end EraseEdges

namespace Sound

/-- Erasing edges keeps a graph sound. -/
theorem eraseEdges (hg : g.Sound) (edges : List Edge) : (g.eraseEdges edges).Sound := by
  induction edges generalizing g with
  | nil => exact hg
  | cons edge rest ih => exact ih (hg.eraseEdge edge)

/-- The links of some edges can be dropped one after another. -/
theorem filter_drop_link {make : Link → Edge} (hmake : make.Injective) {links : List Link}
    (hnodup : links.Nodup) {link : Link} {here : Prop} [Decidable here]
    (hhere : here → make link = edge)
    (haway : ¬ here → ∀ other, make other ≠ edge) (rest : List Edge) :
    (if here then links.erase link else links).filter (fun other => make other ∉ rest) =
      links.filter fun other => make other ∉ edge :: rest := by
  split
  · next h =>
    rw [hnodup.erase_eq_filter, filter_filter]
    refine filter_congr fun other _ => ?_
    rw [Bool.eq_iff_iff]
    simp [← hhere h, hmake.eq_iff, and_comm]
  · next h => exact filter_congr fun other _ => by simp [haway h other]

/-- What is left of the outgoing edges of a node, in their order. -/
theorem outgoing_eraseEdges (hg : g.Sound) (edges : List Edge) (id : NodeId) :
    (g.eraseEdges edges).outgoing id =
      (g.outgoing id).filter fun link => ⟨id, link.1, link.2⟩ ∉ edges := by
  induction edges generalizing g with
  | nil => simp
  | cons edge rest ih =>
    rw [eraseEdges_cons, ih (hg.eraseEdge edge), outgoing_eraseEdge]
    exact filter_drop_link (fun _ _ heq => by simpa [Prod.ext_iff] using heq) (hg.outgoing_nodup id)
      (fun h => h ▸ rfl) (fun h _ heq => h (heq ▸ rfl)) rest

/-- What is left of the incoming edges of a node, in their order. -/
theorem incoming_eraseEdges (hg : g.Sound) (edges : List Edge) (id : NodeId) :
    (g.eraseEdges edges).incoming id =
      (g.incoming id).filter fun link => ⟨link.1, id, link.2⟩ ∉ edges := by
  induction edges generalizing g with
  | nil => simp
  | cons edge rest ih =>
    rw [eraseEdges_cons, ih (hg.eraseEdge edge), incoming_eraseEdge]
    exact filter_drop_link (fun _ _ heq => by simpa [Prod.ext_iff] using heq) (hg.incoming_nodup id)
      (fun h => h ▸ rfl) (fun h _ heq => h (heq ▸ rfl)) rest

/-- Exactly the edges listed are erased. -/
theorem hasEdge_eraseEdges (hg : g.Sound) {edges : List Edge} :
    (g.eraseEdges edges).hasEdge edge ↔ g.hasEdge edge ∧ edge ∉ edges := by
  rw [hasEdge_iff, hg.outgoing_eraseEdges, mem_filter, hasEdge_iff, decide_eq_true_iff]

end Sound

/-! ### The edges at a node -/

/-- The labels between two nodes. -/
theorem mem_labelsBetween {label : Label} :
    label ∈ g.labelsBetween source target ↔ g.hasEdge ⟨source, target, label⟩ = true := by
  simp [labelsBetween, hasEdge]

/-- Adjacent nodes have labels between them. -/
theorem labelsBetween_ne_nil :
    g.labelsBetween source target ≠ [] ↔ g.adjacent source target := by
  simp [labelsBetween, adjacent, successors]

/-- The edges that lead to a node, in order. -/
def edgesInto (g : Graph α) (target : NodeId) : List Edge :=
  (g.incoming target).map fun link => ⟨link.1, target, link.2⟩

/-- The edges into a node. -/
theorem Sound.mem_edgesInto (hg : g.Sound) :
    edge ∈ g.edgesInto target ↔ edge.target = target ∧ g.hasEdge edge := by
  rw [hasEdge_iff, hg.mirrored, edgesInto, mem_map]
  constructor
  · intro ⟨link, hlink, hedge⟩
    subst hedge
    exact ⟨rfl, hlink⟩
  · intro ⟨htarget, hedge⟩
    subst htarget
    exact ⟨_, hedge, rfl⟩

/-- Edges into a node are listed once. -/
theorem Sound.nodup_edgesInto (hg : g.Sound) (target : NodeId) : (g.edgesInto target).Nodup := by
  refine (hg.incoming_nodup target).map fun first second heq => ?_
  simpa [Prod.ext_iff] using heq

/-- The edges from one node to another, in order. -/
def edgesBetween (g : Graph α) (source target : NodeId) : List Edge :=
  (g.labelsBetween source target).map (Edge.mk source target)

/-- The edges between two nodes. -/
theorem mem_edgesBetween : edge ∈ g.edgesBetween source target ↔
      (edge.source = source ∧ edge.target = target) ∧ g.hasEdge edge := by
  rw [edgesBetween, mem_map]
  constructor
  · intro ⟨label, hlabel, hedge⟩
    subst hedge
    exact ⟨⟨rfl, rfl⟩, mem_labelsBetween.mp hlabel⟩
  · intro ⟨⟨hsource, htarget⟩, hedge⟩
    subst hsource htarget
    exact ⟨_, mem_labelsBetween.mpr hedge, rfl⟩

/-- Labels between nodes are listed once. -/
theorem Sound.nodup_labelsBetween (hg : g.Sound) (source target : NodeId) :
    (g.labelsBetween source target).Nodup := by
  refine List.Nodup.map_on ?_ ((hg.outgoing_nodup source).filter _)
  intro first hfirst second hsecond heq
  have htarget := (mem_filter.mp hfirst).2
  have htarget' := (mem_filter.mp hsecond).2
  simp only [beq_iff_eq] at htarget htarget'
  exact Prod.ext (htarget.trans htarget'.symm) heq

/-- Edges between nodes are listed once. -/
theorem Sound.nodup_edgesBetween (hg : g.Sound) (source target : NodeId) :
    (g.edgesBetween source target).Nodup :=
  (hg.nodup_labelsBetween source target).map fun _ _ heq => (Edge.mk.inj heq).2.2

/-! ### Taking a node away after its edges -/

/-- Only the vacated node goes. -/
theorem vertex?_vacate (g : Graph α) (id other : NodeId) :
    (g.vacate id).vertex? other = if id = other then none else g.vertex? other := by
  simp only [vertex?, vacate, Array.getElem?_setIfInBounds]
  by_cases h : id = other
  · subst h
    by_cases hb : id < g.slots.size <;> simp [hb]
  · simp [h]

/-- Vacating hands out no number. -/
@[simp] theorem nextId_vacate (g : Graph α) (id : NodeId) : (g.vacate id).nextId = g.nextId := by
  simp [nextId, vacate]

/-- Vacating a live node counts it out. -/
theorem live_vacate (g : Graph α) (id : NodeId) :
    (g.vacate id).live = if g.contains id then g.live - 1 else g.live := rfl

/-- Erasing a live node counts it out. -/
theorem live_erase (g : Graph α) (id : NodeId) :
    (g.erase id).live = if g.contains id then g.live - 1 else g.live := rfl

/-- Vacating takes the links out of a node. -/
theorem outgoing_vacate (g : Graph α) (id other : NodeId) :
    (g.vacate id).outgoing other = if id = other then [] else g.outgoing other := by
  by_cases h : id = other <;> simp [outgoing, vertex?_vacate, h]

/-- Vacating takes the links into a node. -/
theorem incoming_vacate (g : Graph α) (id other : NodeId) :
    (g.vacate id).incoming other = if id = other then [] else g.incoming other := by
  by_cases h : id = other <;> simp [incoming, vertex?_vacate, h]

/-- Vacating takes the payload of a node. -/
theorem payload?_vacate (g : Graph α) (id other : NodeId) :
    (g.vacate id).payload? other = if id = other then none else g.payload? other := by
  by_cases h : id = other <;> simp [payload?, vertex?_vacate, h]

/-- A node may go after its edges or with them. -/
theorem Sound.vacate_eraseEdges (hg : g.Sound) {edges : List Edge}
    (hedges : ∀ edge, edge ∈ edges ↔ g.hasEdge edge ∧ (edge.source = id ∨ edge.target = id)) :
    (g.eraseEdges edges).vacate id = g.erase id := by
  refine eq_of_shown ?_ ?_ ?_ ?_ ?_
  · rw [nextId_vacate, nextId_eraseEdges, nextId_erase]
  · simp [live_vacate, live_erase]
  · intro other
    rw [payload?_vacate, payload?_erase, payload?_eraseEdges]
  · intro other
    rw [outgoing_vacate, outgoing_erase, hg.outgoing_eraseEdges]
    split
    · rfl
    next hne =>
      refine filter_congr fun link hlink => ?_
      rw [Bool.eq_iff_iff]
      simp [hedges, hasEdge_iff, hlink, Ne.symm hne]
  · intro other
    rw [incoming_vacate, incoming_erase, hg.incoming_eraseEdges]
    split
    · rfl
    next hne =>
      refine filter_congr fun link hlink => ?_
      rw [Bool.eq_iff_iff]
      simp [hedges, hasEdge_iff, hg.mirrored.mpr hlink, Ne.symm hne]

/-! ### Changes that are not refused -/

/-- Live nodes can be removed. -/
theorem remove_eq_ok {payload : α} (h : g.payload? id = some payload) :
    g.remove id = .ok (payload, g.erase id) := by
  simp [remove, h]

/-- Live nodes can be joined. -/
theorem join_eq_ok (hsource : g.contains edge.source)
    (htarget : g.contains edge.target) : g.join edge = .ok (g.addEdge edge) := by
  simp [join, hsource, htarget]

/-- Edges that exist can be unlinked. -/
theorem unlinkEdge_eq_ok (h : g.hasEdge edge) :
    g.unlinkEdge edge = .ok (g.eraseEdge edge) := by
  simp [unlinkEdge, contains_of_mem_outgoing (hasEdge_iff.mp h), h]

/-- Adjacent nodes can be unlinked. -/
theorem unlink_eq_ok (h : g.labelsBetween source target ≠ []) : g.unlink source target =
      .ok (g.labelsBetween source target, g.eraseEdges (g.edgesBetween source target)) := by
  obtain ⟨label, hlabel⟩ := exists_mem_of_ne_nil _ h
  have hsource := contains_of_mem_outgoing (hasEdge_iff.mp (mem_labelsBetween.mp hlabel))
  simp only at hsource
  simp [unlink, hsource, h, eraseEdges, edgesBetween, foldl_map]

/-! ### The steps of the operations -/

namespace Editing

variable {found : Vertex α}

/-- Looking up a live node. -/
theorem run_vertex_of_some (h : g.vertex? id = some found) : (vertex id).run g = .ok found g := by
  simp [vertex, find, h]

/-- Looking up a missing node. -/
theorem run_vertex_of_none (h : g.vertex? id = none) :
    (vertex id).run g = .error (.missingNode id) g := by
  simp only [vertex, find, EStateM.run_bind, EStateM.run_get, h]
  rfl

/-- An operation carried out as a whole or not at all. -/
def settled (g : Graph α) : Except GraphError (β × Graph α) → EStateM.Result GraphError (Graph α) β
  | .ok (answer, g') => .ok answer g'
  | .error e => .error e g

/-- Joining in place. -/
theorem run_join (g : Graph α) (edge : Edge) :
    (join edge).run g = settled g ((g.join edge).map fun g' => ((), g')) := by
  unfold join Graph.join contains
  cases htarget : g.vertex? edge.target with
  | none => simp [EStateM.run_bind, run_vertex_of_none htarget, settled, Except.map]
  | some target =>
  cases hsource : g.vertex? edge.source with
  | none =>
    simp [EStateM.run_bind, run_vertex_of_some htarget, run_vertex_of_none hsource, settled,
      Except.map]
  | some source =>
  have hedge : g.hasEdge edge = source.outgoing.contains (edge.target, edge.label) := by
    simp [hasEdge, outgoing, hsource]
  have hlive : ∃ found, (g.update edge.source fun vertex => { vertex with
      outgoing := addOutgoing vertex.outgoing (edge.target, edge.label) }).vertex? edge.target =
        some found := by
    by_cases h : edge.source = edge.target <;> simp [h, htarget]
  obtain ⟨found, hfound⟩ := hlive
  simp only [EStateM.run_bind, run_vertex_of_some htarget, run_vertex_of_some hsource,
    Option.isSome_some, Bool.not_true, Bool.false_eq_true, if_false, addEdge, hedge]
  split
  · rfl
  · simp only [EStateM.run_bind, EStateM.run_modify, run_vertex_of_some hfound]
    rfl

/-- An edge found at its source is found at its target. -/
theorem run_unlinkEdge (hg : g.Sound) (edge : Edge) :
    (unlinkEdge edge).run g = settled g ((g.unlinkEdge edge).map fun g' => ((), g')) := by
  unfold unlinkEdge Graph.unlinkEdge contains
  cases hsource : g.vertex? edge.source with
  | none => simp [EStateM.run_bind, run_vertex_of_none hsource, settled, Except.map]
  | some source =>
  have hedge : g.hasEdge edge = source.outgoing.contains (edge.target, edge.label) := by
    simp [hasEdge, outgoing, hsource]
  simp only [EStateM.run_bind, run_vertex_of_some hsource,
    Option.isSome_some, Bool.not_true, Bool.false_eq_true, if_false, hedge]
  split
  next hold =>
    have hin := hg.mirrored.mp (hasEdge_iff.mp (hedge.trans hold))
    have hlive : ∃ found, (g.update edge.source fun vertex => { vertex with
        outgoing := vertex.outgoing.erase (edge.target, edge.label) }).vertex? edge.target =
          some found ∧ (edge.source, edge.label) ∈ found.incoming := by
      cases htarget : g.vertex? edge.target with
      | none => simp [incoming, htarget] at hin
      | some target => by_cases h : edge.source = edge.target <;> simp_all [incoming]
    obtain ⟨found, hfound, hmem⟩ := hlive
    simp only [EStateM.run_bind, EStateM.run_modify, run_vertex_of_some hfound, hold]
    rw [if_pos (by simpa using hmem)]
    rfl
  next hnew =>
    rw [Bool.not_eq_true] at hnew
    simp only [hnew]
    rfl

/-- Unlinking an edge in place. -/
theorem run_unlinkEdge_of_hasEdge (hg : g.Sound) (h : g.hasEdge edge) :
    (unlinkEdge edge).run g = .ok () (g.eraseEdge edge) := by
  rw [run_unlinkEdge hg, unlinkEdge_eq_ok h]
  rfl

/-- Edges that are there are removed one after another. -/
theorem run_forM_unlinkEdge {ι : Type} {edgeOf : ι → Edge} (hg : g.Sound) {items : List ι}
    (hnodup : (items.map edgeOf).Nodup) (hedges : ∀ item ∈ items, g.hasEdge (edgeOf item)) :
    (items.forM fun item => unlinkEdge (edgeOf item)).run g =
      .ok () (g.eraseEdges (items.map edgeOf)) := by
  induction items generalizing g with
  | nil => rfl
  | cons item rest ih =>
    obtain ⟨hfirst, hnodup⟩ := nodup_cons.mp hnodup
    have hrest : ∀ other ∈ rest, (g.eraseEdge (edgeOf item)).hasEdge (edgeOf other) := by
      intro other hother
      have hedge := hedges other (mem_cons_of_mem _ hother)
      have hne : edgeOf other ∉ [edgeOf item] := by
        intro hmem
        exact hfirst (mem_map.mpr ⟨other, hother, mem_singleton.mp hmem⟩)
      simpa using hg.hasEdge_eraseEdges.mpr ⟨hedge, hne⟩
    rw [List.forM, EStateM.run_bind,
      run_unlinkEdge_of_hasEdge hg (hedges item mem_cons_self)]
    exact ih (hg.eraseEdge _) hnodup hrest

/-- The labels found in a vertex. -/
theorem labelsBetween_eq (h : g.vertex? source = some found) :
    (found.outgoing.filter (·.1 == target)).map (·.2) = g.labelsBetween source target := by
  simp [labelsBetween, outgoing, h]

variable (hg : g.Sound)
include hg

/-- Unlinking two nodes in place. -/
theorem run_unlink (source target : NodeId) :
    (unlink source target).run g = settled g (g.unlink source target) := by
  unfold unlink Graph.unlink contains
  cases hsource : g.vertex? source with
  | none => simp [EStateM.run_bind, run_vertex_of_none hsource, settled]
  | some found =>
  simp only [EStateM.run_bind, run_vertex_of_some hsource, Option.isSome_some, Bool.not_true,
    Bool.false_eq_true, if_false, labelsBetween_eq hsource]
  split
  · rfl
  · rw [EStateM.run_bind, run_forM_unlinkEdge hg (hg.nodup_edgesBetween source target)
      fun label hlabel => mem_labelsBetween.mp hlabel, eraseEdges, foldl_map]
    rfl

/-- Unlinking self loops in place. -/
theorem run_unlinkSelf (id : NodeId) :
    (unlinkSelf id).run g = .ok () (g.eraseEdges (g.edgesBetween id id)) := by
  simp only [unlinkSelf, EStateM.run_bind, EStateM.run_get]
  by_cases hself : g.adjacent id id
  · rw [if_pos hself, EStateM.run_bind, run_unlink hg,
      unlink_eq_ok (labelsBetween_ne_nil.mpr hself)]
    rfl
  · have hnil : g.labelsBetween id id = [] := by
      by_contra hne
      exact hself (labelsBetween_ne_nil.mp hne)
    simp [hself, edgesBetween, hnil]

/-- Unlinking what enters a node, in place. -/
theorem run_unlinkIncoming (hid : g.contains id) :
    (unlinkIncoming id).run g = .ok () (g.eraseEdges (g.edgesInto id)) := by
  obtain ⟨found, hfound⟩ := Option.isSome_iff_exists.mp hid
  have hlist : found.incoming = g.incoming id := by simp [incoming, hfound]
  simp only [unlinkIncoming, EStateM.run_bind, run_vertex_of_some hfound, hlist]
  exact run_forM_unlinkEdge hg (hg.nodup_edgesInto id) fun link hlink =>
    hasEdge_iff.mpr (hg.mirrored.mpr hlink)

/-- Unlinking what leaves a node, in place. -/
theorem run_unlinkOutgoing (hid : g.contains id) :
    (unlinkOutgoing id).run g = .ok () (g.eraseEdges (g.edgesFrom id)) := by
  obtain ⟨found, hfound⟩ := Option.isSome_iff_exists.mp hid
  have hlist : found.outgoing = g.outgoing id := by simp [outgoing, hfound]
  simp only [unlinkOutgoing, EStateM.run_bind, run_vertex_of_some hfound, hlist]
  exact run_forM_unlinkEdge hg (hg.nodup_edgesFrom id) fun link hlink => hasEdge_iff.mpr hlink

/-- Removing the edges at a node one by one never fails. -/
theorem run_remove (id : NodeId) : (remove id).run g = settled g (g.remove id) := by
  simp only [remove, Graph.remove, EStateM.run_bind, run_unlinkSelf hg]
  cases hpayload : g.payload? id with
  | none =>
    have hdead := not_contains_of_payload? hpayload
    have hnone : g.vertex? id = none := by simpa [contains] using hdead
    have hnil : g.labelsBetween id id = [] := by simp [labelsBetween, outgoing_eq_nil hdead]
    simp [edgesBetween, hnil, unlinkIncoming, EStateM.run_bind, run_vertex_of_none hnone, settled]
  | some payload =>
    have hlive := contains_of_payload? hpayload
    have hfirst := hg.eraseEdges (g.edgesBetween id id)
    have hsecond := hfirst.eraseEdges ((g.eraseEdges (g.edgesBetween id id)).edgesInto id)
    rw [run_unlinkIncoming hfirst (by simpa using hlive)]
    dsimp only
    rw [run_unlinkOutgoing hsecond (by simpa using hlive)]
    dsimp only
    rw [run_vertex_of_some (vertex?_of_payload? (by simpa using hpayload))]
    simp only [EStateM.run_modify, EStateM.run_pure, settled, ← eraseEdges_append]
    rw [hg.vacate_eraseEdges]
    intro edge
    simp only [mem_append, mem_edgesBetween, mem_edgesFrom, hfirst.mem_edgesInto,
      eraseEdges_append, hfirst.hasEdge_eraseEdges, hg.hasEdge_eraseEdges]
    tauto

end Editing

/-! ### Requests -/

namespace Edit

variable {edit : Edit α} {reply : Reply α} {P : Graph α → Prop}

/-- A request carried out as a whole or not at all. -/
def apply (g : Graph α) : Edit α → Except GraphError (Reply α × Graph α)
  | insert payload => .ok (.inserted g.nextId, g.insert payload)
  | remove id => (g.remove id).map fun removed => (.payload (some removed.1), removed.2)
  | join edge => (g.join edge).map fun g' => (.done, g')
  | unlink source target => (g.unlink source target).map fun found => (.labels found.1, found.2)
  | unlinkEdge edge => (g.unlinkEdge edge).map fun g' => (.done, g')
  | offer id payload => .ok (.payload (g.payload? id), g.setPayload id payload)
  | assign id payload =>
    (g.find id).map fun found => (.payload (some found.payload), g.setPayload id payload)

/-- The reply of an edit in place is mapped. -/
theorem run_map_eq {run : Editing α β} {outcome : Except GraphError (β × Graph α)}
    (h : run.run g = Editing.settled g outcome) (f : β → γ) :
    (f <$> run).run g = Editing.settled g (outcome.map fun found => (f found.1, found.2)) := by
  rw [map_eq_pure_bind, EStateM.run_bind, h]
  cases outcome <;> rfl

/-- The steps of a request are carried out all, or none of them shows. -/
theorem perform_eq (hg : g.Sound) (edit : Edit α) :
    edit.perform.run g = Editing.settled g (edit.apply g) := by
  cases edit with
  | insert payload => rfl
  | remove id => exact run_map_eq (Editing.run_remove hg id) _
  | join edge =>
    rw [perform, run_map_eq (Editing.run_join g edge), apply]
    cases g.join edge <;> rfl
  | unlink source target => exact run_map_eq (Editing.run_unlink hg source target) _
  | unlinkEdge edge =>
    rw [perform, run_map_eq (Editing.run_unlinkEdge hg edge), apply]
    cases g.unlinkEdge edge <;> rfl
  | offer id payload => rfl
  | assign id payload =>
    have hassign : (Editing.assign id payload).run g =
        Editing.settled g ((g.find id).map fun found =>
        (found.payload, g.setPayload id payload)) := by
      rw [Editing.assign, EStateM.run_bind, find]
      cases h : g.vertex? id with
      | none => rw [Editing.run_vertex_of_none h]; rfl
      | some found => rw [Editing.run_vertex_of_some h]; rfl
    rw [perform, run_map_eq hassign, apply]
    cases g.find id <;> rfl

/-- A request that is refused leaves the graph alone. -/
theorem run_of_error {e : GraphError} (hg : g.Sound) (h : edit.apply g = .error e) :
    edit.run g = (.error e, g) := by
  rw [run, perform_eq hg, h]
  rfl

/-- Edits that succeed do so in place. -/
theorem run_of_ok (hg : g.Sound) (h : edit.apply g = .ok (reply, g')) :
    edit.run g = (.ok reply, g') := by
  rw [run, perform_eq hg, h]
  rfl

/-- What a request does that is not refused. -/
inductive Applied (g : Graph α) : Edit α → Reply α → Graph α → Prop where
  | insert (payload : α) : Applied g (.insert payload) (.inserted g.nextId) (g.insert payload)
  | remove {id : NodeId} {payload : α} : g.payload? id = some payload →
      Applied g (.remove id) (.payload (some payload)) (g.erase id)
  | join {edge : Edge} : g.contains edge.source → g.contains edge.target →
      Applied g (.join edge) .done (g.addEdge edge)
  | unlink {source target : NodeId} : g.labelsBetween source target ≠ [] →
      Applied g (.unlink source target) (.labels (g.labelsBetween source target))
        (g.eraseEdges (g.edgesBetween source target))
  | unlinkEdge {edge : Edge} : g.hasEdge edge →
      Applied g (.unlinkEdge edge) .done (g.eraseEdge edge)
  | offer (id : NodeId) (payload : α) :
      Applied g (.offer id payload) (.payload (g.payload? id)) (g.setPayload id payload)
  | assign {id : NodeId} {payload old : α} : g.payload? id = some old →
      Applied g (.assign id payload) (.payload (some old)) (g.setPayload id payload)

/-- For what reason a request is refused. -/
inductive Refused (g : Graph α) : Edit α → GraphError → Prop where
  | remove {id : NodeId} : g.contains id = false → Refused g (.remove id) (.missingNode id)
  | joinTarget {edge : Edge} : g.contains edge.target = false →
      Refused g (.join edge) (.missingNode edge.target)
  | joinSource {edge : Edge} : g.contains edge.source = false →
      Refused g (.join edge) (.missingNode edge.source)
  | unlinkSource {source target : NodeId} : g.contains source = false →
      Refused g (.unlink source target) (.missingNode source)
  | unlink {source target : NodeId} : g.contains source →
      g.labelsBetween source target = [] →
      Refused g (.unlink source target) (.missingEdge source target none)
  | unlinkEdgeSource {edge : Edge} : g.contains edge.source = false →
      Refused g (.unlinkEdge edge) (.missingNode edge.source)
  | unlinkEdge {edge : Edge} : g.contains edge.source → g.hasEdge edge = false →
      Refused g (.unlinkEdge edge) (.missingEdge edge.source edge.target (some edge.label))
  | assign {id : NodeId} {payload : α} : g.contains id = false →
      Refused g (.assign id payload) (.missingNode id)

/-- A request is carried out or refused. -/
theorem apply_cases (g : Graph α) (edit : Edit α) :
    (∃ reply g', edit.apply g = .ok (reply, g') ∧ Applied g edit reply g') ∨
      ∃ e, edit.apply g = .error e ∧ Refused g edit e := by
  cases edit with
  | insert payload => exact .inl ⟨_, _, rfl, .insert payload⟩
  | remove id =>
    cases h : g.payload? id with
    | none =>
      exact .inr ⟨_, by simp [apply, Graph.remove, h, Except.map],
        .remove (not_contains_of_payload? h)⟩
    | some payload => exact .inl ⟨_, _, by rw [apply, remove_eq_ok h]; rfl, .remove h⟩
  | join edge =>
    cases htarget : g.contains edge.target with
    | false => exact .inr ⟨_, by simp [apply, Graph.join, htarget, Except.map], .joinTarget htarget⟩
    | true =>
    cases hsource : g.contains edge.source with
    | false =>
      exact .inr ⟨_, by simp [apply, Graph.join, htarget, hsource, Except.map], .joinSource hsource⟩
    | true =>
      exact .inl ⟨_, _, by rw [apply, join_eq_ok hsource htarget]; rfl, .join hsource htarget⟩
  | unlink source target =>
    cases hsource : g.contains source with
    | false =>
      exact .inr ⟨_, by simp [apply, Graph.unlink, hsource, Except.map], .unlinkSource hsource⟩
    | true =>
    by_cases hnil : g.labelsBetween source target = []
    · exact .inr ⟨_, by simp [apply, Graph.unlink, hsource, hnil, Except.map], .unlink hsource hnil⟩
    · exact .inl ⟨_, _, by rw [apply, unlink_eq_ok hnil]; rfl, .unlink hnil⟩
  | unlinkEdge edge =>
    cases hsource : g.contains edge.source with
    | false =>
      exact .inr ⟨_, by simp [apply, Graph.unlinkEdge, hsource, Except.map],
        .unlinkEdgeSource hsource⟩
    | true =>
    cases hedge : g.hasEdge edge with
    | false =>
      exact .inr ⟨_, by simp [apply, Graph.unlinkEdge, hsource, hedge, Except.map],
        .unlinkEdge hsource hedge⟩
    | true => exact .inl ⟨_, _, by rw [apply, unlinkEdge_eq_ok hedge]; rfl, .unlinkEdge hedge⟩
  | offer id payload => exact .inl ⟨_, _, rfl, .offer id payload⟩
  | assign id payload =>
    cases h : g.payload? id with
    | none =>
      have hdead := not_contains_of_payload? h
      have hnone : g.vertex? id = none := by simpa [contains] using hdead
      exact .inr ⟨_, by simp [apply, find, hnone, Except.map], .assign hdead⟩
    | some old =>
      exact .inl ⟨_, _, by simp [apply, find, vertex?_of_payload? h, Except.map], .assign h⟩

section

variable (hg : g.Sound)
include hg

/-- In a sound graph a request is carried out as a whole, or leaves the graph. -/
theorem run_cases (edit : Edit α) :
    (∃ reply g', edit.run g = (.ok reply, g') ∧ Applied g edit reply g') ∨
      ∃ e, edit.run g = (.error e, g) ∧ Refused g edit e := by
  rcases apply_cases g edit with ⟨reply, g', happly, happlied⟩ | ⟨e, happly, hrefused⟩
  · exact .inl ⟨reply, g', run_of_ok hg happly, happlied⟩
  · exact .inr ⟨e, run_of_error hg happly, hrefused⟩

/-- Edits that succeed keep graphs sound. -/
theorem Applied.sound (h : Applied g edit reply g') : g'.Sound := by
  cases h with
  | insert payload => exact hg.insert payload
  | remove _ => exact hg.erase _
  | join hsource htarget => exact hg.addEdge hsource htarget
  | unlink _ => exact hg.eraseEdges _
  | unlinkEdge _ => exact hg.eraseEdge _
  | offer id payload => exact hg.setPayload id payload
  | assign _ => exact hg.setPayload _ _

/-- What requests keep in sound graphs holds behind a request. -/
theorem invariant_run (h : P g) (hstep : ∀ {reply g'}, Applied g edit reply g' → P g') :
    P (edit.run g).2 := by
  rcases run_cases hg edit with ⟨reply, g', hrun, happlied⟩ | ⟨e, hrun, -⟩
  · rw [hrun]
    exact hstep happlied
  · rw [hrun]
    exact h

/-- Every edit keeps graphs sound. -/
theorem sound_run (edit : Edit α) : (edit.run g).2.Sound :=
  invariant_run hg hg fun happlied => happlied.sound hg

/-- A property that each change keeps holds behind all requests. -/
theorem invariant_runAll (h : P g)
    (hstep : ∀ {g edit reply g'}, g.Sound → P g → Applied g edit reply g' → P g')
    (edits : List (Edit α)) : P (runAll edits g).2 := by
  induction edits generalizing g with
  | nil => exact h
  | cons edit rest ih =>
    exact ih (sound_run hg edit) (invariant_run hg h fun happlied => hstep hg h happlied)

/-- Requests keep graphs sound. -/
theorem sound_runAll (edits : List (Edit α)) : (runAll edits g).2.Sound :=
  invariant_runAll hg hg (fun _ hsound happlied => happlied.sound hsound) edits

/-! ### Numbers -/

/-- Only an insertion hands out a number, the next one. -/
theorem inserted_run (h : (edit.run g).1 = .ok (.inserted id)) :
    id = g.nextId ∧ (edit.run g).2.nextId = id + 1 := by
  rcases run_cases hg edit with ⟨reply, g', hrun, happlied⟩ | ⟨e, hrun, -⟩
  · rw [hrun] at h ⊢
    cases h
    cases happlied
    exact ⟨rfl, nextId_insert _ _⟩
  · rw [hrun] at h
    cases h

end

/-- Edits that succeed take back no number. -/
theorem Applied.nextId_le (h : Applied g edit reply g') : g.nextId ≤ g'.nextId := by
  cases h <;> simp

/-- No edit takes back a number. -/
theorem nextId_le_run (hg : g.Sound) (edit : Edit α) : g.nextId ≤ (edit.run g).2.nextId :=
  invariant_run hg (Nat.le_refl _) Applied.nextId_le

/-- No run takes back a number. -/
theorem nextId_le_runAll (hg : g.Sound) (edits : List (Edit α)) :
    g.nextId ≤ (runAll edits g).2.nextId :=
  invariant_runAll hg (Nat.le_refl _)
    (fun _ hle happlied => Nat.le_trans hle happlied.nextId_le) edits

/-- The numbers that replies hand out, in order. -/
def handedOut (replies : List (Except GraphError (Reply α))) : List NodeId :=
  replies.filterMap fun
    | .ok (.inserted id) => some id
    | _ => none

/-- Numbers handed out are inserted nodes. -/
theorem mem_handedOut {replies : List (Except GraphError (Reply α))} :
    id ∈ handedOut replies ↔ .ok (.inserted id) ∈ replies := by
  rw [handedOut, mem_filterMap]
  constructor
  · intro ⟨reply, hreply, hid⟩
    split at hid
    · cases hid
      exact hreply
    · cases hid
  · intro hreply
    exact ⟨_, hreply, rfl⟩

/-- Numbers handed out lie between the next one before and after. -/
theorem inserted_runAll (hg : g.Sound) {edits : List (Edit α)}
    (h : .ok (.inserted id) ∈ (runAll edits g).1) :
    g.nextId ≤ id ∧ id < (runAll edits g).2.nextId := by
  induction edits generalizing g with
  | nil => cases h
  | cons edit rest ih =>
    have hsound := sound_run hg edit
    rcases mem_cons.mp h with hhead | htail
    · obtain ⟨rfl, hnext⟩ := inserted_run hg hhead.symm
      have hle := nextId_le_runAll hsound rest
      rw [hnext] at hle
      exact ⟨Nat.le_refl _, hle⟩
    · obtain ⟨hle, hlt⟩ := ih hsound htail
      exact ⟨Nat.le_trans (nextId_le_run hg edit) hle, hlt⟩

/-- Numbers are handed out in increasing order. -/
theorem pairwise_handedOut (hg : g.Sound) (edits : List (Edit α)) :
    (handedOut (runAll edits g).1).Pairwise (· < ·) := by
  induction edits generalizing g with
  | nil => exact List.Pairwise.nil
  | cons edit rest ih =>
    have hsound := sound_run hg edit
    show (handedOut ((edit.run g).1 :: (runAll rest (edit.run g).2).1)).Pairwise (· < ·)
    rw [handedOut, filterMap_cons]
    split
    next => exact ih hsound
    next id hid =>
      split at hid
      next first hfirst =>
        cases hid
        refine pairwise_cons.mpr ⟨fun other hother => ?_, ih hsound⟩
        have hle := (inserted_runAll hsound (mem_handedOut.mp hother)).1
        rw [(inserted_run hg hfirst).2] at hle
        exact hle
      next => cases hid

end Edit

end Flowgraph.Graph

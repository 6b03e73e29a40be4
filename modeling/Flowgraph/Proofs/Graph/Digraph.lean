import Flowgraph.Proofs.Graph.Edit
import Mathlib.Data.Set.Finite.Lattice
import Mathlib.Order.Interval.Finset.Nat

/-!
# Graphs as labelled digraphs

The value of a graph is a payload for each node and a set of edges, without their order.
`LabelledDigraph.Meets` says what each request does to such a value and when it is refused. Every
graph made by requests carries them out this way, and a refused request leaves the whole graph as it
is, lists included (`Graph.Edit.meets_run`).
-/

namespace Flowgraph

/-- Nodes with payloads, and edges between them. -/
@[ext] structure LabelledDigraph (α : Type) where
  payload? : NodeId → Option α
  edges : Set Edge

namespace LabelledDigraph

variable {α : Type} (d : LabelledDigraph α)

/-- Whether a node is there. -/
def Live (id : NodeId) : Prop :=
  (d.payload? id).isSome

/-- Set the payload of a node, or take the node away. -/
def put (id : NodeId) (payload : Option α) : LabelledDigraph α :=
  { d with payload? := Function.update d.payload? id payload }

/-- Add an edge. -/
def link (edge : Edge) : LabelledDigraph α :=
  { d with edges := insert edge d.edges }

/-- Take edges away. -/
def unlink (edges : Set Edge) : LabelledDigraph α :=
  { d with edges := d.edges \ edges }

/-- The edges at a node. -/
def incident (id : NodeId) : Set Edge :=
  {edge | edge.source = id ∨ edge.target = id}

open Graph (Edit)

/-- What a request answers, and what it makes of a digraph. -/
inductive Meets : Edit α → Except GraphError (Edit.Reply α) → LabelledDigraph α → Prop where
  | insert {id : NodeId} {payload : α} : ¬ d.Live id →
      Meets (.insert payload) (.ok (.inserted id)) (d.put id (some payload))
  | remove {id : NodeId} {payload : α} : d.payload? id = some payload →
      Meets (.remove id) (.ok (.payload (some payload))) ((d.put id none).unlink (incident id))
  | removeMissing {id : NodeId} : ¬ d.Live id → Meets (.remove id) (.error (.missingNode id)) d
  | join {edge : Edge} : d.Live edge.source → d.Live edge.target →
      Meets (.join edge) (.ok .done) (d.link edge)
  | joinMissing {edge : Edge} {id : NodeId} : id = edge.source ∨ id = edge.target → ¬ d.Live id →
      Meets (.join edge) (.error (.missingNode id)) d
  | unlinkEdge {edge : Edge} : edge ∈ d.edges →
      Meets (.unlinkEdge edge) (.ok .done) (d.unlink {edge})
  | unlinkEdgeDead {edge : Edge} : edge ∉ d.edges → ¬ d.Live edge.source →
      Meets (.unlinkEdge edge) (.error (.missingNode edge.source)) d
  | unlinkEdgeMissing {edge : Edge} : edge ∉ d.edges → d.Live edge.source →
      Meets (.unlinkEdge edge)
        (.error (.missingEdge edge.source edge.target (some edge.label))) d
  | unlink {source target : NodeId} {labels : List Label} : labels ≠ [] → labels.Nodup →
      (∀ label, label ∈ labels ↔ ⟨source, target, label⟩ ∈ d.edges) →
      Meets (.unlink source target) (.ok (.labels labels))
        (d.unlink {edge | edge.source = source ∧ edge.target = target})
  | unlinkDead {source target : NodeId} : (∀ label, ⟨source, target, label⟩ ∉ d.edges) →
      ¬ d.Live source → Meets (.unlink source target) (.error (.missingNode source)) d
  | unlinkMissing {source target : NodeId} : (∀ label, ⟨source, target, label⟩ ∉ d.edges) →
      d.Live source → Meets (.unlink source target) (.error (.missingEdge source target none)) d
  | offer {id : NodeId} {payload : α} :
      Meets (.offer id payload) (.ok (.payload (d.payload? id)))
        (d.put id ((d.payload? id).map fun _ => payload))
  | assign {id : NodeId} {payload old : α} : d.payload? id = some old →
      Meets (.assign id payload) (.ok (.payload (some old))) (d.put id (some payload))
  | assignMissing {id : NodeId} {payload : α} : ¬ d.Live id →
      Meets (.assign id payload) (.error (.missingNode id)) d

end LabelledDigraph

namespace Graph

variable {α : Type} {g g' : Graph α} {id : NodeId}

/-- The labelled digraph that a graph stands for. -/
def value (g : Graph α) : LabelledDigraph α where
  payload? := g.payload?
  edges := {edge | g.hasEdge edge}

/-- Live nodes are the contained ones. -/
theorem live_value : g.value.Live id ↔ g.contains id := by
  rw [LabelledDigraph.Live, value, payload?_isSome]

/-- Dead nodes are the missing ones. -/
theorem not_live_value : ¬ g.value.Live id ↔ g.contains id = false := by
  rw [live_value, Bool.not_eq_true]

/-! ### What the changes of a graph do to its value -/

/-- Insertion puts a node at the next number. -/
theorem value_insert (g : Graph α) (payload : α) :
    (g.insert payload).value = g.value.put g.nextId (some payload) := by
  refine LabelledDigraph.ext (funext fun id => ?_) (Set.ext fun edge => ?_)
  · simp [value, LabelledDigraph.put, payload?_insert, Function.update_apply]
  · simp [value, LabelledDigraph.put, hasEdge]

/-- A payload is put at live nodes only. -/
theorem value_setPayload (g : Graph α) (id : NodeId) (payload : α) :
    (g.setPayload id payload).value = g.value.put id ((g.payload? id).map fun _ => payload) := by
  refine LabelledDigraph.ext (funext fun other => ?_) (Set.ext fun edge => ?_)
  · by_cases h : id = other
    · simp [value, LabelledDigraph.put, payload?_setPayload, h]
    · simp [value, LabelledDigraph.put, payload?_setPayload, h, Ne.symm h]
  · simp [value, LabelledDigraph.put, hasEdge]

/-- Joining links. -/
theorem value_addEdge (g : Graph α) {edge : Edge} (hsource : g.contains edge.source) :
    (g.addEdge edge).value = g.value.link edge := by
  refine LabelledDigraph.ext (funext fun id => payload?_addEdge g edge id) (Set.ext fun other => ?_)
  show (g.addEdge edge).hasEdge other ↔ other = edge ∨ g.hasEdge other
  rw [hasEdge_iff, mem_outgoing_addEdge hsource, hasEdge_iff, or_comm]
  obtain ⟨source, target, label⟩ := edge
  obtain ⟨source', target', label'⟩ := other
  simp

/-- Erasing edges unlinks them. -/
theorem value_eraseEdges (hg : g.Sound) (edges : List Edge) :
    (g.eraseEdges edges).value = g.value.unlink {edge | edge ∈ edges} := by
  refine LabelledDigraph.ext (funext fun id => ?_) (Set.ext fun edge => ?_)
  · simp [value, LabelledDigraph.unlink]
  · exact hg.hasEdge_eraseEdges

/-- Erasing an edge unlinks it. -/
theorem value_eraseEdge (hg : g.Sound) (edge : Edge) :
    (g.eraseEdge edge).value = g.value.unlink {edge} := by
  simpa using value_eraseEdges hg [edge]

/-- Erasing a node unlinks what touches it. -/
theorem value_erase (g : Graph α) (id : NodeId) :
    (g.erase id).value = (g.value.put id none).unlink (LabelledDigraph.incident id) := by
  refine LabelledDigraph.ext (funext fun other => ?_) (Set.ext fun edge => ?_)
  · show (g.erase id).payload? other = Function.update g.payload? id none other
    rw [payload?_erase, Function.update_apply]
    exact if_congr eq_comm rfl rfl
  · show (g.erase id).hasEdge edge ↔
      g.hasEdge edge ∧ ¬ (edge.source = id ∨ edge.target = id)
    rw [hasEdge_iff, mem_outgoing_erase, hasEdge_iff]
    tauto

/-- Only numbers that were handed out have payloads. -/
theorem finite_value (g : Graph α) : {id | g.value.Live id}.Finite :=
  (Set.finite_lt_nat g.nextId).subset fun _ hid => lt_nextId_of_contains (live_value.mp hid)

namespace Edit

variable {edit : Edit α} {reply : Reply α}

/-- Edits that succeed meet their meaning. -/
theorem Applied.meets (hg : g.Sound) (h : Applied g edit reply g') :
    g.value.Meets edit (.ok reply) g'.value := by
  cases h with
  | insert payload =>
    rw [value_insert]
    exact .insert (not_live_value.mpr (contains_nextId g))
  | remove hpayload =>
    rw [value_erase]
    exact .remove hpayload
  | join hsource htarget =>
    rw [value_addEdge g hsource]
    exact .join (live_value.mpr hsource) (live_value.mpr htarget)
  | @unlink source target hne =>
    have hedges : g.value.unlink {edge | edge ∈ g.edgesBetween source target} =
        g.value.unlink {edge | edge.source = source ∧ edge.target = target} := by
      refine LabelledDigraph.ext rfl (Set.ext fun edge => and_congr_right fun hedge => not_congr ?_)
      exact mem_edgesBetween.trans (and_iff_left hedge)
    rw [value_eraseEdges hg, hedges]
    exact .unlink hne (hg.nodup_labelsBetween source target) fun label => mem_labelsBetween
  | unlinkEdge hedge =>
    rw [value_eraseEdge hg]
    exact .unlinkEdge hedge
  | offer id payload =>
    rw [value_setPayload]
    exact .offer
  | assign hold =>
    rw [value_setPayload, hold, Option.map_some]
    exact .assign hold

/-- Edits that fail meet their meaning. -/
theorem Refused.meets {e : GraphError} (h : Refused g edit e) :
    g.value.Meets edit (.error e) g.value := by
  have hno : ∀ {edge : Edge}, g.hasEdge edge = false → edge ∉ g.value.edges := by
    intro edge hedge hmem
    exact Bool.false_ne_true (hedge.symm.trans hmem)
  have hdead : ∀ {edge : Edge}, g.contains edge.source = false → edge ∉ g.value.edges := by
    intro edge hsource hmem
    have hlive := contains_of_mem_outgoing (hasEdge_iff.mp hmem)
    exact Bool.false_ne_true (hsource.symm.trans hlive)
  cases h with
  | remove hid => exact .removeMissing (not_live_value.mpr hid)
  | joinTarget htarget => exact .joinMissing (.inr rfl) (not_live_value.mpr htarget)
  | joinSource hsource => exact .joinMissing (.inl rfl) (not_live_value.mpr hsource)
  | unlinkSource hsource =>
    exact .unlinkDead (fun label => hdead hsource) (not_live_value.mpr hsource)
  | unlink hsource hnil =>
    refine .unlinkMissing (fun label hmem => ?_) (live_value.mpr hsource)
    have hlabel := mem_labelsBetween.mpr hmem
    rw [hnil] at hlabel
    cases hlabel
  | unlinkEdgeSource hsource => exact .unlinkEdgeDead (hdead hsource) (not_live_value.mpr hsource)
  | unlinkEdge hsource hedge => exact .unlinkEdgeMissing (hno hedge) (live_value.mpr hsource)
  | assign hid => exact .assignMissing (not_live_value.mpr hid)

/-- After any requests, the next one does to the value of the graph what it is meant to do. It hands
out no number that was handed out before, a refused request leaves the graph as it is, and so does
one for an edge that is there; the removal of a node leaves all other links in their order. -/
theorem meets_run (history : List (Edit α)) (edit : Edit α) :
    let g := (runAll history {}).2
    let outcome := edit.run g
    {id | g.value.Live id}.Finite ∧
      g.value.Meets edit outcome.1 outcome.2.value ∧
      (∀ id, outcome.1 = .ok (.inserted id) → id ∉ handedOut (runAll history {}).1) ∧
      (∀ e, outcome.1 = .error e → outcome.2 = g) ∧
      (∀ edge ∈ g.value.edges, edit = .join edge → outcome.2 = g) ∧
      ∀ id, g.value.Live id → edit = .remove id → ∀ other, other ≠ id →
        outcome.2.outgoing other = (g.outgoing other).filter (·.1 != id) ∧
        outcome.2.incoming other = (g.incoming other).filter (·.1 != id) := by
  intro g outcome
  have hg : g.Sound := sound_runAll .empty history
  have hfresh : ∀ id, outcome.1 = .ok (.inserted id) → id ∉ handedOut (runAll history {}).1 := by
    intro id hinserted hmem
    have hlt := (inserted_runAll .empty (mem_handedOut.mp hmem)).2
    exact absurd (inserted_run hg hinserted).1 (Nat.ne_of_lt hlt)
  refine ⟨g.finite_value, ?_⟩
  rcases run_cases hg edit with ⟨reply, g', hrun, happlied⟩ | ⟨e, hrun, hrefused⟩
  · have houtcome : outcome = (.ok reply, g') := hrun
    rw [houtcome] at hfresh ⊢
    refine ⟨happlied.meets hg, hfresh, fun e herror => ?_, fun edge hedge hedit => ?_,
      fun id _ hedit other hne => ?_⟩
    · cases herror
    · subst hedit
      cases happlied
      exact addEdge_of_hasEdge g edge hedge
    · subst hedit
      cases happlied
      exact ⟨by rw [outgoing_erase, if_neg hne.symm], by rw [incoming_erase, if_neg hne.symm]⟩
  · have houtcome : outcome = (.error e, g) := hrun
    rw [houtcome] at hfresh ⊢
    refine ⟨hrefused.meets, hfresh, fun _ _ => rfl, fun _ _ _ => rfl, fun id hid hedit => ?_⟩
    -- The removal of a live node is not refused.
    subst hedit
    cases hrefused with
    | remove hdead => exact absurd hid (not_live_value.mpr hdead)

/-- A node with an edge to itself, two edges to another node, and one from it. -/
def crowded : List (Edit String) :=
  [.insert "a", .insert "b", .join ⟨0, 0, none⟩, .join ⟨0, 1, some false⟩, .join ⟨0, 1, some true⟩,
    .join ⟨1, 0, none⟩, .join ⟨1, 1, none⟩]

/-- Edits of a graph with parallel edges. -/
theorem meets_run_crowded :
    let g := (runAll crowded {}).2
    let outcome := (Edit.remove 0).run g
    g.value.Live 0 ∧ g.value.Meets (.remove 0) outcome.1 outcome.2.value ∧
      g.outgoing 1 = [(0, none), (1, none)] ∧ outcome.2.outgoing 1 = [(1, none)] ∧
      outcome.2.outgoing 1 = (g.outgoing 1).filter (·.1 != 0) := by
  have hlive : (runAll crowded {}).2.value.Live 0 := live_value.mpr (by decide +kernel)
  obtain ⟨-, hmeets, -, -, -, hremove⟩ := meets_run crowded (.remove 0)
  exact ⟨hlive, hmeets, by decide +kernel, by decide +kernel, (hremove 0 hlive rfl 1 (by decide)).1⟩

end Edit

end Graph

end Flowgraph

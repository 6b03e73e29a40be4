import Flowgraph.Proofs.Code.LabelSupply
import Flowgraph.Proofs.Flow.Layout
import Flowgraph.Proofs.Flow.WellFormed

/-!
# Flow graphs that can be laid out

`FlowGraph.Writable`: all nodes that control reaches can be written, and have the ways out that they
need. Such a graph is laid out without an error (`FlowGraph.Writable.exists_flatten`), and all that
can be missing is a label (`FlowGraph.Writable.flatten_eq_broken`).
-/

namespace Flowgraph

open List

variable {cfg : FlowGraph} {id : NodeId} {labels : NodeMap String} {supply : LabelSupply}

namespace Node

mutual

/-- Whether a node only acts on the program's state. -/
def isStraight : Node → Bool
  | .assign _ _ _ | .store _ _ _ | .call _ _ _ _ => true
  | .block children _ => isStraightList children
  | _ => false

/-- Whether several nodes only act on the program's state. -/
def isStraightList : List Node → Bool
  | [] => true
  | node :: rest => node.isStraight && isStraightList rest

end

/-- Whether a node can be written as statements. -/
def isWritable : Node → Bool
  | .phi _ _ | .stub _ => false
  | .block children _ => isStraightList children
  | _ => true

/-- Phi blocks and stubs are not written. -/
theorem kind_of_isWritable {node : Node} (h : node.isWritable) :
    node.kind ≠ .phi ∧ node.kind ≠ .stub := by
  cases node <;> simp_all [isWritable, kind]

end Node

namespace Layout

mutual

/-- A node that only acts has a text. -/
theorem exists_straightLine (id : NodeId) :
    ∀ {node : Node}, node.isStraight → ∃ items, straightLine id node = .ok items
  | .assign _ _ _, _ | .store _ _ _, _ | .call _ _ _ _, _ => ⟨_, rfl⟩
  | .block children _, h => by
      rw [Node.isStraight] at h
      rw [straightLine]
      exact exists_straightLines id h
  | .start _, h | .ret _, h | .branch _ _, h | .spin _, h | .phi _ _, h | .stub _, h => by
      simp [Node.isStraight] at h

/-- Straight nodes have lines. -/
theorem exists_straightLines (id : NodeId) :
    ∀ {nodes : List Node}, Node.isStraightList nodes → ∃ items, straightLines id nodes = .ok items
  | [], _ => ⟨_, rfl⟩
  | node :: rest, h => by
      rw [Node.isStraightList, Bool.and_eq_true] at h
      obtain ⟨items, hitems⟩ := exists_straightLine id h.1
      obtain ⟨others, hothers⟩ := exists_straightLines id h.2
      exact ⟨items ++ others, by simp only [straightLines, hitems, hothers]⟩

end

/-- A writable node with the ways out that it needs is written. -/
theorem exists_emit {node : Node} (hnode : node.isWritable)
    (hfits : cfg.OutgoingFits id node.kind) : ∃ written, emit cfg id node = .ok written := by
  have honward : (∃ next label, cfg.outgoing id = [(next, label)]) →
      ∃ next, cfg.successors id = [next] := by
    intro ⟨next, label, hout⟩
    exact ⟨next, Graph.successors_eq hout⟩
  cases node with
  | ret span => exact ⟨_, rfl⟩
  | spin span => exact ⟨_, rfl⟩
  | phi | stub => cases hnode
  | branch cond span =>
    obtain ⟨onTrue, onFalse, hout⟩ := hfits
    have hsucc : cfg.successors id = [onTrue, onFalse] := Graph.successors_eq hout
    simp only [emit, hsucc]
    exact ⟨_, rfl⟩
  | start | assign | store | call =>
    obtain ⟨next, hnext⟩ := honward hfits
    simp only [emit, straightLine, hnext]
    exact ⟨_, rfl⟩
  | block children span =>
    obtain ⟨next, hnext⟩ := honward hfits
    obtain ⟨items, hitems⟩ := exists_straightLines id hnode
    simp only [emit, straightLine, hitems, hnext]
    exact ⟨_, rfl⟩

end Layout

namespace FlowGraph

/-- Reached nodes are writable and have the ways out that they need. -/
def Writable (cfg : FlowGraph) : Prop :=
  ∀ {id node}, cfg.Reaches cfg.start id → cfg.node? id = some node →
    node.isWritable ∧ cfg.OutgoingFits id node.kind

/-- Well-formed graphs can be written. -/
theorem WellFormed.writable {cfg : FlowGraph} (h : cfg.WellFormed)
    (hnodes : ∀ id node, cfg.node? id = some node → node.isWritable) : cfg.Writable :=
  fun {id node} _ hnode => ⟨hnodes id node hnode, h.outgoingFits hnode⟩

end FlowGraph

namespace Layout

variable {layout : Layout}

/-- All ways that a layout defers lead to nodes that control reaches. -/
def DefersReached (cfg : FlowGraph) (layout : Layout) : Prop :=
  ∀ id ∈ layout.deferred, cfg.Reaches cfg.start id

/-- A chain from a node that control reaches is written. -/
theorem exists_chain (h : cfg.Writable) (length : Nat) (hid : cfg.Reaches cfg.start id)
    (hdeferred : DefersReached cfg layout) :
    ∃ after, chain cfg length layout id = .ok after ∧ DefersReached cfg after := by
  induction length generalizing layout id with
  | zero => exact ⟨layout, rfl, hdeferred⟩
  | succ length ih =>
    cases hnode : cfg.node? id with
    | none => exact ⟨layout, by simp only [chain, hnode], hdeferred⟩
    | some node =>
      by_cases hmem : id ∈ layout.emitted
      · have hagain : layout.emitted.contains id := by simpa using hmem
        simp only [chain, hnode, hagain, if_true]
        exact ⟨_, rfl, hdeferred⟩
      obtain ⟨⟨items, step⟩, hemit⟩ := exists_emit (h hid hnode).1 (h hid hnode).2
      have hnext : ∀ {next}, next ∈ step.deferred ∨ step.opened = some next →
          cfg.Reaches cfg.start next :=
        fun hnext => hid.tail ((emitted_of_emit hemit).mem_successors hnext)
      have hwritten : DefersReached cfg ⟨layout.items ++ .place id :: items,
          id :: layout.emitted, layout.deferred ++ step.deferred⟩ := by
        intro other hother
        rcases mem_append.mp hother with hother | hother
        · exact hdeferred other hother
        · exact hnext (.inl hother)
      rw [chain_of_emit hnode hmem hemit]
      cases hopened : step.opened with
      | none => exact ⟨_, rfl, hwritten⟩
      | some next => exact ih (hnext (.inr hopened)) hwritten

/-- The deferred ways are written. -/
theorem exists_finish (h : cfg.Writable) {length count : Nat}
    (hdeferred : DefersReached cfg layout) :
    ∃ after, finish cfg length count layout = .ok after := by
  induction count generalizing layout with
  | zero => exact ⟨layout, rfl⟩
  | succ count ih =>
    rw [finish]
    split
    · exact ⟨layout, rfl⟩
    next id rest hcons =>
    have hrest : DefersReached cfg { layout with deferred := rest } := fun other hother =>
      hdeferred other (hcons ▸ mem_cons_of_mem _ hother)
    split
    · exact ih hrest
    · have hid : cfg.Reaches cfg.start id := hdeferred id (hcons ▸ mem_cons_self)
      obtain ⟨written, hchain, hwritten⟩ := exists_chain h length hid hrest
      simp only [hchain]
      exact ih hwritten

/-- Writable graphs have a layout. -/
theorem exists_ofGraph (h : cfg.Writable) : ∃ layout, ofGraph cfg = .ok layout := by
  have hempty : DefersReached cfg {} := fun id hid => absurd hid not_mem_nil
  obtain ⟨first, hchain, hfirst⟩ := exists_chain h (cfg.slots.size + 1) (.refl _) hempty
  rw [ofGraph]
  simp only [hchain]
  exact exists_finish h hfirst

/-- How many different nodes of a list have no label yet. -/
def unlabelled (labels : NodeMap String) (ids : List NodeId) : Nat :=
  (ids.filter fun id => !labels.contains id).eraseDups.length

/-- Nodes with a label need none. -/
theorem unlabelled_cons (hid : labels.contains id) (rest : List NodeId) :
    unlabelled labels (id :: rest) = unlabelled labels rest := by
  simp [unlabelled, hid]

/-- A label for a node is one that is not needed again. -/
theorem unlabelled_insert (hid : labels.contains id = false) (label : String) (rest : List NodeId) :
    unlabelled labels (id :: rest) = unlabelled (labels.insert id label) rest + 1 := by
  have hfilter : (rest.filter fun other => !(labels.insert id label).contains other) =
      (rest.filter fun other => !labels.contains other).filter fun other => !other == id := by
    rw [filter_filter]
    refine filter_congr fun other _ => ?_
    have hsame : (compare id other == .eq) = (other == id) := by
      rw [Bool.eq_iff_iff, beq_iff_eq, beq_iff_eq, Std.compare_eq_iff_eq]
      exact eq_comm
    rw [Std.ExtTreeMap.contains_insert, Bool.not_or, hsame]
  unfold unlabelled
  rw [hfilter, filter_cons_of_pos (by simp [hid]), eraseDups_cons, length_cons]

end Layout

/-! ### Labels -/

namespace Layout

variable {ids : List NodeId}

/-- A supply that covers the nodes without a label labels them. -/
theorem exists_mint (hcovers : supply.Covers (unlabelled labels ids)) :
    ∃ minted, mint ids labels supply = .ok (minted, supply.after (unlabelled labels ids)) := by
  induction ids generalizing labels supply with
  | nil => exact ⟨labels, rfl⟩
  | cons id rest ih =>
    cases hid : labels.contains id with
    | true =>
      rw [unlabelled_cons hid] at hcovers ⊢
      simp only [mint, hid, if_true]
      exact ih hcovers
    | false =>
      rw [unlabelled_insert hid (LabelSupply.label supply.next), Nat.add_comm] at hcovers ⊢
      obtain ⟨hfirst, hrest⟩ := LabelSupply.covers_add.mp hcovers
      have hfresh : supply.fresh? = some (LabelSupply.label supply.next, supply.after 1) := by
        have hnext : supply.next < LabelSupply.limit := hfirst.resolve_left Nat.one_ne_zero
        rw [LabelSupply.fresh?, if_pos hnext]
        rfl
      simp only [mint, hid, Bool.false_eq_true, if_false, hfresh, LabelSupply.after_add]
      exact ih hrest

/-- A supply that does not cover them runs out. -/
theorem mint_eq_error (hcovers : ¬ supply.Covers (unlabelled labels ids)) :
    mint ids labels supply = .error .labelsExhausted := by
  induction ids generalizing labels supply with
  | nil => exact absurd (.inl rfl) hcovers
  | cons id rest ih =>
    cases hid : labels.contains id with
    | true =>
      rw [unlabelled_cons hid] at hcovers
      simp only [mint, hid, if_true]
      exact ih hcovers
    | false =>
      simp only [mint, hid, Bool.false_eq_true, if_false, LabelSupply.fresh?]
      by_cases hnext : supply.next < LabelSupply.limit
      · rw [unlabelled_insert hid (LabelSupply.label supply.next), Nat.add_comm,
          LabelSupply.covers_add] at hcovers
        rw [if_pos hnext]
        exact ih fun hrest => hcovers ⟨.inr hnext, hrest⟩
      · rw [if_neg hnext]

end Layout

namespace FlowGraph

/-- A graph is laid out with one label for each target. -/
def labelDemand (cfg : FlowGraph) : Nat :=
  match Layout.ofGraph cfg with
  | .error _ => 0
  | .ok layout => (layout.items.filterMap Layout.Item.target?).eraseDups.length

/-- The labels a graph needs. -/
theorem labelDemand_eq {layout : Layout} (hlayout : Layout.ofGraph cfg = .ok layout) :
    cfg.labelDemand = Layout.unlabelled ∅ (layout.items.filterMap Layout.Item.target?) := by
  simp [labelDemand, hlayout, Layout.unlabelled]

/-- A writable graph is laid out if there are labels for it. -/
theorem Writable.exists_flatten (h : cfg.Writable) (hcovers : supply.Covers cfg.labelDemand) :
    ∃ body, cfg.flatten supply = .done (body, supply.after cfg.labelDemand) := by
  obtain ⟨layout, hlayout⟩ := Layout.exists_ofGraph h
  rw [labelDemand_eq hlayout] at hcovers ⊢
  obtain ⟨labels, hminted⟩ := Layout.exists_mint hcovers
  simp only [flatten, hlayout, Layout.body, hminted, Outcome.ofBreaches]
  exact ⟨_, rfl⟩

/-- Nothing but labels can be missing. -/
theorem Writable.flatten_eq_broken (h : cfg.Writable) (hcovers : ¬ supply.Covers cfg.labelDemand) :
    cfg.flatten supply = .broken .labelsExhausted := by
  obtain ⟨layout, hlayout⟩ := Layout.exists_ofGraph h
  rw [labelDemand_eq hlayout] at hcovers
  simp only [flatten, hlayout, Layout.body, Layout.mint_eq_error hcovers, Outcome.ofBreaches]

end FlowGraph

end Flowgraph

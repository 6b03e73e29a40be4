import Flowgraph.Proofs.Flow.Rebuild
import Flowgraph.Proofs.Semantics.Observation

/-!
# The statements of a laid out graph

A graph is laid out as one sequence with the statements of each node that control can come to. Every
label is defined once, gone to somewhere and minted for this text, and the last statement is a
return or a jump (`FlowGraph.Listed`). Every graph that can be laid out will do
(`FlowGraph.Assembled.listed_of_flatten`). `Layout.Sections` says that nothing is written besides
what `Layout.chain_spec` finds.
-/

namespace Flowgraph

open List hiding getElem?_insert

variable {cfg : FlowGraph} {id : NodeId} {supply rest : LabelSupply} {name : String}

open Std.ExtTreeMap

mutual

/-- The statements of a node that acts on the program's state. -/
def Node.stmts : Node → List Stmt
  | .assign target value span => [.instr (.move (.temp target) value) span]
  | .store address value span => [.instr (.move (.mem address) value) span]
  | .call collectors callee args span => [.instr (.call collectors callee args) span]
  | .block children _ => stmtsList children
  | _ => []

/-- The statements of several nodes in a row. -/
def Node.stmtsList : List Node → List Stmt
  | [] => []
  | node :: rest => node.stmts ++ stmtsList rest

end

namespace FlowGraph

/-- The nodes with which control can go on: the first edge out of a node that is no condition
counts, and a return and a spin lead nowhere else. -/
def waysOn (cfg : FlowGraph) (id : NodeId) : List NodeId :=
  match cfg.node? id with
  | none | some (.ret _) | some (.spin _) => []
  | some (.branch _ _) => cfg.successors id
  | some _ => (cfg.successors id).take 1

/-- Control can come to a node from the start. -/
def Walked (cfg : FlowGraph) : NodeId → Prop :=
  Relation.ReflTransGen (fun id next => next ∈ cfg.waysOn id) cfg.start

/-- The statements of a node, given the labels of nodes. -/
def stmtsAt (cfg : FlowGraph) (name : NodeId → String) (id : NodeId) : List Stmt :=
  match cfg.node? id with
  | none => []
  | some (.ret span) => [.instr .ret span]
  | some (.spin span) => [.instr (.jump (name id)) span]
  | some (.branch cond span) =>
    (cfg.successors id).take 1 |>.map fun onTrue => .instr (.branch cond (name onTrue)) span
  | some node => node.stmts

/-- The part of a node: its statements, possibly behind its label and in front of a jump to a node
with which control goes on. -/
def PartOf (cfg : FlowGraph) (name : NodeId → String) (id : NodeId) (part : List Stmt) : Prop :=
  ∃ front back, part = front ++ cfg.stmtsAt name id ++ back ∧
    (front = [] ∨ front = [.instr (.label (name id)) (cfg.spanOf id)]) ∧
    (back = [] ∨ ∃ next ∈ cfg.waysOn id, back = [.instr (.jump (name next)) (cfg.spanOf next)])

/-- A run of code is at one of its instructions or has ended. -/
def Inside (size : Nat) : Spot Nat → Prop
  | .point pc _ _ => pc < size
  | .waiting _ _ _ resume _ _ => resume < size
  | .ended _ _ => True

/-- The body that a graph is laid out as with the labels of a supply. -/
structure Listed (cfg : FlowGraph) (supply rest : LabelSupply) (body : Stmt) : Prop where
  /-- The body is one sequence without sequences in it. -/
  flat : ∃ stmts span, body = .seq stmts span ∧ ∀ stmt ∈ stmts, ∃ instr span,
    stmt = .instr instr span
  /-- Each node that control can come to has its part. -/
  parts : ∃ (order : List NodeId) (name : NodeId → String) (parts : List (List Stmt)),
    order.Nodup ∧ (∀ id, id ∈ order ↔ cfg.Walked id) ∧
      body = .seq parts.flatten (cfg.spanOf cfg.start) ∧ Forall₂ (cfg.PartOf name) order parts
  defined_once : ∀ name ∈ body.labels, body.code.count (.label name) = 1
  referenced : ∀ name, .label name ∈ body.code → ∃ instr ∈ body.code, instr.goesTo? = some name
  targets : ∀ instr ∈ body.code, ∀ name, instr.goesTo? = some name → .label name ∈ body.code
  /-- The labels are those that the supply minted. -/
  minted : ∃ names, supply.draw? names.length = some (names, rest) ∧
    (body.code.filterMap Instr.defined?).Perm names
  last : ∃ front instr, body.code = front ++ [instr] ∧ (instr = .ret ∨ ∃ name, instr = .jump name)
  /-- Control never runs off the end. -/
  inside : ∀ table name frame world events spot,
    Trail (Machine.CodeMoves table name (.ofBody body)) (.point 0 frame world) events spot →
      Inside body.code.length spot

end FlowGraph

/-! ### Sections -/

namespace Layout

variable {items : List Item} {node : Node} {step : Step} {layout : Layout} {labels : NodeMap String}
  {ids : List NodeId} {length : Nat} {after : Layout}

/-- A text ends with a return or a jump. -/
def Ends (items : List Item) : Prop :=
  ∃ front, (∃ span, items = front ++ [.stmt .ret span]) ∨ ∃ target span,
    items = front ++ [.jump target span]

/-- Text in front does not matter. -/
theorem Ends.append (h : Ends items) (front : List Item) : Ends (front ++ items) := by
  obtain ⟨middle, ⟨span, rfl⟩ | ⟨target, span, rfl⟩⟩ := h
  · exact ⟨front ++ middle, .inl ⟨span, by simp⟩⟩
  · exact ⟨front ++ middle, .inr ⟨target, span, by simp⟩⟩

/-- The place of a node and what it does, possibly with a jump to where the chain goes on. -/
inductive Section (cfg : FlowGraph) (id : NodeId) : List Item → Prop where
  | falls {node : Node} {items : List Item} {step : Step} : cfg.node? id = some node →
      emit cfg id node = .ok (items, step) → Section cfg id (.place id :: items)
  | jumps {node : Node} {items : List Item} {step : Step} {next : NodeId} :
      cfg.node? id = some node → emit cfg id node = .ok (items, step) → step.opened = some next →
      Section cfg id (.place id :: items ++ [.jump next (cfg.spanOf next)])

/-- One layout goes on from another with the sections of some nodes. -/
structure Sections (cfg : FlowGraph) (layout after : Layout) (texts : List (NodeId × List Item)) :
    Prop where
  sections : ∀ text ∈ texts, Section cfg text.1 text.2
  items : after.items = layout.items ++ texts.flatMap (·.2)
  emitted : after.emitted = (texts.map (·.1)).reverse ++ layout.emitted
  ends : Ends after.items

namespace Sections

variable {middle : Layout} {texts others : List (NodeId × List Item)}

/-- Nothing is written. -/
theorem refl (h : Ends layout.items) : Sections cfg layout layout [] :=
  ⟨by simp, by simp, by simp, h⟩

/-- Sections are written in turn. -/
theorem trans (h : Sections cfg layout middle texts) (h' : Sections cfg middle after others) :
    Sections cfg layout after (texts ++ others) where
  sections text htext := by
    rcases mem_append.mp htext with htext | htext
    · exact h.sections text htext
    · exact h'.sections text htext
  items := by simp [h'.items, h.items]
  emitted := by simp [h'.emitted, h.emitted]
  ends := h'.ends

/-- A section in front of others. -/
theorem cons {deferred : List NodeId} (hfirst : Section cfg id items)
    (h : Sections cfg ⟨layout.items ++ items, id :: layout.emitted, deferred⟩ after texts) :
    Sections cfg layout after ((id, items) :: texts) where
  sections := forall_mem_cons.mpr ⟨hfirst, h.sections⟩
  items := by simp [h.items]
  emitted := by simp [h.emitted]
  ends := h.ends

end Sections

/-- A chain that stops at a node ends there with a return or a jump. -/
theorem Emitted.ends (h : Emitted cfg id node items step) (hstop : step.opened = none) :
    Ends items := by
  cases h with
  | ret => exact ⟨[], .inl ⟨_, rfl⟩⟩
  | spin => exact ⟨[], .inr ⟨_, _, rfl⟩⟩
  | onward | branch => cases hstop

/-- A chain consists of sections. -/
theorem chain_sections (hcfg : cfg.Sound) (hlaid : Laid cfg layout (some id))
    (hlive : cfg.contains id) (hid : id ∉ layout.emitted)
    (hlength : cfg.slots.size < layout.emitted.length + length)
    (hchain : chain cfg length layout id = .ok after) :
    ∃ texts, Sections cfg layout after texts := by
  induction length generalizing layout id with
  | zero =>
    have hle := hlaid.length_emitted_le
    omega
  | succ length ih =>
    obtain ⟨node, hnode⟩ := FlowGraph.exists_node hlive
    cases hemit : emit cfg id node with
    | error error => simp [chain, hnode, hid, hemit] at hchain
    | ok written =>
    obtain ⟨items, step⟩ := written
    rw [chain_of_emit hnode hid hemit] at hchain
    have hemitted := emitted_of_emit hemit
    have hwritten := hlaid.write hcfg hid hnode hemit
    have hbudget := hwritten.length_emitted_le
    have hfalls : Section cfg id (.place id :: items) := .falls hnode hemit
    cases hopened : step.opened with
    | none =>
      simp only [hopened] at hchain
      cases hchain
      exact ⟨_, .cons hfalls (.refl (((hemitted.ends hopened).append [.place id]).append
        layout.items))⟩
    | some next =>
      simp only [hopened] at hchain hwritten
      have hnext := hcfg.graph.contains_successor (hemitted.mem_successors (.inr hopened))
      simp only [length_cons] at hbudget
      by_cases hagain : next ∈ id :: layout.emitted
      · -- The chain has come to a node that was written before, and a round is left for the jump.
        obtain ⟨rounds, rfl⟩ : ∃ rounds, length = rounds + 1 := ⟨length - 1, by omega⟩
        obtain ⟨target, htarget⟩ := FlowGraph.exists_node hnext
        have hspan : target.span = cfg.spanOf next := by simp [FlowGraph.spanOf, htarget]
        have hold : (id :: layout.emitted).contains next := by simpa using hagain
        simp only [chain, htarget, hold, if_true, hspan] at hchain
        cases hchain
        refine ⟨[(id, .place id :: items ++ [.jump next (cfg.spanOf next)])], ?_, ?_, ?_, ?_⟩
        · simpa using .jumps hnode hemit hopened
        · simp
        · simp
        · exact ⟨_, .inr ⟨next, _, rfl⟩⟩
      · obtain ⟨texts, htexts⟩ := ih hwritten hnext hagain
          (by simp only [length_cons]; omega) hchain
        exact ⟨_, .cons hfalls htexts⟩

/-- Writing the deferred ways adds sections. -/
theorem finish_sections (hcfg : cfg.Sound) {count : Nat} (hlaid : Laid cfg layout none)
    (hends : Ends layout.items) (hlength : cfg.slots.size < length)
    (hfinish : finish cfg length count layout = .ok after) :
    ∃ texts, Sections cfg layout after texts := by
  induction count generalizing layout with
  | zero =>
    cases hfinish
    exact ⟨[], .refl hends⟩
  | succ count ih =>
    rw [finish] at hfinish
    split at hfinish
    · cases hfinish
      exact ⟨[], .refl hends⟩
    next id rest hcons =>
    split at hfinish
    · next hemitted =>
      have hmem : id ∈ layout.emitted := by simpa using hemitted
      obtain ⟨texts, htexts⟩ := ih (hlaid.take hcons (.inl hmem)) hends hfinish
      exact ⟨texts, htexts.sections, htexts.items, htexts.emitted, htexts.ends⟩
    next hnew =>
    simp only at hfinish
    split at hfinish
    · cases hfinish
    next written hchain =>
    have htaken := hlaid.take hcons (.inr rfl)
    have hid : cfg.contains id := hlaid.live id (by simp [hcons])
    have hbudget : cfg.slots.size < layout.emitted.length + length := by omega
    obtain ⟨texts, htexts⟩ := chain_sections hcfg htaken hid (by simpa using hnew) hbudget hchain
    have hwritten := (chain_spec hcfg htaken hid hbudget hchain).laid
    obtain ⟨others, hothers⟩ := ih hwritten htexts.ends hfinish
    have hboth := htexts.trans hothers
    exact ⟨texts ++ others, hboth.sections, hboth.items, hboth.emitted, hboth.ends⟩

/-- A layout consists of sections. -/
theorem ofGraph_sections (hcfg : cfg.Sound) (h : ofGraph cfg = .ok layout) :
    ∃ texts, Sections cfg {} layout texts := by
  rw [ofGraph] at h
  split at h
  · cases h
  next first hchain =>
  obtain ⟨texts, htexts⟩ := chain_sections hcfg laid_empty hcfg.start (by simp) (by simp) hchain
  have hfirst := (chain_spec hcfg laid_empty hcfg.start (by simp) hchain).laid
  obtain ⟨others, hothers⟩ := finish_sections hcfg hfirst htexts.ends (by omega) h
  exact ⟨texts ++ others, htexts.trans hothers⟩

/-! ### Nodes to which control can come -/

/-- Ways on are deferred or opened. -/
theorem Emitted.waysOn_eq (hnode : cfg.node? id = some node) (h : Emitted cfg id node items step) :
    cfg.waysOn id = step.deferred ++ step.opened.toList := by
  rw [FlowGraph.waysOn, hnode]
  cases h with
  | onward honward _ hsucc =>
    cases node with
    | start | assign | store | call | block => simp [hsucc, Step.deferred, Step.opened]
    | ret | branch | spin | phi | stub => simp [Node.Onward, Node.kind] at honward
  | ret | spin => rfl
  | branch hsucc => simp [hsucc, Step.deferred, Step.opened]

/-- Control can come to all nodes written or deferred. -/
def OnlyWalked (cfg : FlowGraph) (layout : Layout) : Prop :=
  ∀ id ∈ layout.emitted ++ layout.deferred, cfg.Walked id

/-- Chains write walked nodes only. -/
theorem OnlyWalked.chain {length : Nat} {layout after : Layout} {id : NodeId}
    (h : OnlyWalked cfg layout)
    (hid : cfg.Walked id) (hchain : chain cfg length layout id = .ok after) :
    OnlyWalked cfg after := by
  induction length generalizing layout id with
  | zero =>
    cases hchain
    exact h
  | succ length ih =>
    cases hnode : cfg.node? id with
    | none =>
      simp only [Layout.chain, hnode] at hchain
      cases hchain
      exact h
    | some node =>
    by_cases hagain : id ∈ layout.emitted
    · have hold : layout.emitted.contains id := by simpa using hagain
      simp only [Layout.chain, hnode, hold, if_true] at hchain
      cases hchain
      exact h
    cases hemit : emit cfg id node with
    | error error => simp [Layout.chain, hnode, hagain, hemit] at hchain
    | ok written =>
    obtain ⟨items, step⟩ := written
    rw [chain_of_emit hnode hagain hemit] at hchain
    have hways := (emitted_of_emit hemit).waysOn_eq hnode
    have hon : ∀ next ∈ step.deferred ++ step.opened.toList, cfg.Walked next := fun next hnext =>
      hid.tail (hways ▸ hnext)
    have hwritten : OnlyWalked cfg ⟨layout.items ++ .place id :: items, id :: layout.emitted,
        layout.deferred ++ step.deferred⟩ := by
      intro other hother
      simp only [cons_append, mem_cons, mem_append] at hother
      rcases hother with rfl | hother | hother | hother
      · exact hid
      · exact h other (mem_append_left _ hother)
      · exact h other (mem_append_right _ hother)
      · exact hon other (mem_append_left _ hother)
    cases hopened : step.opened with
    | none =>
      simp only [hopened] at hchain
      cases hchain
      exact hwritten
    | some next =>
      simp only [hopened] at hchain
      exact ih hwritten (hon next (by simp [hopened])) hchain

/-- All chains write walked nodes only. -/
theorem OnlyWalked.finish {length count : Nat} {layout after : Layout} (h : OnlyWalked cfg layout)
    (hfinish : finish cfg length count layout = .ok after) : OnlyWalked cfg after := by
  induction count generalizing layout with
  | zero =>
    cases hfinish
    exact h
  | succ count ih =>
    rw [Layout.finish] at hfinish
    split at hfinish
    · cases hfinish
      exact h
    next id rest hcons =>
    have hid : cfg.Walked id := h id (by simp [hcons])
    have hrest : OnlyWalked cfg { layout with deferred := rest } := by
      intro other hother
      refine h other ?_
      rw [hcons]
      rcases mem_append.mp hother with hother | hother
      · exact mem_append_left _ hother
      · exact mem_append_right _ (mem_cons_of_mem _ hother)
    split at hfinish
    · exact ih hrest hfinish
    simp only at hfinish
    split at hfinish
    · cases hfinish
    next written hchain => exact ih (hrest.chain hid hchain) hfinish

/-- Layouts hold walked nodes only. -/
theorem walked_of_ofGraph (h : ofGraph cfg = .ok layout) : OnlyWalked cfg layout := by
  rw [ofGraph] at h
  split at h
  · cases h
  next first hchain =>
  have hempty : OnlyWalked cfg {} := fun id hid => absurd hid not_mem_nil
  exact (hempty.chain .refl hchain).finish h

/-- A text has a place for every node to which control can come. -/
theorem Text.mem_of_walked (h : Text cfg items labels) (hid : cfg.Walked id) :
    .place id ∈ items := by
  induction hid with
  | refl =>
    obtain ⟨back, hback⟩ := h.start
    simp [hback]
  | @tail id next _ hnext ih =>
    obtain ⟨front, back, hsplit⟩ := append_of_mem ih
    obtain ⟨node, written, step, tail, hnode, hemit, rfl, hcont⟩ := h.placed hsplit
    have hemitted := emitted_of_emit hemit
    rw [hemitted.waysOn_eq hnode] at hnext
    rcases mem_append.mp hnext with hdeferred | hopened
    · cases hemitted with
      | @branch cond span onTrue onFalse hsucc =>
        obtain rfl : next = onTrue := mem_singleton.mp hdeferred
        have hbranch : Item.branch cond next span ∈ items := by simp [hsplit]
        exact (h.targets hbranch rfl).1
      | onward | ret | spin => cases hdeferred
    · have hbehind : items = (front ++ .place id :: written) ++ tail := by simp [hsplit]
      exact h.mem_of_continues hbehind (hcont next (by simpa using hopened))

/-! ### From sections to parts -/

mutual

/-- Straight nodes give their statements. -/
theorem stmts_of_straightLine (labels : NodeMap String) {id : NodeId} :
    ∀ {node : Node} {items : List Item},
    straightLine id node = .ok items → items.flatMap (stmts cfg labels) = node.stmts
  | .assign _ _ _, _, h | .store _ _ _, _, h | .call _ _ _ _, _, h => by
      cases h
      rfl
  | .block children _, items, h => by
      rw [Node.stmts]
      exact stmts_of_straightLines labels (by simpa [straightLine] using h)
  | .start _, _, h | .ret _, _, h | .branch _ _, _, h | .spin _, _, h | .phi _ _, _, h
  | .stub _, _, h => by simp [straightLine] at h

/-- Straight lists give their statements. -/
theorem stmts_of_straightLines (labels : NodeMap String) {id : NodeId} :
    ∀ {nodes : List Node} {items : List Item}, straightLines id nodes = .ok items →
      items.flatMap (stmts cfg labels) = Node.stmtsList nodes
  | [], _, h => by
      cases h
      rfl
  | node :: rest, items, h => by
      rw [straightLines] at h
      split at h
      · cases h
      next first hfirst =>
      split at h
      · cases h
      next others hothers =>
      cases h
      rw [flatMap_append, stmts_of_straightLine labels hfirst,
        stmts_of_straightLines labels hothers, Node.stmtsList]

end

/-- What is written for a node becomes its statements. -/
theorem stmts_of_emit (labels : NodeMap String) (hnode : cfg.node? id = some node)
    (h : emit cfg id node = .ok (items, step)) :
    items.flatMap (stmts cfg labels) = cfg.stmtsAt (labels.getD · "") id := by
  rw [FlowGraph.stmtsAt, hnode]
  cases node with
  | start span =>
    simp only [emit] at h
    split at h
    · cases h
      rfl
    · cases h
  | ret span | spin span =>
    cases h
    rfl
  | branch cond span =>
    simp only [emit] at h
    split at h
    · next hboth =>
      cases h
      rw [hboth]
      rfl
    · cases h
  | assign | store | call | block =>
    simp only [emit] at h
    split at h
    · cases h
    next written hwritten =>
    split at h
    · cases h
      exact stmts_of_straightLine labels hwritten
    · cases h
  | phi | stub => cases h

/-- A section becomes the part of its node. -/
theorem Section.partOf (h : Section cfg id items) (labels : NodeMap String) :
    cfg.PartOf (labels.getD · "") id (items.flatMap (stmts cfg labels)) := by
  have hplace : stmts cfg labels (.place id) = [] ∨
      stmts cfg labels (.place id) = [.instr (.label (labels.getD id "")) (cfg.spanOf id)] := by
    rw [stmts, getD_eq_getD_getElem?]
    cases labels[id]? with
    | none => exact .inl rfl
    | some label => exact .inr rfl
  cases h with
  | falls hnode hemit =>
    refine ⟨_, [], ?_, hplace, .inl rfl⟩
    rw [flatMap_cons, stmts_of_emit labels hnode hemit, append_nil]
  | @jumps node written step next hnode hemit hopened =>
    have hnext : next ∈ cfg.waysOn id := by
      rw [(emitted_of_emit hemit).waysOn_eq hnode, hopened]
      simp
    refine ⟨_, [.instr (.jump (labels.getD next "")) (cfg.spanOf next)], ?_, hplace,
      .inr ⟨next, hnext, rfl⟩⟩
    rw [flatMap_append, flatMap_cons, stmts_of_emit labels hnode hemit]
    rfl

/-- Sections are the parts of nodes. -/
theorem forall₂_partOf {texts : List (NodeId × List Item)}
    (h : ∀ text ∈ texts, Section cfg text.1 text.2) (labels : NodeMap String) :
    Forall₂ (cfg.PartOf (labels.getD · "")) (texts.map (·.1))
      (texts.map fun text => text.2.flatMap (stmts cfg labels)) := by
  rw [forall₂_map_left_iff, forall₂_map_right_iff, forall₂_same]
  exact fun text htext => (h text htext).partOf labels

/-- Only instructions are written. -/
theorem exists_instr_of_mem_stmts {item : Item} {stmt : Stmt} (h : stmt ∈ stmts cfg labels item) :
    ∃ instr span, stmt = .instr instr span := by
  cases item with
  | place id =>
    rw [stmts] at h
    split at h
    · exact ⟨_, _, mem_singleton.mp h⟩
    · cases h
  | stmt | jump | branch => exact ⟨_, _, mem_singleton.mp h⟩

/-! ### Labels of a text -/

/-- Minting gives the nodes of a list the next labels of the supply. -/
structure Mints (ids : List NodeId) (labels : NodeMap String) (supply : LabelSupply)
    (labels' : NodeMap String) (supply' : LabelSupply) : Prop where
  keys : ∀ id, labels'.contains id ↔ labels.contains id ∨ id ∈ ids
  names : ∀ name, (∃ id : NodeId, labels'[id]? = some name) ↔
    (∃ id : NodeId, labels[id]? = some name) ∨
    ∃ k, supply.next ≤ k ∧ k < supply'.next ∧ LabelSupply.label k = name
  next_le : supply.next ≤ supply'.next
  covers : supply.Covers (supply'.next - supply.next)

/-- Labels are minted in order. -/
theorem mints_of_mint {labels' : NodeMap String} {supply' : LabelSupply}
    (h : mint ids labels supply = .ok (labels', supply')) :
    Mints ids labels supply labels' supply' := by
  induction ids generalizing labels supply with
  | nil =>
    cases h
    refine ⟨by simp, fun name => ⟨.inl, ?_⟩, Nat.le_refl _, .inl (Nat.sub_self _)⟩
    rintro (hold | ⟨k, hlow, hhigh, -⟩)
    · exact hold
    · omega
  | cons id rest ih =>
    rw [mint] at h
    split at h
    · next hold =>
      obtain ⟨hkeys, hnames, hle, hcovers⟩ := ih h
      refine ⟨fun other => ?_, hnames, hle, hcovers⟩
      rw [hkeys, mem_cons]
      refine ⟨fun hor => hor.imp_right .inr, fun hor => ?_⟩
      rcases hor with hor | rfl | hor
      · exact .inl hor
      · exact .inl hold
      · exact .inr hor
    next hnew =>
    split at h
    · cases h
    next label remaining hfresh =>
    rw [LabelSupply.fresh?] at hfresh
    split at hfresh
    case isFalse => cases hfresh
    next hlimit =>
    cases hfresh
    obtain ⟨hkeys, hnames, hle, hcovers⟩ := ih h
    have hnone : labels[id]? = none := by
      rw [← Option.not_isSome_iff_eq_none, isSome_getElem?_eq_contains]
      exact hnew
    change supply.next + 1 ≤ supply'.next at hle
    refine ⟨fun other => ?_, fun name => ?_, by omega, ?_⟩
    · rw [hkeys, Std.ExtTreeMap.contains_insert, mem_cons, Bool.or_eq_true, beq_iff_eq,
        Std.LawfulEqCmp.compare_eq_iff_eq, eq_comm]
      tauto
    · -- the new label belongs to a node that had none, and the others stay
      have hinsert : (∃ other : NodeId, (labels.insert id (LabelSupply.label supply.next))[other]? =
          some name) ↔
          (∃ other : NodeId, labels[other]? = some name) ∨
            LabelSupply.label supply.next = name := by
        constructor
        · rintro ⟨other, hother⟩
          rw [getElem?_insert] at hother
          split at hother
          · exact .inr (Option.some.inj hother)
          · exact .inl ⟨other, hother⟩
        · rintro (⟨other, hother⟩ | rfl)
          · refine ⟨other, ?_⟩
            rw [getElem?_insert, if_neg, hother]
            rw [Std.LawfulEqCmp.compare_eq_iff_eq]
            rintro rfl
            rw [hnone] at hother
            cases hother
          · exact ⟨id, by simp⟩
      rw [hnames, hinsert, or_assoc]
      refine or_congr_right ⟨?_, ?_⟩
      · rintro (hname | ⟨k, hlow, hhigh, hname⟩)
        · exact ⟨supply.next, Nat.le_refl _, hle, hname⟩
        · exact ⟨k, Nat.le_of_succ_le hlow, hhigh, hname⟩
      · rintro ⟨k, hlow, hhigh, hname⟩
        rcases Nat.eq_or_lt_of_le hlow with rfl | hlow
        · exact .inl hname
        · exact .inr ⟨k, hlow, hhigh, hname⟩
    · unfold LabelSupply.Covers at hcovers ⊢
      change _ ∨ supply.next + 1 + (supply'.next - (supply.next + 1)) ≤ _ at hcovers
      change supply'.next - (supply.next + 1) = 0 ∨ _ at hcovers
      omega

/-- Only nodes of the list have labels after minting. -/
theorem Mints.mem_of_label (h : Mints ids {} supply labels rest) {name : String}
    (hid : labels[id]? = some name) : id ∈ ids := by
  have hlabelled : labels.contains id := by
    rw [← isSome_getElem?_eq_contains, hid]
    rfl
  simpa using (h.keys id).mp hlabelled

/-- Minted labels are those that the supply would have given. -/
theorem Mints.exists_drawn (h : Mints ids {} supply labels rest) {names : List String}
    (hnodup : names.Nodup)
    (hnames : ∀ name, name ∈ names ↔ ∃ id : NodeId, labels[id]? = some name) :
    ∃ drawn, supply.draw? drawn.length = some (drawn, rest) ∧ names.Perm drawn := by
  have hnext := h.next_le
  have hafter : supply.after (rest.next - supply.next) = rest := by
    rw [LabelSupply.after, Nat.add_sub_cancel' hnext]
  refine ⟨supply.upcoming (rest.next - supply.next), ?_, ?_⟩
  · rw [LabelSupply.upcoming, length_map, length_range', LabelSupply.draw?_eq,
      if_pos h.covers, hafter]
    rfl
  · rw [perm_ext_iff_of_nodup hnodup (LabelSupply.nodup_upcoming ..)]
    intro name
    rw [hnames, h.names, LabelSupply.upcoming, mem_map]
    have hempty : ¬∃ id : NodeId, (∅ : NodeMap String)[id]? = some name := by simp
    simp only [hempty, false_or, mem_range'_1, and_assoc]
    refine exists_congr fun k => and_congr_right fun hlow => and_congr_left fun _ => ?_
    omega

section Labels

section

variable (h : Text cfg items labels)
  (hkeys : ∀ {id : NodeId} {name}, labels[id]? = some name → id ∈ items.filterMap Item.target?)
include h hkeys

/-- A text defines all labels, if only targets have labels. -/
theorem Text.mem_defined :
    name ∈ (text labels items).filterMap Instr.defined? ↔ ∃ id : NodeId,
      labels[id]? = some name := by
  rw [h.filterMap_defined, mem_filterMap]
  constructor
  · rintro ⟨id, -, hid⟩
    exact ⟨id, hid⟩
  · rintro ⟨id, hid⟩
    obtain ⟨item, hitem, htarget⟩ := mem_filterMap.mp (hkeys hid)
    exact ⟨id, mem_filterMap.mpr ⟨_, (h.targets hitem htarget).1, rfl⟩, hid⟩

/-- Every label of a text is gone to, if only targets have labels. -/
theorem Text.exists_goesTo (hname : .label name ∈ text labels items) :
    ∃ instr ∈ text labels items, instr.goesTo? = some name := by
  obtain ⟨id, hid⟩ := (h.mem_defined hkeys).mp (mem_filterMap.mpr ⟨_, hname, rfl⟩)
  obtain ⟨item, hitem, htarget⟩ := mem_filterMap.mp (hkeys hid)
  have hgetD : labels.getD id "" = name := by
    rw [getD_eq_getD_getElem?, hid, Option.getD_some]
  cases item with
  | jump target span =>
    cases htarget
    exact ⟨.jump name, mem_flatMap.mpr ⟨_, hitem, by simp [Item.instrs, hgetD]⟩, rfl⟩
  | branch cond target span =>
    cases htarget
    exact ⟨.branch cond name, mem_flatMap.mpr ⟨_, hitem, by simp [Item.instrs, hgetD]⟩, rfl⟩
  | place | stmt => cases htarget

end

/-- A label is defined as often as it stands among the defined ones. -/
theorem count_label (instrs : List Instr) (name : String) :
    instrs.count (.label name) = (instrs.filterMap Instr.defined?).count name := by
  rw [count_filterMap, List.count]
  refine countP_congr fun instr _ => ?_
  cases instr <;> simp [Instr.defined?]

end Labels

/-- Texts end in a return or a jump. -/
theorem Ends.exists_last (h : Ends items) (labels : NodeMap String) :
    ∃ front instr, text labels items = front ++ [instr] ∧
      (instr = .ret ∨ ∃ name, instr = .jump name) := by
  obtain ⟨front, ⟨span, rfl⟩ | ⟨target, span, rfl⟩⟩ := h
  · exact ⟨text labels front, .ret, by simp [Item.instrs], .inl rfl⟩
  · exact ⟨text labels front, _, by simp only [text_append]; rfl, .inr ⟨_, rfl⟩⟩

end Layout

/-! ### Control stays inside -/

namespace Code

/-- Labels stand in the text. -/
theorem labelPositions_lt {instrs : List Instr} {index : Nat} {targets : NameMap Nat}
    {label : String}
    {position : Nat} (h : (labelPositions index instrs targets)[label]? = some position) :
    targets[label]? = some position ∨ position < index + instrs.length := by
  induction instrs generalizing index targets with
  | nil => exact .inl h
  | cons instr rest ih =>
    rw [length_cons]
    cases instr with
    | label name =>
      rcases ih h with hinsert | hlt
      · rw [getElem?_insert] at hinsert
        split at hinsert
        · cases hinsert
          exact .inr (by omega)
        · exact .inl hinsert
      · exact .inr (by omega)
    | move | call | jump | branch | ret =>
      rcases ih h with hold | hlt
      · exact .inl hold
      · exact .inr (by omega)

variable {instrs : List Instr} {pc : Nat} {frame : Frame} {world : World}

open FlowGraph (Inside)

/-- Jumps stay inside. -/
theorem inside_goto (label : String) :
    Inside instrs.length (.follow frame world ((ofInstrs instrs).goto name label frame world)) := by
  unfold goto
  split
  · exact trivial
  next position hposition =>
  rcases labelPositions_lt hposition with hempty | hlt
  · simp at hempty
  · simpa [Spot.follow, Inside] using hlt

/-- Code that ends with a return or a jump stays inside. -/
theorem inside_next (hlast : ∃ front last, instrs = front ++ [last] ∧
    (last = .ret ∨ ∃ label, last = .jump label)) (hpc : pc < instrs.length) :
    Inside instrs.length (.follow frame world ((ofInstrs instrs).next name pc frame world)) := by
  obtain ⟨instr, hinstr⟩ : ∃ instr, instrs[pc]? = some instr := ⟨_, getElem?_eq_getElem hpc⟩
  have hbehind : instr ≠ .ret → (∀ label, instr ≠ .jump label) → pc + 1 < instrs.length := by
    intro hret hjump
    obtain ⟨front, last, rfl, hlast⟩ := hlast
    rw [length_append, length_singleton] at hpc ⊢
    by_contra hend
    obtain rfl : pc = front.length := by omega
    rw [getElem?_concat_length] at hinstr
    cases hinstr
    rcases hlast with rfl | ⟨label, rfl⟩
    · exact hret rfl
    · exact hjump label rfl
  cases instr with
  | ret =>
    rw [next_ret hinstr]
    exact trivial
  | label =>
    rw [next_label hinstr]
    exact hbehind Instr.noConfusion fun _ => Instr.noConfusion
  | jump label =>
    rw [next_jump hinstr]
    exact inside_goto label
  | branch cond label =>
    rw [next_branch hinstr, Action.choose]
    split
    · exact trivial
    · split
      · exact hbehind Instr.noConfusion fun _ => Instr.noConfusion
      · exact inside_goto label
  | move | call =>
    have hnext : pc + 1 < instrs.length := hbehind Instr.noConfusion fun _ => Instr.noConfusion
    rw [next_of_acts hinstr rfl]
    cases Instr.effect name frame world _ with
    | proceed | call => exact hnext
    | fail => exact trivial

/-- Returns stay inside. -/
theorem inside_back {size resume : Nat} (h : resume < size) (callee : String)
    (collectors : List String) (frame : Frame) (result : Result) (world : World) :
    Inside size (.back callee collectors resume frame result world) := by
  cases result with
  | error error => exact trivial
  | ok results =>
    rw [Spot.back]
    split
    · exact trivial
    · exact h

/-- A run of code that ends with a return or a jump stays inside. -/
theorem inside_of_trail
    (hlast : ∃ front last, instrs = front ++ [last] ∧ (last = .ret ∨ ∃ label, last = .jump label))
    {table : CodeTable} {spot after : Spot Nat} {events : List Observation}
    (h : Trail (Machine.CodeMoves table name (ofInstrs instrs)) spot events after)
    (hspot : Inside instrs.length spot) : Inside instrs.length after := by
  induction h with
  | refl => exact hspot
  | head hmove _ ih =>
    refine ih ?_
    cases hmove with
    | act pc frame world => exact inside_next hlast hspot
    | back heval => exact inside_back hspot ..

end Code

namespace FlowGraph

variable {body : Stmt}

/-- The text is made of the nodes' parts. -/
theorem Sound.parts_of_flatten (h : cfg.Sound)
    (hflatten : cfg.flatten supply = .done (body, rest)) :
    ∃ (order : List NodeId) (name : NodeId → String) (parts : List (List Stmt)),
      order.Nodup ∧ (∀ id, id ∈ order ↔ cfg.Walked id) ∧
        body = .seq parts.flatten (cfg.spanOf cfg.start) ∧
          Forall₂ (cfg.PartOf name) order parts := by
  obtain ⟨layout, labels, hlayout, hmint, rfl⟩ := flatten_eq_done.mp hflatten
  have htext := Layout.text_of_mint h hlayout hmint
  obtain ⟨hlaid, -, -⟩ := Layout.ofGraph_spec h hlayout
  obtain ⟨texts, htexts⟩ := Layout.ofGraph_sections h hlayout
  have hemitted : layout.emitted = (texts.map (·.1)).reverse := by simpa using htexts.emitted
  refine ⟨texts.map (·.1), (labels.getD · ""), texts.map fun text =>
    text.2.flatMap (Layout.stmts cfg labels),
    ?_, fun id => ?_, ?_, Layout.forall₂_partOf htexts.sections labels⟩
  · exact nodup_reverse.mp (hemitted ▸ hlaid.nodup)
  · rw [← mem_reverse, ← hemitted]
    constructor
    · exact fun hid => Layout.walked_of_ofGraph hlayout id (mem_append_left _ hid)
    · intro hid
      have hplace : id ∈ layout.items.filterMap Layout.Item.place? :=
        mem_filterMap.mpr ⟨_, htext.mem_of_walked hid, rfl⟩
      rwa [hlaid.places, mem_reverse] at hplace
  · have hitems : layout.items = texts.flatMap (·.2) := by simpa using htexts.items
    rw [hitems, flatMap_assoc, ← flatMap_def]

/-- A flow graph that is laid out becomes one flat sequence: each node to which control can come has
its part there once, every label is defined once, gone to somewhere and minted for this text, and
control never runs off the end. -/
theorem Assembled.listed_of_flatten (hcfg : cfg.Assembled)
    (hflatten : cfg.flatten supply = .done (body, rest)) : cfg.Listed supply rest body := by
  have hsound := hcfg.sound
  have hparts := hsound.parts_of_flatten hflatten
  obtain ⟨layout, labels, hlayout, hmint, rfl⟩ := flatten_eq_done.mp hflatten
  have htext := Layout.text_of_mint hsound hlayout hmint
  obtain ⟨texts, htexts⟩ := Layout.ofGraph_sections hsound hlayout
  have hmints := Layout.mints_of_mint hmint
  have hlast := htexts.ends.exists_last labels
  have hcode := Layout.code_seq_stmts cfg labels layout.items (cfg.spanOf cfg.start)
  have hnodup := htext.nodup_defined
  refine ⟨⟨_, _, rfl, fun stmt hstmt => ?_⟩, hparts, fun name hname => ?_, ?_, ?_, ?_, ?_, ?_⟩
  · obtain ⟨item, -, hmem⟩ := mem_flatMap.mp hstmt
    exact Layout.exists_instr_of_mem_stmts hmem
  all_goals rw [hcode]
  · rw [Layout.count_label]
    refine count_eq_one_of_mem hnodup ?_
    rw [Stmt.labels, hcode] at hname
    obtain ⟨instr, hinstr, hlabel⟩ := mem_filterMap.mp hname
    have hdefined : .label name ∈ Layout.text labels layout.items := by
      cases instr with
      | label other => exact Option.some.inj hlabel ▸ hinstr
      | jump | branch => exact htext.label_mem _ hinstr name hlabel
      | move | call | ret => cases hlabel
    exact mem_filterMap.mpr ⟨_, hdefined, rfl⟩
  · exact fun name hname => htext.exists_goesTo hmints.mem_of_label hname
  · exact htext.label_mem
  · exact hmints.exists_drawn hnodup fun name => htext.mem_defined hmints.mem_of_label
  · exact hlast
  · intro table name frame world events spot htrail
    rw [Code.ofBody_eq, hcode] at htrail
    refine Code.inside_of_trail hlast htrail ?_
    obtain ⟨front, instr, hinstrs, -⟩ := hlast
    rw [hinstrs, length_append]
    exact Nat.succ_pos _

/-- A start that is entered, a node with two edges out, a condition whose true way is fallen into
before its turn, a spin, and a return behind the second edge. -/
def misshapen : FlowGraph :=
  .ofNodes ⟨0, 9⟩ [.branch (.temp "x") ⟨1, 2⟩, .assign "i" (.const 1) ⟨2, 3⟩,
      .branch (.temp "y") ⟨3, 4⟩, .spin ⟨4, 5⟩, .ret ⟨5, 6⟩]
    [⟨0, 1, none⟩, ⟨1, 2, some true⟩, ⟨1, 3, some false⟩, ⟨2, 0, none⟩, ⟨2, 5, none⟩,
      ⟨3, 4, some true⟩, ⟨3, 2, some false⟩, ⟨4, 4, none⟩]

/-- A graph that is not well-formed. -/
theorem listed_of_flatten_misshapen :
    let body : Stmt := .seq [
      .instr (.label "_l9") ⟨0, 9⟩, .instr (.branch (.temp "x") "_l7") ⟨1, 2⟩,
      .instr (.branch (.temp "y") "_l8") ⟨3, 4⟩, .instr (.label "_l7") ⟨2, 3⟩,
      .instr (.move (.temp "i") (.const 1)) ⟨2, 3⟩, .instr (.jump "_l9") ⟨0, 9⟩,
      .instr (.label "_l8") ⟨4, 5⟩, .instr (.jump "_l8") ⟨4, 5⟩] ⟨0, 9⟩
    misshapen.Assembled ∧ misshapen.flatten ⟨7⟩ = .done (body, ⟨10⟩) ∧
      misshapen.Listed ⟨7⟩ ⟨10⟩ body := by
  have hassembled : misshapen.Assembled := .ofNodes ..
  intro body
  have hflatten : misshapen.flatten ⟨7⟩ = .done (body, ⟨10⟩) := by rfl
  exact ⟨hassembled, hflatten, hassembled.listed_of_flatten hflatten⟩

end FlowGraph

end Flowgraph

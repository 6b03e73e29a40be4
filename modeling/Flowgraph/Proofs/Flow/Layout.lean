import Flowgraph.Flow.Layout
import Flowgraph.Proofs.Flow.Sound
import Flowgraph.Proofs.Semantics.Graph

/-!
# The text of a layout

`Layout.Laid` holds of a layout at any moment: behind the place of a node stands what it does, and
then the place of its successor or a jump to it; targets of jumps are placed or deferred; no node is
placed twice. While a chain is open its last node waits for its successor. `Layout.chain_spec`
closes a chain, and `Layout.ofGraph_spec` is the whole layout.
-/

namespace Flowgraph.Layout

open List

variable {cfg : FlowGraph} {items : List Item} {instrs : List Instr} {id : NodeId} {node : Node}
  {step : Step} {length : Nat} {layout : Layout} {item : Item} {after : Layout}

/-! ### The text of one node -/

namespace Item

/-- The node whose place an item is. -/
def place? : Item → Option NodeId
  | .place id => some id
  | _ => none

end Item

/-- Items that are just instructions of the program. -/
def Plain (items : List Item) (instrs : List Instr) : Prop :=
  ∃ stmts : List (Instr × Span), items = stmts.map (fun stmt => .stmt stmt.1 stmt.2) ∧
    stmts.map Prod.fst = instrs

/-- No items. -/
theorem Plain.nil : Plain [] [] :=
  ⟨[], rfl, rfl⟩

/-- One statement. -/
theorem Plain.single (instr : Instr) (span : Span) : Plain [.stmt instr span] [instr] :=
  ⟨[(instr, span)], rfl, rfl⟩

/-- Plain items are appended. -/
theorem Plain.append {others : List Item} {more : List Instr} (h : Plain items instrs)
    (h' : Plain others more) : Plain (items ++ others) (instrs ++ more) := by
  obtain ⟨first, rfl, rfl⟩ := h
  obtain ⟨second, rfl, rfl⟩ := h'
  exact ⟨first ++ second, by simp, by simp⟩

/-- Statements are among the instructions. -/
theorem Plain.mem_instrs (h : Plain items instrs) {instr : Instr} {span : Span}
    (hstmt : .stmt instr span ∈ items) : instr ∈ instrs := by
  obtain ⟨stmts, rfl, rfl⟩ := h
  obtain ⟨stmt, hmem, heq⟩ := mem_map.mp hstmt
  obtain ⟨rfl, rfl⟩ := Item.stmt.inj heq
  exact mem_map_of_mem hmem

/-- Plain items are statements. -/
theorem Plain.eq_stmt_of_mem (h : Plain items instrs) (hitem : item ∈ items) :
    ∃ instr span, item = .stmt instr span := by
  obtain ⟨stmts, rfl, -⟩ := h
  obtain ⟨stmt, -, rfl⟩ := mem_map.mp hitem
  exact ⟨stmt.1, stmt.2, rfl⟩

mutual

/-- Straight nodes have plain items. -/
theorem plain_of_straightLine {id : NodeId} : ∀ {node : Node} {items : List Item},
    straightLine id node = .ok items → Plain items node.instrs
  | .assign _ _ span, _, h | .store _ _ span, _, h | .call _ _ _ span, _, h => by
      cases h
      exact .single _ span
  | .block children _, items, h => plain_of_straightLines (by simpa [straightLine] using h)
  | .start _, _, h | .ret _, _, h | .branch _ _, _, h | .spin _, _, h | .phi _ _, _, h
  | .stub _, _, h => by simp [straightLine] at h

/-- Straight lists have plain items. -/
theorem plain_of_straightLines {id : NodeId} : ∀ {nodes : List Node} {items : List Item},
    straightLines id nodes = .ok items → Plain items (Node.instrsList nodes)
  | [], _, h => by
      cases h
      exact .nil
  | node :: rest, items, h => by
      rw [straightLines] at h
      split at h
      · cases h
      · next first hfirst =>
        split at h
        · cases h
        · next others hothers =>
          cases h
          rw [Node.instrsList]
          exact (plain_of_straightLine hfirst).append (plain_of_straightLines hothers)

end

/-- What is written for a node, and where the chain goes on. -/
inductive Emitted (cfg : FlowGraph) (id : NodeId) : Node → List Item → Step → Prop where
  | onward {node : Node} {items : List Item} {next : NodeId} {rest : List NodeId} :
      node.Onward → Plain items node.instrs →
      cfg.successors id = next :: rest → Emitted cfg id node items (.next next)
  | ret {span : Span} : Emitted cfg id (.ret span) [.stmt .ret span] .stop
  | spin {span : Span} : Emitted cfg id (.spin span) [.jump id span] .stop
  | branch {cond : Expr} {span : Span} {onTrue onFalse : NodeId} :
      cfg.successors id = [onTrue, onFalse] →
      Emitted cfg id (.branch cond span) [.branch cond onTrue span] (.fork onTrue onFalse)

/-- What is written for a node. -/
theorem emitted_of_emit (h : emit cfg id node = .ok (items, step)) :
    Emitted cfg id node items step := by
  cases node with
  | start span =>
    simp only [emit] at h
    split at h
    · next next rest hnext =>
      cases h
      exact .onward (by simp [Node.Onward, Node.kind]) .nil hnext
    · cases h
  | ret span =>
    cases h
    exact .ret
  | spin span =>
    cases h
    exact .spin
  | branch cond span =>
    simp only [emit] at h
    split at h
    · next hboth =>
      cases h
      exact .branch hboth
    · cases h
  | assign | store | call | block =>
    simp only [emit] at h
    split at h
    · cases h
    · next written hwritten =>
      split at h
      · next next rest hnext =>
        cases h
        exact .onward (by simp [Node.Onward, Node.kind]) (plain_of_straightLine hwritten) hnext
      · cases h
  | phi | stub => cases h

namespace Emitted

/-- No place is written inside the text of a node. -/
theorem place?_eq_none (h : Emitted cfg id node items step) (hitem : item ∈ items) :
    item.place? = none := by
  cases h with
  | onward _ hplain _ =>
    obtain ⟨instr, span, rfl⟩ := hplain.eq_stmt_of_mem hitem
    rfl
  | ret | spin | branch =>
    obtain rfl := mem_singleton.mp hitem
    rfl

/-- The instructions in the text of a node are its own or return. -/
theorem plain (h : Emitted cfg id node items step) {instr : Instr} {span : Span}
    (hstmt : .stmt instr span ∈ items) : instr ∈ node.instrs ∨ instr = .ret := by
  cases h with
  | onward _ hplain _ => exact .inl (hplain.mem_instrs hstmt)
  | ret => exact .inr (Item.stmt.inj (mem_singleton.mp hstmt)).1
  | spin | branch => simp at hstmt

end Emitted

/-- The way that a step defers. -/
def Step.deferred : Step → List NodeId
  | .fork onTrue _ => [onTrue]
  | _ => []

/-- The node with which a chain goes on. -/
def Step.opened : Step → Option NodeId
  | .stop => none
  | .next id => some id
  | .fork _ onFalse => some onFalse

/-- Targets in the text of a node are the node itself or deferred. -/
theorem Emitted.target_cases (h : Emitted cfg id node items step) (hitem : item ∈ items)
    {target : NodeId} (htarget : item.target? = some target) :
    target = id ∨ target ∈ step.deferred := by
  cases h with
  | onward _ hplain _ =>
    obtain ⟨instr, span, rfl⟩ := hplain.eq_stmt_of_mem hitem
    cases htarget
  | ret =>
    obtain rfl := mem_singleton.mp hitem
    cases htarget
  | spin =>
    obtain rfl := mem_singleton.mp hitem
    exact .inl (Option.some.inj htarget).symm
  | branch =>
    obtain rfl := mem_singleton.mp hitem
    exact .inr (by simpa [Step.deferred] using (Option.some.inj htarget).symm)

/-- The ways on from a node are successors of it. -/
theorem Emitted.mem_successors (h : Emitted cfg id node items step) {next : NodeId}
    (hnext : next ∈ step.deferred ∨ step.opened = some next) : next ∈ cfg.successors id := by
  cases h with
  | onward _ _ hsucc =>
    simp only [Step.deferred, Step.opened, not_mem_nil, Option.some.injEq, false_or] at hnext
    simp [hsucc, hnext]
  | ret | spin => simp [Step.deferred, Step.opened] at hnext
  | branch hsucc =>
    simp only [Step.deferred, Step.opened, mem_singleton, Option.some.injEq] at hnext
    rcases hnext with hnext | hnext <;> simp [hsucc, hnext]

/-! ### A layout in the making -/

/-- The text goes on with the place of a node or a jump to it. -/
def Continues (id : NodeId) (items : List Item) : Prop :=
  (∃ rest, items = .place id :: rest) ∨ ∃ span rest, items = .jump id span :: rest

/-- The text goes on with the node that the step names, or the chain is open there. -/
def Follows (opened : Option NodeId) (step : Step) (tail : List Item) : Prop :=
  ∀ next, step.opened = some next → Continues next tail ∨ (tail = [] ∧ opened = some next)

/-- A layout in the making, where the chain comes to `opened`. -/
structure Laid (cfg : FlowGraph) (layout : Layout) (opened : Option NodeId) : Prop where
  placed : ∀ {front id back}, layout.items = front ++ .place id :: back →
    ∃ node items step tail, cfg.node? id = some node ∧ emit cfg id node = .ok (items, step) ∧
      back = items ++ tail ∧ Follows opened step tail
  places : layout.items.filterMap Item.place? = layout.emitted.reverse
  nodup : layout.emitted.Nodup
  live : ∀ id ∈ layout.emitted ++ layout.deferred, cfg.contains id
  plain : ∀ {instr span}, .stmt instr span ∈ layout.items →
    (∃ node : Node, instr ∈ node.instrs) ∨ instr = .ret
  targets : ∀ item ∈ layout.items, ∀ {target}, item.target? = some target →
    target ∈ layout.emitted ∨ target ∈ layout.deferred ∨ opened = some target

/-- An occurrence in an extended list is in the old part or the new. -/
theorem split_append {α : Type} {old new front back : List α} {x : α}
    (h : old ++ new = front ++ x :: back) :
    (∃ rest, old = front ++ x :: rest ∧ back = rest ++ new) ∨
      ∃ middle, front = old ++ middle ∧ new = middle ++ x :: back := by
  rcases append_eq_append_iff.mp h with ⟨middle, hfront, hnew⟩ | ⟨middle, hold, hback⟩
  · exact .inr ⟨middle, hfront, hnew⟩
  · cases middle with
    | nil => exact .inr ⟨[], by simpa using hold.symm, by simpa using hback.symm⟩
    | cons y rest =>
      cases hback
      exact .inl ⟨rest, hold, rfl⟩

/-- More text does not matter. -/
theorem Continues.append (h : Continues id items) (more : List Item) :
    Continues id (items ++ more) := by
  rcases h with ⟨rest, rfl⟩ | ⟨span, rest, rfl⟩
  · exact .inl ⟨rest ++ more, rfl⟩
  · exact .inr ⟨span, rest ++ more, rfl⟩

/-- Text that goes on with the open node closes what was open. -/
theorem Follows.close {tail more : List Item} (h : Follows (some id) step tail)
    (hmore : Continues id more) (opened : Option NodeId) : Follows opened step (tail ++ more) := by
  intro next hnext
  rcases h next hnext with hcont | ⟨rfl, hopen⟩
  · exact .inl (hcont.append more)
  · cases hopen
    exact .inl hmore

namespace Laid

/-- Nothing need be open. -/
theorem weaken (h : Laid cfg layout none) (opened : Option NodeId) : Laid cfg layout opened where
  placed hsplit := by
    obtain ⟨node, items, step, tail, hnode, hemit, hback, hfollows⟩ := h.placed hsplit
    refine ⟨node, items, step, tail, hnode, hemit, hback, fun next hnext => ?_⟩
    rcases hfollows next hnext with hcont | ⟨-, hopen⟩
    · exact .inl hcont
    · cases hopen
  places := h.places
  nodup := h.nodup
  live := h.live
  plain := h.plain
  targets item hitem _ htarget := by
    rcases h.targets item hitem htarget with hin | hin | hin
    · exact .inl hin
    · exact .inr (.inl hin)
    · cases hin

/-- A chain may end with a jump to a node that was written before. -/
theorem jump (h : Laid cfg layout (some id)) (hid : id ∈ layout.emitted) (span : Span) :
    Laid cfg { layout with items := layout.items ++ [.jump id span] } none where
  placed {front other back} hsplit := by
    rcases split_append hsplit with ⟨rest, hold, rfl⟩ | ⟨middle, -, hnew⟩
    · obtain ⟨node, items, step, tail, hnode, hemit, rfl, hfollows⟩ := h.placed hold
      refine ⟨node, items, step, tail ++ [.jump id span], hnode, hemit, by simp, ?_⟩
      exact hfollows.close (.inr ⟨span, [], rfl⟩) none
    · have hmem : Item.place other ∈ [Item.jump id span] := by simp [hnew]
      simp at hmem
  places := by simpa [filterMap_cons, Item.place?] using h.places
  nodup := h.nodup
  live := h.live
  plain hstmt := h.plain (by simpa using hstmt)
  targets item hitem target htarget := by
    rcases mem_append.mp hitem with hitem | hitem
    · rcases h.targets item hitem htarget with hin | hin | hin
      · exact .inl hin
      · exact .inr (.inl hin)
      · exact .inl (Option.some.inj hin ▸ hid)
    · obtain rfl := mem_singleton.mp hitem
      exact .inl (Option.some.inj htarget ▸ hid)

/-- A chain goes on by writing the open node. -/
theorem write (hcfg : cfg.Sound) (h : Laid cfg layout (some id)) (hid : id ∉ layout.emitted)
    (hnode : cfg.node? id = some node) (hemit : emit cfg id node = .ok (items, step)) :
    Laid cfg ⟨layout.items ++ .place id :: items, id :: layout.emitted,
      layout.deferred ++ step.deferred⟩ step.opened where
  placed {front other back} hsplit := by
    rcases split_append hsplit with ⟨rest, hold, rfl⟩ | ⟨middle, -, hnew⟩
    · obtain ⟨node, items', step', tail, hnode, hemit', rfl, hfollows⟩ := h.placed hold
      refine ⟨node, items', step', tail ++ .place id :: items, hnode, hemit', by simp, ?_⟩
      exact hfollows.close (.inl ⟨items, rfl⟩) _
    · cases middle with
      | nil =>
        obtain ⟨hplace, rfl⟩ := List.cons.inj hnew
        obtain rfl := Item.place.inj hplace
        exact ⟨node, items, step, [], hnode, hemit, by simp, fun next hnext => .inr ⟨rfl, hnext⟩⟩
      | cons first middle =>
        have hmem : Item.place other ∈ items := by
          rw [(List.cons.inj hnew).2]
          simp
        cases (emitted_of_emit hemit).place?_eq_none hmem
  places := by
    have hnone : items.filterMap Item.place? = [] :=
      filterMap_eq_nil_iff.mpr fun item hitem => (emitted_of_emit hemit).place?_eq_none hitem
    simp [hnone, h.places, Item.place?]
  nodup := nodup_cons.mpr ⟨hid, h.nodup⟩
  live other hother := by
    simp only [cons_append, mem_cons, mem_append] at hother
    rcases hother with rfl | hother | hother | hother
    · exact Graph.contains_of_payload? hnode
    · exact h.live other (mem_append_left _ hother)
    · exact h.live other (mem_append_right _ hother)
    · exact hcfg.graph.contains_successor ((emitted_of_emit hemit).mem_successors (.inl hother))
  plain {instr span} hstmt := by
    rcases mem_append.mp hstmt with hstmt | hstmt
    · exact h.plain hstmt
    · exact ((emitted_of_emit hemit).plain (by simpa using hstmt)).imp_left fun hin => ⟨node, hin⟩
  targets item hitem target htarget := by
    simp only [mem_cons, mem_append]
    rcases mem_append.mp hitem with hitem | hitem
    · rcases h.targets item hitem htarget with hin | hin | hin
      · exact .inl (.inr hin)
      · exact .inr (.inl (.inl hin))
      · exact .inl (.inl (Option.some.inj hin).symm)
    · rcases mem_cons.mp hitem with rfl | hitem
      · cases htarget
      · rcases (emitted_of_emit hemit).target_cases hitem htarget with rfl | hin
        · exact .inl (.inl rfl)
        · exact .inr (.inl (.inr hin))

/-- Taking up a deferred way opens a chain, unless it was written. -/
theorem take (h : Laid cfg layout none) {rest : List NodeId}
    (hdeferred : layout.deferred = id :: rest)
    {opened : Option NodeId} (hopened : id ∈ layout.emitted ∨ opened = some id) :
    Laid cfg { layout with deferred := rest } opened where
  placed := (h.weaken opened).placed
  places := h.places
  nodup := h.nodup
  live other hother := by
    refine h.live other ?_
    simp only [hdeferred, mem_append, mem_cons] at hother ⊢
    exact hother.imp_right .inr
  plain := h.plain
  targets item hitem target htarget := by
    rcases h.targets item hitem htarget with hin | hin | hin
    · exact .inl hin
    · rw [hdeferred] at hin
      rcases mem_cons.mp hin with rfl | hin
      · exact hopened.imp_right .inr
      · exact .inr (.inl hin)
    · cases hin

/-- No more nodes are written than the graph has numbers. -/
theorem length_emitted_le {opened : Option NodeId} (h : Laid cfg layout opened) :
    layout.emitted.length ≤ cfg.slots.size :=
  Graph.length_le_nextId h.nodup fun other hother =>
    h.live other (mem_append_left _ hother)

end Laid

/-! ### Whole layouts -/

/-- Writing a chain closes it and extends the text, and at most one way is deferred for each node
written. -/
structure Chained (cfg : FlowGraph) (layout : Layout) (id : NodeId) (after : Layout) : Prop where
  laid : Laid cfg after none
  grows : layout.items <+: after.items
  first : id ∉ layout.emitted → layout.items ++ [.place id] <+: after.items
  budget : after.deferred.length + layout.emitted.length ≤
    layout.deferred.length + after.emitted.length

/-- At most one node is deferred. -/
theorem Step.length_deferred_le (step : Step) : step.deferred.length ≤ 1 := by
  cases step <;> simp [Step.deferred]

/-- How a chain goes on after a node that was not written before. -/
theorem chain_of_emit (hnode : cfg.node? id = some node) (hid : id ∉ layout.emitted)
    (hemit : emit cfg id node = .ok (items, step)) : chain cfg (length + 1) layout id =
      let written : Layout := ⟨layout.items ++ .place id :: items, id :: layout.emitted,
        layout.deferred ++ step.deferred⟩
      match step.opened with
      | none => .ok written
      | some next => chain cfg length written next := by
  rw [chain]
  cases step <;> simp [hnode, hemit, hid, Step.opened, Step.deferred]

/-- A chain with rounds for all nodes left is written to its end. -/
theorem chain_spec (hcfg : cfg.Sound) (hlaid : Laid cfg layout (some id))
    (hid : cfg.contains id) (hlength : cfg.slots.size < layout.emitted.length + length)
    (hchain : chain cfg length layout id = .ok after) : Chained cfg layout id after := by
  induction length generalizing layout id with
  | zero =>
    have hle := hlaid.length_emitted_le
    omega
  | succ length ih =>
    obtain ⟨node, hnode⟩ := FlowGraph.exists_node hid
    by_cases hmem : id ∈ layout.emitted
    · have hold : layout.emitted.contains id := by simpa using hmem
      simp only [chain, hnode, hold, if_true] at hchain
      cases hchain
      exact ⟨hlaid.jump hmem node.span, prefix_append _ _, fun hnot => absurd hmem hnot,
        Nat.le_refl _⟩
    cases hemit : emit cfg id node with
    | error error =>
      simp [chain, hnode, hmem, hemit] at hchain
    | ok written =>
      obtain ⟨items, step⟩ := written
      rw [chain_of_emit hnode hmem hemit] at hchain
      have hemitted := emitted_of_emit hemit
      have hwritten := hlaid.write hcfg hmem hnode hemit
      have hdeferred := step.length_deferred_le
      have hplace : layout.items ++ [.place id] <+: layout.items ++ .place id :: items :=
        ⟨items, by simp⟩
      cases hopen : step.opened with
      | none =>
        simp only [hopen] at hchain hwritten
        cases hchain
        refine ⟨hwritten, prefix_append _ _, fun _ => hplace, ?_⟩
        simp only [length_append, length_cons]
        omega
      | some next =>
        simp only [hopen] at hchain hwritten
        have hlive := hcfg.graph.contains_successor (hemitted.mem_successors (.inr hopen))
        have hrest := ih hwritten hlive (by simp only [length_cons]; omega) hchain
        have hbudget := hrest.budget
        simp only [length_append, length_cons] at hbudget
        exact ⟨hrest.laid, (prefix_append _ _).trans hrest.grows,
          fun _ => hplace.trans hrest.grows, by omega⟩

/-- Writing the deferred ways leaves none, if there are rounds enough. -/
theorem finish_spec (hcfg : cfg.Sound) {count : Nat} (hlaid : Laid cfg layout none)
    (hlength : cfg.slots.size < length)
    (hcount : layout.deferred.length + cfg.slots.size ≤ layout.emitted.length + count)
    (hfinish : finish cfg length count layout = .ok after) :
    Laid cfg after none ∧ after.deferred = [] ∧ layout.items <+: after.items := by
  induction count generalizing layout with
  | zero =>
    cases hfinish
    have hle := hlaid.length_emitted_le
    exact ⟨hlaid, eq_nil_of_length_eq_zero (by omega), prefix_rfl⟩
  | succ count ih =>
    rw [finish] at hfinish
    split at hfinish
    · next hnil =>
      cases hfinish
      exact ⟨hlaid, hnil, prefix_rfl⟩
    next id rest hcons =>
    rw [hcons, length_cons] at hcount
    split at hfinish
    · next hemitted =>
      have hmem : id ∈ layout.emitted := by simpa using hemitted
      have hrest := ih (hlaid.take hcons (.inl hmem)) (by simp only; omega) hfinish
      exact hrest
    · simp only at hfinish
      split at hfinish
      · cases hfinish
      next written hchain =>
      have hid : cfg.contains id := hlaid.live id (by simp [hcons])
      have hchained := chain_spec hcfg (hlaid.take hcons (.inr rfl)) hid
        (by simp only; omega) hchain
      have hbudget := hchained.budget
      simp only at hbudget
      obtain ⟨hafter, hnone, hprefix⟩ := ih hchained.laid (by omega) hfinish
      exact ⟨hafter, hnone, hchained.grows.trans hprefix⟩

/-- Nothing is laid out. -/
theorem laid_empty : Laid cfg {} (some cfg.start) :=
  ⟨by simp, rfl, .nil, by simp, by simp, by simp⟩

/-- A layout begins with the start, and nothing is open or deferred: every target of a jump has a
place. -/
theorem ofGraph_spec (hcfg : cfg.Sound) (h : ofGraph cfg = .ok layout) :
    Laid cfg layout none ∧ layout.deferred = [] ∧ [.place cfg.start] <+: layout.items := by
  rw [ofGraph] at h
  split at h
  · cases h
  next first hchain =>
  have hchained := chain_spec hcfg laid_empty hcfg.start (by simp) hchain
  have hbudget := hchained.budget
  simp only [length_nil] at hbudget
  obtain ⟨hlaid, hnone, hprefix⟩ := finish_spec hcfg hchained.laid (by omega) (by omega) h
  exact ⟨hlaid, hnone, (hchained.first (by simp)).trans hprefix⟩

end Flowgraph.Layout

namespace Flowgraph

/-- The body consists of the layout's statements, with labels for the targets. -/
theorem FlowGraph.flatten_eq_done {cfg : FlowGraph} {supply rest : LabelSupply} {body : Stmt} :
    cfg.flatten supply = .done (body, rest) ↔ ∃ layout labels, Layout.ofGraph cfg = .ok layout ∧
      Layout.mint (layout.items.filterMap Layout.Item.target?) ∅ supply = .ok (labels, rest) ∧
      body = .seq (layout.items.flatMap (Layout.stmts cfg labels)) (cfg.spanOf cfg.start) := by
  constructor
  · intro h
    rw [flatten] at h
    split at h
    · cases h
    next layout hlayout =>
    rw [Layout.body] at h
    split at h
    · cases h
    next labels remaining hmint =>
    cases h
    exact ⟨layout, labels, hlayout, hmint, rfl⟩
  · intro ⟨layout, labels, hlayout, hmint, hbody⟩
    subst hbody
    simp only [flatten, hlayout, Layout.body, hmint, Outcome.ofBreaches]

end Flowgraph

import Mathlib.Data.Set.Function
import Flowgraph.Proofs.Flow.Layout

/-!
# Graphs that differ in the numbers of their nodes

`FlowGraph.Renumbers`: the nodes are the same, and so are the edges out of a node, in their order,
up to their labels. What `Layout.chain` and `Layout.finish` write is the same with the numbers
replaced (`chain_map`, `finish_map`), so both graphs are laid out as the same body
(`FlowGraph.Renumbers.flatten_eq`).
-/

namespace Flowgraph

open List

variable {cfg cfg' : FlowGraph} {shown : NodeId → Label → Label} {number : NodeId → NodeId}

namespace FlowGraph

/-- One graph is another under other numbers, with the labels that are shown. -/
structure Renumbers (cfg cfg' : FlowGraph) (shown : NodeId → Label → Label)
    (number : NodeId → NodeId) : Prop where
  bijOn : Set.BijOn number {id | cfg.contains id} {id | cfg'.contains id}
  start : number cfg.start = cfg'.start
  node : ∀ {id}, cfg.contains id → cfg'.node? (number id) = cfg.node? id
  outgoing : ∀ {id}, cfg.contains id →
    cfg'.outgoing (number id) = (cfg.outgoing id).map fun link => (number link.1, shown id link.2)

namespace Renumbers

variable {id other : NodeId}

variable (h : cfg.Renumbers cfg' shown number) (hid : cfg.contains id)
include h hid

/-- The number of a live node is live. -/
theorem contains : cfg'.contains (number id) :=
  h.bijOn.mapsTo hid

/-- Numbers tell nodes apart. -/
theorem eq_iff (hother : cfg.contains other) : number id = number other ↔ id = other :=
  h.bijOn.injOn.eq_iff hid hother

/-- Successors are renumbered. -/
theorem successors : cfg'.successors (number id) = (cfg.successors id).map number := by
  rw [Graph.successors, h.outgoing hid, Graph.successors, map_map, map_map]
  rfl

/-- Spans are kept. -/
theorem spanOf : cfg'.spanOf (number id) = cfg.spanOf id := by
  rw [FlowGraph.spanOf, h.node hid, FlowGraph.spanOf]

/-- A node is among live ones if its number is among theirs. -/
theorem mem_map_iff {ids : List NodeId} (hids : ∀ other ∈ ids, cfg.contains other) :
    number id ∈ ids.map number ↔ id ∈ ids := by
  rw [mem_map]
  constructor
  · intro ⟨other, hother, heq⟩
    exact (h.eq_iff (hids other hother) hid).mp heq ▸ hother
  · intro hmem
    exact ⟨id, hmem, rfl⟩

end Renumbers

end FlowGraph

namespace Layout

/-! ### Texts with other numbers -/

/-- An item with other numbers. -/
def Item.map (number : NodeId → NodeId) : Item → Item
  | .place id => .place (number id)
  | .stmt instr span => .stmt instr span
  | .jump target span => .jump (number target) span
  | .branch cond target span => .branch cond (number target) span

/-- A step with other numbers. -/
def Step.map (number : NodeId → NodeId) : Step → Step
  | .stop => .stop
  | .next id => .next (number id)
  | .fork onTrue onFalse => .fork (number onTrue) (number onFalse)

/-- A layout with other numbers. -/
def map (number : NodeId → NodeId) (layout : Layout) : Layout where
  items := layout.items.map (Item.map number)
  emitted := layout.emitted.map number
  deferred := layout.deferred.map number

/-- Renumbering what is deferred. -/
@[simp] theorem Step.deferred_map (number : NodeId → NodeId) (step : Step) :
    (step.map number).deferred = step.deferred.map number := by
  cases step <;> rfl

/-- Renumbering what is opened. -/
@[simp] theorem Step.opened_map (number : NodeId → NodeId) (step : Step) :
    (step.map number).opened = step.opened.map number := by
  cases step <;> rfl

/-- Renumbering the target of an item. -/
@[simp] theorem Item.target?_map (number : NodeId → NodeId) (item : Item) :
    (item.map number).target? = item.target?.map number := by
  cases item <;> rfl

/-- Items that are just instructions have no numbers. -/
theorem Plain.map_eq {items : List Item} {instrs : List Instr} (h : Plain items instrs)
    (number : NodeId → NodeId) : items.map (Item.map number) = items := by
  obtain ⟨stmts, rfl, -⟩ := h
  rw [map_map]
  rfl

mutual

/-- The text of a node that acts does not depend on its number. -/
theorem straightLine_eq {id : NodeId} (other : NodeId) : ∀ {node : Node} {items : List Item},
    straightLine id node = .ok items → straightLine other node = .ok items
  | .assign _ _ _, _, h | .store _ _ _, _, h | .call _ _ _ _, _, h => by
      simpa [straightLine] using h
  | .block children _, items, h => by
      rw [straightLine] at h ⊢
      exact straightLines_eq other h
  | .start _, _, h | .ret _, _, h | .branch _ _, _, h | .spin _, _, h | .phi _ _, _, h
  | .stub _, _, h => by simp [straightLine] at h

/-- Straight lines do not name their node. -/
theorem straightLines_eq {id : NodeId} (other : NodeId) : ∀ {nodes : List Node} {items : List Item},
    straightLines id nodes = .ok items → straightLines other nodes = .ok items
  | [], _, h => by simpa [straightLines] using h
  | node :: rest, items, h => by
      rw [straightLines] at h
      split at h
      · cases h
      next first hfirst =>
      split at h
      · cases h
      next others hothers =>
      simpa [straightLines, straightLine_eq other hfirst, straightLines_eq other hothers] using h

end

section Renumbers

variable {layout : Layout} {labels labels' : NodeMap String} {item : Item}

/-- What is written for a node. -/
theorem emit_map (h : cfg.Renumbers cfg' shown number) {id : NodeId} (hid : cfg.contains id)
    {node : Node} {items : List Item} {step : Step} (hemit : emit cfg id node = .ok (items, step)) :
    emit cfg' (number id) node = .ok (items.map (Item.map number), step.map number) := by
  have hsucc := h.successors hid
  cases node with
  | start span =>
    simp only [emit] at hemit ⊢
    split at hemit
    · next next rest hnext =>
      cases hemit
      simp [hsucc, hnext, Step.map]
    · cases hemit
  | ret span | spin span =>
    cases hemit
    rfl
  | branch cond span =>
    simp only [emit] at hemit ⊢
    split at hemit
    · next hboth =>
      cases hemit
      simp [hsucc, hboth, Step.map, Item.map]
    · cases hemit
  | assign | store | call | block =>
    simp only [emit] at hemit ⊢
    split at hemit
    · cases hemit
    next written hwritten =>
    split at hemit
    · next next rest hnext =>
      cases hemit
      simp [hsucc, hnext, straightLine_eq (number id) hwritten, Step.map,
        (plain_of_straightLine hwritten).map_eq]
    · cases hemit
  | phi | stub => cases hemit

/-! ### Layouts with other numbers -/

/-- No more nodes are written than the other graph has numbers. -/
theorem Laid.length_emitted_le_of_renumbers {opened : Option NodeId}
    (hlaid : Laid cfg layout opened) (h : cfg.Renumbers cfg' shown number) :
    layout.emitted.length ≤ cfg'.slots.size := by
  have hlive : ∀ id ∈ layout.emitted, cfg.contains id :=
    fun id hid => hlaid.live id (mem_append_left _ hid)
  have hnodup : (layout.emitted.map number).Nodup :=
    (nodup_map_iff_inj_on hlaid.nodup).mpr fun id hid other hother heq =>
      (h.eq_iff (hlive id hid) (hlive other hother)).mp heq
  rw [← length_map number]
  refine Graph.length_le_nextId hnodup fun id hid => ?_
  obtain ⟨other, hother, rfl⟩ := mem_map.mp hid
  exact h.contains (hlive other hother)

/-- A node is written already if it is under its other number. -/
theorem Laid.contains_emitted_map {opened : Option NodeId} {id : NodeId}
    (hlaid : Laid cfg layout opened) (h : cfg.Renumbers cfg' shown number) (hid : cfg.contains id) :
    (layout.map number).emitted.contains (number id) = layout.emitted.contains id := by
  rw [Bool.eq_iff_iff, contains_iff_mem, contains_iff_mem]
  exact h.mem_map_iff hid fun other hother => hlaid.live other (mem_append_left _ hother)

section

variable (hcfg : cfg.Sound) (h : cfg.Renumbers cfg' shown number) {length length' : Nat}
  {after : Layout}
include hcfg h

/-- A chain with other numbers. Both bounds have to allow for all nodes left. -/
theorem chain_map {id : NodeId} (hlaid : Laid cfg layout (some id)) (hid : cfg.contains id)
    (hlength : cfg.slots.size < layout.emitted.length + length)
    (hlength' : cfg'.slots.size < layout.emitted.length + length')
    (hchain : chain cfg length layout id = .ok after) :
    chain cfg' length' (layout.map number) (number id) = .ok (after.map number) := by
  -- the bounds differ, so that neither may run out: no more nodes are written than either graph has
  induction length generalizing length' layout id with
  | zero =>
    have hle := hlaid.length_emitted_le
    omega
  | succ length ih =>
    obtain ⟨length', rfl⟩ : ∃ left, length' = left + 1 := by
      have hle := hlaid.length_emitted_le_of_renumbers h
      exact Nat.exists_eq_add_one.mpr (by omega)
    obtain ⟨node, hnode⟩ := FlowGraph.exists_node hid
    have hnode' : cfg'.node? (number id) = some node := (h.node hid).trans hnode
    have hsame := hlaid.contains_emitted_map h hid
    by_cases hmem : id ∈ layout.emitted
    · have hold : layout.emitted.contains id := by simpa using hmem
      simp only [chain, hnode, hold, if_true] at hchain
      cases hchain
      simp only [chain, hnode', hsame, hold, if_true]
      simp [map, Item.map]
    cases hemit : emit cfg id node with
    | error error => simp [chain, hnode, hmem, hemit] at hchain
    | ok written =>
      obtain ⟨items, step⟩ := written
      rw [chain_of_emit hnode hmem hemit] at hchain
      have hmem' : number id ∉ (layout.map number).emitted := by
        rwa [← contains_iff_mem, hsame, contains_iff_mem]
      rw [chain_of_emit hnode' hmem' (emit_map h hid hemit)]
      have hwritten := hlaid.write hcfg hmem hnode hemit
      have hmap : Layout.map number ⟨layout.items ++ .place id :: items, id :: layout.emitted,
          layout.deferred ++ step.deferred⟩ =
          ⟨(layout.map number).items ++ .place (number id) :: items.map (Item.map number),
            number id :: (layout.map number).emitted,
            (layout.map number).deferred ++ (step.map number).deferred⟩ := by
        simp [map, Item.map]
      rw [← hmap, Step.opened_map]
      cases hopen : step.opened with
      | none =>
        simp only [hopen] at hchain
        cases hchain
        rfl
      | some next =>
        simp only [hopen] at hchain hwritten
        have hlive := hcfg.graph.contains_successor
          ((emitted_of_emit hemit).mem_successors (.inr hopen))
        exact ih hwritten hlive (by simp only [length_cons]; omega)
          (by simp only [length_cons]; omega) hchain

/-- The deferred ways with other numbers. -/
theorem finish_map {count count' : Nat} (hlaid : Laid cfg layout none)
    (hlength : cfg.slots.size < length) (hlength' : cfg'.slots.size < length')
    (hcount : layout.deferred.length + cfg.slots.size ≤ layout.emitted.length + count)
    (hcount' : layout.deferred.length + cfg'.slots.size ≤ layout.emitted.length + count')
    (hfinish : finish cfg length count layout = .ok after) :
    finish cfg' length' count' (layout.map number) = .ok (after.map number) := by
  induction count generalizing count' layout with
  | zero =>
    have hle := hlaid.length_emitted_le
    have hnil : layout.deferred = [] := eq_nil_of_length_eq_zero (by omega)
    cases hfinish
    cases count' with
    | zero => rfl
    | succ count' => simp [finish, map, hnil]
  | succ count ih =>
    cases hdeferred : layout.deferred with
    | nil =>
      simp only [finish, hdeferred] at hfinish
      cases hfinish
      cases count' with
      | zero => rfl
      | succ count' => simp [finish, map, hdeferred]
    | cons id rest =>
      rw [hdeferred, length_cons] at hcount hcount'
      obtain ⟨count', rfl⟩ : ∃ left, count' = left + 1 := by
        have hle := hlaid.length_emitted_le_of_renumbers h
        exact Nat.exists_eq_add_one.mpr (by omega)
      have hid : cfg.contains id := hlaid.live id (by simp [hdeferred])
      have hdeferred' : (layout.map number).deferred = number id :: rest.map number := by
        simp [map, hdeferred]
      simp only [finish, hdeferred] at hfinish
      simp only [finish, hdeferred', hlaid.contains_emitted_map h hid]
      split at hfinish
      · next hold =>
        rw [if_pos hold]
        exact ih (hlaid.take hdeferred (.inl (by simpa using hold))) (by simp only; omega)
          (by simp only; omega) hfinish
      · next hnew =>
        rw [if_neg hnew]
        split at hfinish
        · cases hfinish
        next written hchain =>
        have htaken : Laid cfg { layout with deferred := rest } (some id) :=
          hlaid.take hdeferred (.inr rfl)
        have hchained := chain_spec hcfg htaken hid (by simp only; omega) hchain
        have hchain' : chain cfg' length' { layout.map number with deferred := rest.map number }
            (number id) = .ok (written.map number) :=
          chain_map hcfg h htaken hid (by simp only; omega) (by simp only; omega) hchain
        have hbudget := hchained.budget
        simp only at hbudget
        simp only [hchain']
        exact ih hchained.laid (by omega) (by omega) hfinish

/-- A whole layout with other numbers. -/
theorem ofGraph_map (hlayout : ofGraph cfg = .ok layout) :
    ofGraph cfg' = .ok (layout.map number) := by
  rw [ofGraph] at hlayout
  split at hlayout
  · cases hlayout
  next first hchain =>
  have hchained := chain_spec hcfg laid_empty hcfg.start (by simp) hchain
  have hbudget := hchained.budget
  simp only [length_nil] at hbudget
  have hfirst : chain cfg' (cfg'.slots.size + 1) {} cfg'.start = .ok (first.map number) := by
    rw [← h.start]
    exact chain_map hcfg h laid_empty hcfg.start (by simp) (by simp) hchain
  rw [ofGraph]
  simp only [hfirst]
  exact finish_map hcfg h hchained.laid (by omega) (by omega) (by omega) (by omega) hlayout

end

/-- Labels are minted in the order of the nodes. -/
theorem mint_map (h : cfg.Renumbers cfg' shown number) {ids : List NodeId}
    (hids : ∀ id ∈ ids, cfg.contains id) {minted : NodeMap String}
    {supply rest : LabelSupply}
    (hsame : ∀ {id}, cfg.contains id → labels'[number id]? = labels[id]?)
    (hmint : mint ids labels supply = .ok (minted, rest)) :
    ∃ minted', mint (ids.map number) labels' supply = .ok (minted', rest) ∧
      ∀ {id}, cfg.contains id → minted'[number id]? = minted[id]? := by
  induction ids generalizing labels labels' supply with
  | nil =>
    cases hmint
    exact ⟨labels', rfl, hsame⟩
  | cons id ids ih =>
    obtain ⟨hid, hids⟩ := forall_mem_cons.mp hids
    have hcontains : labels'.contains (number id) = labels.contains id := by
      rw [← Std.ExtTreeMap.isSome_getElem?_eq_contains, hsame hid,
        Std.ExtTreeMap.isSome_getElem?_eq_contains]
    rw [mint] at hmint
    rw [map_cons, mint, hcontains]
    split at hmint
    · next hold =>
      rw [if_pos hold]
      exact ih hids hsame hmint
    · next hnew =>
      rw [if_neg hnew]
      split at hmint
      · cases hmint
      next label remaining hfresh =>
      refine ih hids (fun {other} hother => ?_) hmint
      rw [Std.ExtTreeMap.getElem?_insert, Std.ExtTreeMap.getElem?_insert, hsame hother]
      simp only [Std.compare_eq_iff_eq, h.eq_iff hid hother]

/-- The nodes that an item names are live. -/
def Item.Live (cfg : FlowGraph) (item : Item) : Prop :=
  ∀ id, item.place? = some id ∨ item.target? = some id → cfg.contains id

/-- The statements of an item do not show its numbers. -/
theorem stmts_map (h : cfg.Renumbers cfg' shown number)
    (hsame : ∀ {id}, cfg.contains id → labels'[number id]? = labels[id]?)
    (hitem : item.Live cfg) : stmts cfg' labels' (item.map number) = stmts cfg labels item := by
  cases item with
  | place id =>
    have hid := hitem id (.inl rfl)
    simp only [Item.map, stmts, hsame hid, h.spanOf hid]
  | stmt instr span => rfl
  | jump target span | branch cond target span =>
    have htarget := hitem target (.inr rfl)
    simp only [Item.map, stmts, Std.ExtTreeMap.getD_eq_getD_getElem?, hsame htarget]

/-- All nodes that a complete layout names are live. -/
theorem Laid.item_live (hlaid : Laid cfg layout none) (hitem : item ∈ layout.items) :
    item.Live cfg := by
  intro id hid
  refine hlaid.live id ?_
  rcases hid with hplace | htarget
  · have hmem : id ∈ layout.items.filterMap Item.place? :=
      mem_filterMap.mpr ⟨item, hitem, hplace⟩
    rw [hlaid.places, mem_reverse] at hmem
    exact mem_append_left _ hmem
  · rcases hlaid.targets item hitem htarget with hin | hin | hin
    · exact mem_append_left _ hin
    · exact mem_append_right _ hin
    · cases hin

end Renumbers

end Layout

/-- Graphs that differ in their numbers are laid out as the same body. -/
theorem FlowGraph.Renumbers.flatten_eq {cfg cfg' : FlowGraph} {shown : NodeId → Label → Label}
    {number : NodeId → NodeId} (h : cfg.Renumbers cfg' shown number) (hcfg : cfg.Sound)
    {supply rest : LabelSupply} {body : Stmt}
    (hflatten : cfg.flatten supply = .done (body, rest)) :
    cfg'.flatten supply = .done (body, rest) := by
  obtain ⟨layout, labels, hlayout, hmint, rfl⟩ := FlowGraph.flatten_eq_done.mp hflatten
  have hlive : ∀ {item}, item ∈ layout.items → Layout.Item.Live cfg item :=
    (Layout.ofGraph_spec hcfg hlayout).1.item_live
  have htargets : ∀ id ∈ layout.items.filterMap Layout.Item.target?, cfg.contains id := by
    intro id hid
    obtain ⟨item, hitem, htarget⟩ := mem_filterMap.mp hid
    exact hlive hitem id (.inr htarget)
  have hnone : ∀ {id}, cfg.contains id →
      (∅ : NodeMap String)[number id]? = (∅ : NodeMap String)[id]? := fun _ => by simp
  obtain ⟨labels', hmint', hsame⟩ := Layout.mint_map h htargets hnone hmint
  refine FlowGraph.flatten_eq_done.mpr
    ⟨layout.map number, labels', Layout.ofGraph_map hcfg h hlayout, ?_, ?_⟩
  · rw [← hmint', Layout.map, filterMap_map, map_filterMap]
    simp
  · rw [← h.start, h.spanOf hcfg.start, Layout.map, flatMap_map]
    exact congrArg (Stmt.seq · _) (flatMap_congr fun item hitem =>
      (Layout.stmts_map h hsame (hlive hitem)).symm)

end Flowgraph

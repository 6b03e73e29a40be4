import Flowgraph.Proofs.Flow.Assembled
import Flowgraph.Proofs.Flow.Constructed
import Flowgraph.Proofs.Flow.Flatten
import Flowgraph.Proofs.Flow.Renumber

/-!
# A graph comes back from its text

A well-formed graph without phi nodes and blocks is laid out as a body, and the graph of this body
is the first one under other numbers (`FlowGraph.WellFormed.renumbers_ofBody`). Labels of edges are
lost, except at a condition (`FlowGraph.not_renumbers_marked`).

The place of a node is an item of the text, and the builder has a place for every position
(`Stands`). `Rereading.copied` says once what the builder holds there: the same node with edges to
places that lead to where the successors stand, or for a spin a stub for its own label. The node to
which this place leads is the new number.
-/

namespace Flowgraph

open List

variable {cfg : FlowGraph}

namespace FlowGraph

/-- The label of an edge from a node as far as a text shows it. -/
def shownLabel (cfg : FlowGraph) (id : NodeId) (label : Label) : Label :=
  if cfg.kind? id = some .branch then label else none

/-- Graphs of single nodes are writable. -/
theorem WellFormed.writable_of_single (h : cfg.WellFormed)
    (hsingle : ∀ id node, cfg.node? id = some node → node.kind ≠ .phi ∧ node.kind ≠ .block) :
    cfg.Writable := by
  refine h.writable fun id node hnode => ?_
  have hfits := h.outgoingFits hnode
  have hkind := hsingle id node hnode
  cases node with
  | phi => exact absurd rfl hkind.1
  | block => exact absurd rfl hkind.2
  | stub => exact hfits.elim
  | start | ret | assign | store | call | branch | spin => rfl

end FlowGraph

namespace Layout

variable {items front back : List Item} {labels : NodeMap String} {id : NodeId}
  {front' back' : List Item}

/-- Of two items in a list, one is in front, or they are the same. -/
theorem split_cases {item item' : Item} (h : front ++ item :: back = front' ++ item' :: back') :
    front = front' ∧ item = item' ∨
      (∃ middle, front' = front ++ item :: middle ∧ back = middle ++ item' :: back') ∨
        ∃ middle, front = front' ++ item' :: middle ∧ back' = middle ++ item :: back := by
  rcases append_eq_append_iff.mp h with ⟨middle, hfront, hback⟩ | ⟨middle, hfront, hback⟩
  · cases middle with
    | nil => exact .inl ⟨by simpa using hfront.symm, (List.cons.inj hback).1⟩
    | cons first middle =>
      obtain ⟨rfl, hrest⟩ := List.cons.inj hback
      exact .inr (.inl ⟨middle, hfront, hrest⟩)
  · cases middle with
    | nil => exact .inl ⟨by simpa using hfront, (List.cons.inj hback).1.symm⟩
    | cons first middle =>
      obtain ⟨rfl, hrest⟩ := List.cons.inj hback
      exact .inr (.inr ⟨middle, hfront, hrest⟩)

/-! ### What the text of a graph holds -/

section

variable (h : Text cfg items labels)
include h

/-- What continues is in the text. -/
theorem Text.mem_of_continues {next : NodeId} (hsplit : items = front ++ back)
    (hcont : Continues next back) : .place next ∈ items := by
  rcases hcont with ⟨rest, rfl⟩ | ⟨span, rest, rfl⟩
  · simp [hsplit]
  · have hjump : Item.jump next span ∈ items := by simp [hsplit]
    exact (h.targets hjump rfl).1

/-- Every node that control reaches has a place. -/
theorem Text.mem_of_reaches (hcfg : cfg.Writable) (hid : cfg.Reaches cfg.start id) :
    .place id ∈ items := by
  induction hid with
  | refl =>
    obtain ⟨back, hback⟩ := h.start
    simp [hback]
  | @tail id next hid hnext ih =>
    obtain ⟨front, back, hsplit⟩ := append_of_mem ih
    obtain ⟨node, written, step, tail, hnode, hemit, rfl, hcont⟩ := h.placed hsplit
    have hbehind : items = (front ++ .place id :: written) ++ tail := by simp [hsplit]
    have hfits := (hcfg hid hnode).2
    have hmem : ∀ item ∈ written, item ∈ items := fun item hitem => by simp [hsplit, hitem]
    cases emitted_of_emit hemit with
    | @onward _ _ first rest honward _ hsucc =>
      obtain ⟨other, label, hout⟩ : ∃ other label, cfg.outgoing id = [(other, label)] := by
        cases node <;> first | exact hfits | simp [Node.Onward, Node.kind] at honward
      obtain rfl : next = first := by
        rw [Graph.successors_eq hout] at hnext hsucc
        rw [mem_singleton.mp hnext, (List.cons.inj hsucc).1]
      exact h.mem_of_continues hbehind (hcont _ rfl)
    | ret =>
      rw [Graph.successors, show cfg.outgoing id = [] from hfits] at hnext
      exact absurd hnext not_mem_nil
    | spin =>
      obtain ⟨label, hout⟩ := hfits
      rw [Graph.successors_eq hout] at hnext
      exact mem_singleton.mp hnext ▸ ih
    | @branch cond span onTrue onFalse hsucc =>
      rw [hsucc, mem_pair] at hnext
      rcases hnext with rfl | rfl
      · exact (h.targets (hmem (.branch cond next span) mem_cons_self) rfl).1
      · exact h.mem_of_continues hbehind (hcont _ rfl)

/-- The labels that a text defines are those of its places. -/
theorem Text.filterMap_defined : (text labels items).filterMap Instr.defined? =
      (items.filterMap Item.place?).filterMap (labels[·]?) := by
  have hitem : ∀ item ∈ items, (item.instrs labels).filterMap Instr.defined? =
      (item.place?.bind (labels[·]?)).toList := by
    intro item hitem
    cases item with
    | place id =>
      simp only [Item.instrs, Item.place?, Option.bind_some]
      cases labels[id]? <;> rfl
    | stmt instr span =>
      have hnone : instr.defined? = none := by
        cases instr with
        | label name =>
          rcases h.plain hitem with ⟨node, hacts⟩ | hret
          · cases Node.acts_of_mem_instrs hacts
          · cases hret
        | move | call | jump | branch | ret => rfl
      simp [Item.instrs, Item.place?, hnone]
    | jump | branch => rfl
  rw [text, filterMap_flatMap, flatMap_congr hitem, filterMap_filterMap,
    filterMap_eq_flatMap_toList]

/-- No label is defined twice. -/
theorem Text.nodup_defined : ((text labels items).filterMap Instr.defined?).Nodup := by
  rw [h.filterMap_defined]
  exact h.nodup.filterMap fun id other label hid hother => h.injective hid hother

/-- A label stands at one position only. -/
theorem Text.label_unique {label : String} {k k' : Nat}
    (hk : (text labels items)[k]? = some (.label label))
    (hk' : (text labels items)[k']? = some (.label label)) : k = k' :=
  Option.some.inj ((Code.labelPositions_eq h.nodup_defined hk).symm.trans
    (Code.labelPositions_eq h.nodup_defined hk'))

end

/-- The code of the text. -/
theorem code_seq_stmts (cfg : FlowGraph) (labels : NodeMap String) (items : List Item)
    (span : Span) : (Stmt.seq (items.flatMap (stmts cfg labels)) span).code = text labels items :=
  codeList_stmts labels items

/-- Every instruction is a statement. -/
theorem length_stmts (cfg : FlowGraph) (labels : NodeMap String) (items : List Item) :
    (items.flatMap (stmts cfg labels)).length = (text labels items).length := by
  induction items with
  | nil => rfl
  | cons item rest ih =>
    rw [flatMap_cons, length_append, ih, text_cons, length_append]
    congr 1
    cases item with
    | place id =>
      simp only [stmts, Item.instrs]
      cases labels[id]? <;> rfl
    | stmt | jump | branch => rfl

/-! ### Reading the text of a graph -/

/-- A node stands at the place of the position where its text begins. -/
def Stands (items : List Item) (labels : NodeMap String) (places : List NodeId)
    (id place : NodeId) : Prop :=
  ∃ front back, items = front ++ .place id :: back ∧
    places[(text labels front).length]? = some place

/-- A text and the graph built from it. A node's new number is where the place of its text leads. -/
structure Rereading (cfg : FlowGraph) (items : List Item) (labels : NodeMap String)
    (builder : Builder) (places : List NodeId) (rebuilt : FlowGraph)
    (dest number : NodeId → NodeId) : Prop where
  wellFormed : cfg.WellFormed
  single : ∀ id node, cfg.node? id = some node → node.kind ≠ .phi ∧ node.kind ≠ .block
  reached : ∀ {id}, cfg.contains id → cfg.Reaches cfg.start id
  written : Text cfg items labels
  built : Builder.Built builder
    (.seq (items.flatMap (stmts cfg labels)) (cfg.spanOf cfg.start)) places rebuilt dest
  start : number cfg.start = rebuilt.start
  stands : ∀ {id place}, id ≠ cfg.start → Stands items labels places id place →
    number id = dest place

namespace Rereading

variable {builder : Builder} {places : List NodeId} {rebuilt : FlowGraph}
  {dest number : NodeId → NodeId} {item : Item} {instr : Instr} {span : Span} {place : NodeId}
  {label : String} {other : NodeId}

section

variable (h : Rereading cfg items labels builder places rebuilt dest number)
include h

/-- There is a place for every position of the text. -/
theorem exists_place (hsplit : items = front ++ back) :
    ∃ place, places[(text labels front).length]? = some place := by
  have hlength := h.built.length_eq
  rw [code_seq_stmts, hsplit, text_append, length_append] at hlength
  exact ⟨_, getElem?_eq_getElem (by omega)⟩

/-- What the builder holds for an item that is one statement. -/
theorem read (hsplit : items = front ++ item :: back)
    (hitem : stmts cfg labels item = [.instr instr span])
    (hplace : places[(text labels front).length]? = some place) :
    Builder.Read builder ((text labels items).drop ((text labels front).length + 1)) place
      (places.drop ((text labels front).length + 1)) span instr := by
  have hstmt : (items.flatMap (stmts cfg labels))[(text labels front).length]? =
      some (.instr instr span) := by
    rw [hsplit, flatMap_append, flatMap_cons, hitem, ← length_stmts cfg,
      getElem?_append_right (Nat.le_refl _), Nat.sub_self]
    rfl
  have hread := h.built.read hstmt hplace
  rwa [code_seq_stmts] at hread

end

/-- Where the text has a label. -/
theorem getElem?_label (hsplit : items = front ++ .place id :: back)
    (hlabel : labels[id]? = some label) :
    (text labels items)[(text labels front).length]? = some (.label label) := by
  simp [hsplit, Item.instrs, hlabel]

/-- The place of a node is that of its text. -/
theorem behind_place (h : Rereading cfg items labels builder places rebuilt dest number)
    (hsplit : items = front ++ .place id :: back) :
    places[(text labels (front ++ [.place id])).length]? =
      places[(text labels front).length]? := by
  cases hlabel : labels[id]? with
  | none => simp [Item.instrs, hlabel]
  | some label =>
    obtain ⟨place, hplace⟩ := h.exists_place hsplit
    have hitem : stmts cfg labels (.place id) = [.instr (.label label) (cfg.spanOf id)] := by
      simp [stmts, hlabel]
    have hread : (places.drop ((text labels front).length + 1)).head? = some place :=
      h.read hsplit hitem hplace
    rw [head?_drop] at hread
    simp [Item.instrs, hlabel, hread, hplace]

/-- A place leads to where a node stands. -/
def Arrives (items : List Item) (labels : NodeMap String) (builder : Builder) (places : List NodeId)
    (place id : NodeId) : Prop :=
  ∃ last, Stands items labels places id last ∧
    (place = last ∨ Builder.Passes builder.labels builder.stubs place last)

section

variable (h : Rereading cfg items labels builder places rebuilt dest number) {k : Nat}
include h

/-- The builder knows the label of a node with its place. -/
theorem label_eq (hsplit : items = front ++ .place id :: back) (hlabel : labels[id]? = some label)
    (hplace : places[(text labels front).length]? = some place) :
    builder.labels[label]? = some place := by
  have hget := getElem?_label hsplit hlabel
  obtain ⟨k, hfirst⟩ := Builder.exists_firstLabel (mem_of_getElem? hget)
  obtain rfl := h.written.label_unique (Builder.getElem?_of_firstLabel hfirst) hget
  refine h.built.labelled.mpr ⟨_, ?_, hplace⟩
  rwa [code_seq_stmts]

/-- The way for a target is to where it stands, or to a new stub that leads there, if the target
stands in front. -/
theorem target_cases (hlabel : labels[id]? = some label)
    (hsplit : items = front ++ .place id :: back) {last : NodeId}
    (hlast : places[(text labels front).length]? = some last)
    (htarget : Builder.Target builder ((text labels items).drop (k + 1)) (places.drop (k + 1)) span
      label place) : place = last ∧ k < (text labels front).length ∨
      place ∉ places.drop (k + 1) ∧ builder.cfg.node? place = some (.stub span) ∧
        Builder.Passes builder.labels builder.stubs place last := by
  rcases htarget with hdefined | ⟨hfresh, hentry, hnode, -⟩
  · obtain ⟨k', hlt, hget, hplace⟩ := hdefined.of_drop
    obtain rfl := h.written.label_unique hget (getElem?_label hsplit hlabel)
    exact .inl ⟨Option.some.inj (hplace.symm.trans hlast), hlt⟩
  · exact .inr ⟨hfresh, hnode, label, h.built.valid.stubs_eq_some.mpr hentry,
      h.label_eq hsplit hlabel hlast⟩

/-- A jump or branch leads to where its target stands. -/
theorem arrives_of_target (hitem : item ∈ items) (htarget : item.target? = some id)
    (hplace : Builder.Target builder ((text labels items).drop (k + 1)) (places.drop (k + 1)) span
      (labels.getD id "") place) : Arrives items labels builder places place id := by
  obtain ⟨hmem, label, hlabel⟩ := h.written.targets hitem htarget
  obtain ⟨front, back, hsplit⟩ := append_of_mem hmem
  obtain ⟨last, hlast⟩ := h.exists_place hsplit
  rw [Std.ExtTreeMap.getD_eq_getD_getElem?, hlabel, Option.getD_some] at hplace
  refine ⟨last, ⟨front, back, hsplit, hlast⟩, ?_⟩
  exact (h.target_cases hlabel hsplit hlast hplace).imp And.left fun hstub => hstub.2.2

/-- Text that goes on with a node leads to where the node stands. -/
theorem arrives_of_continues (hsplit : items = front ++ back) (hcont : Continues id back)
    (hplace : places[(text labels front).length]? = some place) :
    Arrives items labels builder places place id := by
  rcases hcont with ⟨rest, rfl⟩ | ⟨span, rest, rfl⟩
  · exact ⟨place, ⟨front, rest, hsplit, hplace⟩, .inl rfl⟩
  · have hjump : Item.jump id span ∈ items := by simp [hsplit]
    exact h.arrives_of_target hjump rfl (h.read hsplit rfl hplace)

/-- The same behind a statement. -/
theorem arrives_behind (hsplit : items = front ++ item :: back)
    (hitem : (item.instrs labels).length = 1) (hcont : Continues id back)
    (hplace : (places.drop ((text labels front).length + 1)).head? = some place) :
    Arrives items labels builder places place id := by
  have hsplit' : items = (front ++ [item]) ++ back := by simp [hsplit]
  refine h.arrives_of_continues hsplit' hcont ?_
  rw [head?_drop] at hplace
  simpa [hitem] using hplace

end

/-! ### The copies of nodes -/

/-- What the builder holds at the place where a node stands. -/
inductive Copy (cfg : FlowGraph) (items : List Item) (labels : NodeMap String) (builder : Builder)
    (places : List NodeId) (id place : NodeId) : Prop where
  | actor {node : Node} {next behind : NodeId} {label : Label} : cfg.node? id = some node →
      node.kind ∈ [.assign, .store, .call] → cfg.outgoing id = [(next, label)] →
      builder.cfg.node? place = some node → builder.cfg.outgoing place = [(behind, none)] →
      Arrives items labels builder places behind next →
      Copy cfg items labels builder places id place
  | ret {span : Span} : cfg.node? id = some (.ret span) →
      builder.cfg.node? place = some (.ret span) → Copy cfg items labels builder places id place
  | branch {cond : Expr} {span : Span} {onTrue onFalse target behind : NodeId} :
      cfg.node? id = some (.branch cond span) →
      cfg.outgoing id = [(onTrue, some true), (onFalse, some false)] →
      builder.cfg.node? place = some (.branch cond span) →
      builder.cfg.outgoing place = [(target, some true), (behind, some false)] →
      Arrives items labels builder places target onTrue →
      Arrives items labels builder places behind onFalse →
      Copy cfg items labels builder places id place
  | spin {span : Span} {label : Label} : cfg.node? id = some (.spin span) →
      cfg.outgoing id = [(id, label)] → builder.cfg.node? place = some (.stub span) →
      Builder.Passes builder.labels builder.stubs place place →
      Copy cfg items labels builder places id place

/-- A node is copied at a place by an item of one statement, and no later position has the place. -/
structure Copied (cfg : FlowGraph) (items : List Item) (labels : NodeMap String) (builder : Builder)
    (places : List NodeId) (id place : NodeId) (front : List Item) (item : Item) : Prop where
  copy : Copy cfg items labels builder places id place
  length : (item.instrs labels).length = 1
  inner : item.place? = none
  fresh : place ∉ places.drop ((text labels front).length + 1)

section

variable (h : Rereading cfg items labels builder places rebuilt dest number) {next : NodeId}
include h

/-- An instruction that acts. -/
theorem copied_actor {node : Node} (hnode : cfg.node? id = some node)
    (hactor : instr.actor? span = some node) {label : Label}
    (hout : cfg.outgoing id = [(next, label)]) (hsplit : items = front ++ .stmt instr span :: back)
    (hcont : Continues next back) (hplace : places[(text labels front).length]? = some place) :
    Copied cfg items labels builder places id place front (.stmt instr span) := by
  obtain ⟨hfresh, hcopy, behind, hbehind, hedge⟩ := (h.read hsplit rfl hplace).actor hactor
  exact ⟨.actor hnode (Instr.actor?_cases hactor).2 hout hcopy hedge
    (h.arrives_behind hsplit rfl hcont hbehind), rfl, rfl, hfresh⟩

/-- Returns are copied. -/
theorem copied_ret (hnode : cfg.node? id = some (.ret span))
    (hsplit : items = front ++ .stmt .ret span :: back)
    (hplace : places[(text labels front).length]? = some place) :
    Copied cfg items labels builder places id place front (.stmt .ret span) := by
  obtain ⟨hfresh, hcopy⟩ := h.read hsplit rfl hplace
  exact ⟨.ret hnode hcopy, rfl, rfl, hfresh⟩

/-- Branches are copied. -/
theorem copied_branch {cond : Expr} {onTrue onFalse : NodeId}
    (hnode : cfg.node? id = some (.branch cond span))
    (hout : cfg.outgoing id = [(onTrue, some true), (onFalse, some false)])
    (hsplit : items = front ++ .branch cond onTrue span :: back) (hcont : Continues onFalse back)
    (hplace : places[(text labels front).length]? = some place) :
    Copied cfg items labels builder places id place front (.branch cond onTrue span) := by
  obtain ⟨hfresh, target, behind, hcopy, hbehind, hedges, htarget⟩ := h.read hsplit rfl hplace
  have hitem : Item.branch cond onTrue span ∈ items := by simp [hsplit]
  exact ⟨.branch hnode hout hcopy hedges (h.arrives_of_target hitem rfl htarget)
    (h.arrives_behind hsplit rfl hcont hbehind), rfl, rfl, hfresh⟩

/-- The jump of a spin leads to a stub, at which its label stands. -/
theorem copied_spin (hnode : cfg.node? id = some (.spin span)) {label : Label}
    (hout : cfg.outgoing id = [(id, label)])
    (hsplit : items = front ++ .place id :: .jump id span :: back)
    (hplace : places[(text labels front).length]? = some place) :
    Copied cfg items labels builder places id place (front ++ [.place id]) (.jump id span) := by
  have hsplit' : items = (front ++ [.place id]) ++ .jump id span :: back := by simp [hsplit]
  have hplace' := (h.behind_place hsplit).trans hplace
  have hitem : Item.jump id span ∈ items := by simp [hsplit]
  obtain ⟨-, name, hname⟩ := h.written.targets hitem rfl
  have hread : Builder.Target builder _ _ span (labels.getD id "") place :=
    h.read hsplit' rfl hplace'
  rw [Std.ExtTreeMap.getD_eq_getD_getElem?, hname, Option.getD_some] at hread
  rcases h.target_cases hname hsplit hplace hread with ⟨-, hlt⟩ | ⟨hfresh, hstub, hpass⟩
  · rw [text_append, length_append] at hlt
    omega
  · exact ⟨.spin hnode hout hstub hpass, rfl, rfl, hfresh⟩

/-- Nothing leads to a start node, so there is only one. -/
theorem eq_start (hnode : cfg.node? id = some (.start span)) : id = cfg.start := by
  have hreach := h.reached (Graph.contains_of_payload? hnode)
  cases hreach with
  | refl => rfl
  | tail _ hlast =>
    obtain ⟨label, hlink⟩ := Graph.mem_successors.mp hlast
    have hin := (h.wellFormed.sound.graph.mirrored ..).mp hlink
    rw [h.wellFormed.incoming_eq_nil hnode] at hin
    exact absurd hin not_mem_nil

/-- No link enters the start. -/
theorem ne_start {label : Label} (hlink : (next, label) ∈ cfg.outgoing id) : next ≠ cfg.start := by
  intro heq
  have hin := (h.wellFormed.sound.graph.mirrored ..).mp hlink
  rw [heq, h.wellFormed.incoming_start] at hin
  exact absurd hin not_mem_nil

/-- Every node but the start is copied at the place where it stands. -/
theorem copied (hne : id ≠ cfg.start) (hsplit : items = front ++ .place id :: back)
    (hplace : places[(text labels front).length]? = some place) : ∃ item tail, back = item :: tail ∧
      Copied cfg items labels builder places id place (front ++ [.place id]) item := by
  obtain ⟨node, written, step, tail, hnode, hemit, rfl, hcont⟩ := h.written.placed hsplit
  have hsplit' : items = (front ++ [.place id]) ++ (written ++ tail) := by simp [hsplit]
  have hplace' := (h.behind_place hsplit).trans hplace
  have hfits := h.wellFormed.outgoingFits hnode
  have hsingle := h.single id node hnode
  cases node with
  | start => exact absurd (h.eq_start hnode) hne
  | phi => exact absurd rfl hsingle.1
  | block => exact absurd rfl hsingle.2
  | stub => exact hfits.elim
  | ret span =>
    cases hemit
    exact ⟨_, tail, rfl, h.copied_ret hnode hsplit' hplace'⟩
  | spin span =>
    cases hemit
    obtain ⟨label, hout⟩ := hfits
    exact ⟨_, tail, rfl, h.copied_spin hnode hout hsplit hplace⟩
  | branch cond span =>
    obtain ⟨onTrue, onFalse, hout⟩ := hfits
    simp only [emit, Graph.successors_eq hout] at hemit
    cases hemit
    exact ⟨_, tail, rfl, h.copied_branch hnode hout hsplit' (hcont _ rfl) hplace'⟩
  | assign | store | call =>
    obtain ⟨next, label, hout⟩ := hfits
    simp only [emit, straightLine, Graph.successors_eq hout] at hemit
    cases hemit
    exact ⟨_, tail, rfl, h.copied_actor hnode rfl hout hsplit' (hcont _ rfl) hplace'⟩

end

/-- A spin stands at a stub for its own label, other nodes at a node. -/
theorem Copy.settled (h : Copy cfg items labels builder places id place) (hvalid : builder.Valid) :
    cfg.kind? id ≠ some .spin ∧ place ∉ builder.stubIds ∨
      cfg.kind? id = some .spin ∧ Builder.Passes builder.labels builder.stubs place place := by
  cases h with
  | @actor node _ _ _ hnode hkind _ hcopy _ _ =>
    refine .inl ⟨fun hspin => ?_, hvalid.not_mem_stubIds hcopy fun span heq => ?_⟩
    · rw [FlowGraph.kind?, hnode, Option.map_some] at hspin
      simp [Option.some.inj hspin] at hkind
    · simp [heq, Node.kind] at hkind
  | ret hnode hcopy =>
    exact .inl ⟨by simp [FlowGraph.kind?, hnode, Node.kind], hvalid.not_mem_stubIds hcopy (by simp)⟩
  | branch hnode _ hcopy _ _ _ =>
    exact .inl ⟨by simp [FlowGraph.kind?, hnode, Node.kind], hvalid.not_mem_stubIds hcopy (by simp)⟩
  | spin hnode _ _ hpass => exact .inr ⟨by simp [FlowGraph.kind?, hnode, Node.kind], hpass⟩

section

variable (h : Rereading cfg items labels builder places rebuilt dest number) (hne : id ≠ cfg.start)
include h hne

/-- Only spins are read as stubs. -/
theorem settled (hstands : Stands items labels places id place) :
    cfg.kind? id ≠ some .spin ∧ place ∉ builder.stubIds ∨
      cfg.kind? id = some .spin ∧ Builder.Passes builder.labels builder.stubs place place := by
  obtain ⟨front, back, hsplit, hplace⟩ := hstands
  obtain ⟨item, tail, -, hcopied⟩ := h.copied hne hsplit hplace
  exact hcopied.copy.settled h.built.valid

/-- What leads to where a node stands leads to its new number. -/
theorem dest_eq (harrives : Arrives items labels builder places place id) :
    dest place = number id := by
  obtain ⟨last, hstands, hor⟩ := harrives
  rw [h.stands hne hstands]
  rcases hor with rfl | hpass
  · rfl
  · exact h.built.resolved.dest_eq_of_passes h.built.valid hpass
      ((h.settled hne hstands).imp And.right And.right)

end

/-! ### The edges of the new graph -/

/-- A node that is there under its new number, with its edges. -/
def Kept (cfg rebuilt : FlowGraph) (number : NodeId → NodeId) (id : NodeId) : Prop :=
  rebuilt.node? (number id) = cfg.node? id ∧ rebuilt.outgoing (number id) =
    (cfg.outgoing id).map fun link => (number link.1, cfg.shownLabel id link.2)

/-- Labels show at branches only. -/
theorem shownLabel_of_ne {node : Node} (hnode : cfg.node? id = some node)
    (hkind : node.kind ≠ .branch) (label : Label) : cfg.shownLabel id label = none := by
  have hne : cfg.kind? id ≠ some .branch := by simpa [FlowGraph.kind?, hnode] using hkind
  rw [FlowGraph.shownLabel, if_neg hne]

section

variable (h : Rereading cfg items labels builder places rebuilt dest number)
  (hnumber : number id = place) (hlive : rebuilt.contains place) {behind : NodeId}
include h hnumber hlive

/-- Actors are kept. -/
theorem kept_actor {node : Node} (hnode : cfg.node? id = some node) (hkind : node.kind ≠ .branch)
    {next : NodeId} {label : Label} (hout : cfg.outgoing id = [(next, label)])
    (hcopy : builder.cfg.node? place = some node)
    (hedge : builder.cfg.outgoing place = [(behind, none)])
    (hnext : Arrives items labels builder places behind next) : Kept cfg rebuilt number id := by
  have hne := h.ne_start (hout ▸ mem_singleton_self _)
  rw [Kept, hnumber, h.built.node_eq hlive hcopy,
    h.built.resolved.outgoing_one hlive (Graph.contains_of_payload? hcopy) hedge, hnode, hout,
    h.dest_eq hne hnext]
  simp [shownLabel_of_ne hnode hkind]

/-- Returns are kept. -/
theorem kept_ret (hnode : cfg.node? id = some (.ret span))
    (hcopy : builder.cfg.node? place = some (.ret span)) : Kept cfg rebuilt number id := by
  have hkept := h.built.node_eq hlive hcopy
  have hkind : rebuilt.kind? place = some .ret := by simp [FlowGraph.kind?, hkept, Node.kind]
  have hnone : rebuilt.outgoing place = [] := (h.built.kind_cases hkind).1
  have hnone' : cfg.outgoing id = [] := h.wellFormed.outgoingFits hnode
  rw [Kept, hnumber, hkept, hnode, hnone, hnone']
  exact ⟨rfl, rfl⟩

/-- Branches are kept. -/
theorem kept_branch {cond : Expr} (hnode : cfg.node? id = some (.branch cond span))
    {onTrue onFalse target : NodeId}
    (hout : cfg.outgoing id = [(onTrue, some true), (onFalse, some false)])
    (hcopy : builder.cfg.node? place = some (.branch cond span))
    (hedges : builder.cfg.outgoing place = [(target, some true), (behind, some false)])
    (htrue : Arrives items labels builder places target onTrue)
    (hfalse : Arrives items labels builder places behind onFalse) : Kept cfg rebuilt number id := by
  have hne : onTrue ≠ cfg.start := h.ne_start
    (show (onTrue, some true) ∈ cfg.outgoing id by simp [hout])
  have hne' : onFalse ≠ cfg.start :=
    h.ne_start (show (onFalse, some false) ∈ cfg.outgoing id by simp [hout])
  rw [Kept, hnumber, h.built.node_eq hlive hcopy,
    h.built.resolved.outgoing_two hlive (Graph.contains_of_payload? hcopy) hedges, hnode, hout,
    h.dest_eq hne htrue, h.dest_eq hne' hfalse]
  simp [FlowGraph.shownLabel, FlowGraph.kind?, hnode, Node.kind]

end

variable (h : Rereading cfg items labels builder places rebuilt dest number)
include h

/-- A stub for its own label becomes a spin with its position. -/
theorem kept_spin (hnumber : number id = dest place) (hlive : rebuilt.contains (dest place))
    (hnode : cfg.node? id = some (.spin span)) {label : Label}
    (hout : cfg.outgoing id = [(id, label)]) (hcopy : builder.cfg.node? place = some (.stub span))
    (hpass : Builder.Passes builder.labels builder.stubs place place) :
    Kept cfg rebuilt number id := by
  have hresolve := h.built.valid.resolve_of_circle hpass hpass
  have hstub := h.built.valid.mem_stubIds_of_passes hpass
  have hspin : rebuilt.node? (dest place) = some (.spin span) := by
    rcases h.built.resolved.ends hstub with hends | ⟨entry, hends, hspin⟩
    · cases hends.symm.trans hresolve
    · obtain rfl := Builder.Destination.circle.inj (Except.ok.inj (hends.symm.trans hresolve))
      have hspan : builder.cfg.spanOf entry = span := by simp [FlowGraph.spanOf, hcopy, Node.span]
      rw [hspin hlive, hspan]
  have hself : rebuilt.outgoing (dest place) = [(dest place, none)] := by
    rcases h.built.node_cases hlive with ⟨-, -, hsame⟩ | ⟨-, hself⟩
    · -- the builder has no spins
      have hkind : builder.cfg.kind? (dest place) = some .spin := by
        rw [← hsame, FlowGraph.kind?, hspin]
        rfl
      exact (h.built.regular.fits hkind).elim
    · exact hself
  rw [Kept, hout, map_singleton, hnumber, hspin, hself, hnode,
    shownLabel_of_ne hnode (by simp [Node.kind])]
  exact ⟨rfl, rfl⟩

/-- The start leads to where its successor stands. -/
theorem kept_start : Kept cfg rebuilt number cfg.start := by
  obtain ⟨span, hnode⟩ := h.wellFormed.start
  obtain ⟨next, label, hout⟩ : ∃ next label, cfg.outgoing cfg.start = [(next, label)] :=
    h.wellFormed.outgoingFits hnode
  obtain ⟨back, hback⟩ := h.written.start
  have hsplit : items = [] ++ .place cfg.start :: back := hback
  obtain ⟨node, written, step, tail, hnode', hemit, rfl, hcont⟩ := h.written.placed hsplit
  obtain rfl := Option.some.inj (hnode'.symm.trans hnode)
  simp only [emit, Graph.successors_eq hout] at hemit
  cases hemit
  obtain ⟨place, hplace, hentry⟩ := h.built.entry
  have hfirst : places[(text labels ([] ++ [.place cfg.start])).length]? = some place :=
    (h.behind_place hsplit).trans hplace
  have hbehind : items = ([] ++ [.place cfg.start]) ++ tail := hsplit
  have harrives := h.arrives_of_continues hbehind (hcont _ rfl) hfirst
  have hne := h.ne_start (hout ▸ mem_singleton_self _)
  have hspan : cfg.spanOf cfg.start = span := by simp [FlowGraph.spanOf, hnode, Node.span]
  rw [Kept, h.start, h.built.node?_start, hentry, h.dest_eq hne harrives, hout, hnode,
    Stmt.span, hspan, map_singleton, shownLabel_of_ne hnode (by simp [Node.kind])]
  exact ⟨rfl, rfl⟩

/-! ### The new numbers -/

section

variable (hid : cfg.contains id)
include hid

/-- Every node stands somewhere. -/
theorem exists_stands : ∃ place, Stands items labels places id place := by
  obtain ⟨front, back, hsplit⟩ :=
    append_of_mem (h.written.mem_of_reaches (h.wellFormed.writable_of_single h.single)
      (h.reached hid))
  obtain ⟨place, hplace⟩ := h.exists_place hsplit
  exact ⟨place, front, back, hsplit, hplace⟩

/-- A node under its new number has its edges. -/
theorem kept (hlive : rebuilt.contains (number id)) : Kept cfg rebuilt number id := by
  by_cases hne : id = cfg.start
  · exact hne ▸ h.kept_start
  obtain ⟨place, hstands⟩ := h.exists_stands hid
  have hnumber := h.stands hne hstands
  obtain ⟨front, back, hsplit, hplace⟩ := hstands
  obtain ⟨item, tail, -, hcopied⟩ := h.copied hne hsplit hplace
  have hplain : ∀ {node}, builder.cfg.node? place = some node → (∀ span, node ≠ .stub span) →
      number id = place := by
    intro node hcopy hnot
    rw [hnumber, h.built.resolved.stays (h.built.valid.not_mem_stubIds hcopy hnot)]
  cases hcopied.copy with
  | actor hnode hkind hout hcopy hedge hnext =>
    have hsame := hplain hcopy fun span heq => by simp [heq, Node.kind] at hkind
    refine h.kept_actor hsame (hsame ▸ hlive) hnode (fun heq => ?_) hout hcopy hedge hnext
    simp [heq] at hkind
  | ret hnode hcopy =>
    have hsame := hplain hcopy (by simp)
    exact h.kept_ret hsame (hsame ▸ hlive) hnode hcopy
  | branch hnode hout hcopy hedges htrue hfalse =>
    have hsame := hplain hcopy (by simp)
    exact h.kept_branch hsame (hsame ▸ hlive) hnode hout hcopy hedges htrue hfalse
  | spin hnode hout hcopy hpass =>
    exact h.kept_spin hnumber (hnumber ▸ hlive) hnode hout hcopy hpass

/-- Nodes are there under their new numbers. -/
theorem contains_number : rebuilt.contains (number id) := by
  -- along the way from the start: only a node that is there has its edges, and they lead to the
  -- next one
  have hclosed := (h.reached hid).closed
    (S := fun id => cfg.contains id ∧ rebuilt.contains (number id))
    ⟨h.wellFormed.sound.start, h.start ▸ h.built.resolved.sound.start⟩
    fun id ⟨hid, hlive⟩ next hnext => by
      obtain ⟨label, hlink⟩ := Graph.mem_successors.mp hnext
      refine ⟨h.wellFormed.sound.graph.contains_target hlink, ?_⟩
      have hlink' : (number next, cfg.shownLabel id label) ∈ rebuilt.outgoing (number id) := by
        rw [(h.kept hid hlive).2]
        exact mem_map.mpr ⟨_, hlink, rfl⟩
      exact h.built.resolved.sound.graph.contains_target hlink'
  exact hclosed.2

end

/-- All nodes of the new graph are new numbers. -/
theorem exists_number {last : NodeId} (hlast : rebuilt.contains last) :
    ∃ id, cfg.contains id ∧ number id = last := by
  refine (h.built.reached hlast).closed (S := fun last => ∃ id, cfg.contains id ∧
    number id = last) ⟨cfg.start, h.wellFormed.sound.start, h.start⟩ ?_
  intro last ⟨id, hid, heq⟩ next hnext
  subst heq
  obtain ⟨label, hlink⟩ := Graph.mem_successors.mp hnext
  rw [(h.kept hid (h.contains_number hid)).2] at hlink
  obtain ⟨⟨target, other⟩, hlink, heq⟩ := mem_map.mp hlink
  exact ⟨target, h.wellFormed.sound.graph.contains_target hlink, (Prod.mk.inj heq).1⟩

/-- A node that stands further back stands at another place. -/
theorem ne_of_behind (hne : id ≠ cfg.start) (hsplit : items = front ++ .place id :: back)
    (hplace : places[(text labels front).length]? = some place) {middle rest : List Item}
    (hback : back = middle ++ .place other :: rest) :
    places[(text labels (front ++ .place id :: middle)).length]? ≠ some place := by
  intro hsame
  obtain ⟨item, tail, rfl, hcopied⟩ := h.copied hne hsplit hplace
  cases middle with
  | nil =>
    have hplaced := (List.cons.inj hback).1 ▸ hcopied.inner
    cases hplaced
  | cons first middle =>
    cases hback
    have hget : (places.drop ((text labels (front ++ [.place id])).length + 1))[
        (text labels middle).length]? = some place := by
      rw [getElem?_drop, ← hsame]
      congr 1
      simp only [text_append, text_cons, text_nil, length_append, hcopied.length,
        append_nil]
      omega
    exact hcopied.fresh (mem_of_getElem? hget)

/-- Different nodes stand at different places. -/
theorem eq_of_stands (hne : id ≠ cfg.start) (hne' : other ≠ cfg.start)
    (hstands : Stands items labels places id place)
    (hstands' : Stands items labels places other place) : id = other := by
  obtain ⟨front, back, hsplit, hplace⟩ := hstands
  obtain ⟨front', back', hsplit', hplace'⟩ := hstands'
  rcases split_cases (hsplit.symm.trans hsplit') with
    ⟨-, hitem⟩ | ⟨middle, rfl, hback⟩ | ⟨middle, rfl, hback⟩
  · exact Item.place.inj hitem
  · exact absurd hplace' (h.ne_of_behind hne hsplit hplace hback)
  · exact absurd hplace (h.ne_of_behind hne' hsplit' hplace' hback)

/-- Different nodes have different numbers. -/
theorem number_injOn : Set.InjOn number {id | cfg.contains id} := by
  intro id hid other hother heq
  have hnode : cfg.node? id = cfg.node? other := by
    rw [← (h.kept hid (h.contains_number hid)).1, heq, (h.kept hother (h.contains_number hother)).1]
  obtain ⟨span, hstart⟩ := h.wellFormed.start
  by_cases hne : id = cfg.start
  · rw [hne, hstart] at hnode
    exact hne.trans (h.eq_start hnode.symm).symm
  by_cases hne' : other = cfg.start
  · rw [hne', hstart] at hnode
    exact absurd (h.eq_start hnode) hne
  obtain ⟨place, hstands⟩ := h.exists_stands hid
  obtain ⟨place', hstands'⟩ := h.exists_stands hother
  have hdest : dest place = dest place' := by
    rw [← h.stands hne hstands, heq, h.stands hne' hstands']
  have hkind : cfg.kind? id = cfg.kind? other := by rw [FlowGraph.kind?, hnode, FlowGraph.kind?]
  have hsame : place = place' := by
    -- the number alone does not tell a spin from a node that stays, but the kind does
    rcases h.settled hne hstands with ⟨hnot, hfree⟩ | ⟨hspin, hpass⟩ <;>
      rcases h.settled hne' hstands' with ⟨hnot', hfree'⟩ | ⟨hspin', hpass'⟩
    · rwa [h.built.resolved.stays hfree, h.built.resolved.stays hfree'] at hdest
    · exact absurd (hkind.trans hspin') hnot
    · exact absurd (hkind.symm.trans hspin) hnot'
    · exact h.built.resolved.eq_of_circles h.built.valid hpass hpass' hdest
  exact h.eq_of_stands hne hne' hstands (hsame ▸ hstands')

/-- The new graph is the old one under the new numbers. -/
theorem renumbers : cfg.Renumbers rebuilt cfg.shownLabel number where
  bijOn := ⟨fun _ hid => h.contains_number hid, h.number_injOn, fun _ hlast =>
    h.exists_number hlast⟩
  start := h.start
  node hid := (h.kept hid (h.contains_number hid)).1
  outgoing hid := (h.kept hid (h.contains_number hid)).2

end Rereading

/-! ### The graph of a layout -/

/-- The place of a node stands at one position only. -/
theorem Text.front_unique (h : Text cfg items labels) (hsplit : items = front ++ .place id :: back)
    (hsplit' : items = front' ++ .place id :: back') : front = front' := by
  rcases split_cases (hsplit.symm.trans hsplit') with
    ⟨hfront, -⟩ | ⟨middle, -, hback⟩ | ⟨middle, -, hback⟩
  · exact hfront
  · exact absurd (by simp [hback]) (h.not_mem_behind hsplit)
  · exact absurd (by simp [hback]) (h.not_mem_behind hsplit')

/-- Nodes stand at one place. -/
theorem Text.stands_unique (h : Text cfg items labels) {places : List NodeId}
    {place place' : NodeId} (hstands : Stands items labels places id place)
    (hstands' : Stands items labels places id place') : place = place' := by
  obtain ⟨front, back, hsplit, hplace⟩ := hstands
  obtain ⟨front', back', hsplit', hplace'⟩ := hstands'
  obtain rfl := h.front_unique hsplit hsplit'
  exact Option.some.inj (hplace.symm.trans hplace')

/-- All statements of a text can be read. -/
theorem Text.isReadable (h : Text cfg items labels) :
    ∀ stmt ∈ items.flatMap (stmts cfg labels), stmt.isReadable := by
  intro stmt hstmt
  obtain ⟨item, hitem, hmem⟩ := mem_flatMap.mp hstmt
  cases item with
  | place id =>
    cases hlabel : labels[id]? with
    | none => simp [stmts, hlabel] at hmem
    | some label =>
      obtain rfl : stmt = _ := by simpa [stmts, hlabel] using hmem
      rfl
  | stmt instr span =>
    obtain rfl := mem_singleton.mp hmem
    rcases h.plain hitem with ⟨node, hin⟩ | rfl
    · obtain ⟨single, hinstrs, hkind⟩ := Node.exists_single hin
      cases single with
      | assign | store | call =>
        obtain rfl := singleton_inj.mp hinstrs
        rfl
      | _ => simp [Node.kind] at hkind
    · rfl
  | jump | branch =>
    obtain rfl := mem_singleton.mp hmem
    rfl

/-- A text defines the labels to which it goes. -/
theorem Text.label_mem (h : Text cfg items labels) :
    ∀ instr ∈ text labels items, ∀ label, instr.goesTo? = some label →
      .label label ∈ text labels items := by
  intro instr hinstr label hgoes
  obtain ⟨item, hitem, hmem⟩ := mem_flatMap.mp hinstr
  have htarget : ∀ target, item.target? = some target → labels.getD target "" = label →
      .label label ∈ text labels items := by
    intro target htarget heq
    obtain ⟨hplace, name, hname⟩ := h.targets hitem htarget
    rw [Std.ExtTreeMap.getD_eq_getD_getElem?, hname, Option.getD_some] at heq
    exact mem_flatMap.mpr ⟨.place target, hplace, by simp [Item.instrs, hname, heq]⟩
  cases item with
  | place id =>
    cases hlabel : labels[id]? with
    | none => simp [Item.instrs, hlabel] at hmem
    | some name =>
      obtain rfl : instr = .label name := by simpa [Item.instrs, hlabel] using hmem
      cases hgoes
  | stmt other span =>
    obtain rfl : instr = other := mem_singleton.mp hmem
    rcases h.plain hitem with ⟨node, hin⟩ | rfl
    · have hacts := Node.acts_of_mem_instrs hin
      cases instr with
      | jump | branch => cases hacts
      | move | call | label | ret => cases hgoes
    · cases hgoes
  | jump target span =>
    obtain rfl := mem_singleton.mp hmem
    exact htarget target rfl (Option.some.inj hgoes)
  | branch cond target span =>
    obtain rfl := mem_singleton.mp hmem
    exact htarget target rfl (Option.some.inj hgoes)

/-- The new numbers of the nodes of a text. -/
theorem Text.exists_rereading (h : Text cfg items labels) (hcfg : cfg.WellFormed)
    (hsingle : ∀ id node, cfg.node? id = some node → node.kind ≠ .phi ∧ node.kind ≠ .block)
    (hreached : ∀ {id}, cfg.contains id → cfg.Reaches cfg.start id) :
    ∃ builder places rebuilt dest number,
      FlowGraph.ofBody (.seq (items.flatMap (stmts cfg labels)) (cfg.spanOf cfg.start)) =
        .ok rebuilt ∧ Rereading cfg items labels builder places rebuilt dest number := by
  obtain ⟨rebuilt, hrebuilt⟩ : ∃ rebuilt, FlowGraph.ofBody
      (.seq (items.flatMap (stmts cfg labels)) (cfg.spanOf cfg.start)) = .ok rebuilt := by
    refine FlowGraph.exists_ofBody h.isReadable ?_
    rw [code_seq_stmts]
    exact h.label_mem
  obtain ⟨builder, places, dest, hbuilt⟩ := FlowGraph.built_of_ofBody hrebuilt
  have hchoice : ∀ id, ∃ last, (id = cfg.start → last = rebuilt.start) ∧ (id ≠ cfg.start →
      ∀ place, Stands items labels places id place → last = dest place) := by
    intro id
    by_cases hstart : id = cfg.start
    · exact ⟨rebuilt.start, fun _ => rfl, fun hne => absurd hstart hne⟩
    by_cases hplace : ∃ place, Stands items labels places id place
    · obtain ⟨place, hstands⟩ := hplace
      refine ⟨dest place, fun heq => absurd heq hstart, fun _ other hother => ?_⟩
      rw [h.stands_unique hstands hother]
    · exact ⟨id, fun heq => absurd heq hstart, fun _ place hstands =>
        absurd ⟨place, hstands⟩ hplace⟩
  choose number hnumber using hchoice
  exact ⟨builder, places, rebuilt, dest, number, hrebuilt, hcfg, hsingle, hreached, h, hbuilt,
    (hnumber _).1 rfl, fun {id place} hne hstands => (hnumber id).2 hne place hstands⟩

end Layout

namespace FlowGraph

variable {supply : LabelSupply}

/-- A well-formed graph without phi nodes and blocks that control reaches as a whole is laid out,
and the graph of the body is the same under other numbers, up to labels that the text does not show.
It is therefore laid out as the same body again. -/
theorem WellFormed.renumbers_ofBody (hcfg : cfg.WellFormed)
    (hsingle : ∀ id node, cfg.node? id = some node → node.kind ≠ .phi ∧ node.kind ≠ .block)
    (hreached : ∀ id, cfg.contains id → cfg.Reaches cfg.start id)
    (hcovers : supply.Covers cfg.labelDemand) :
    ∃ body rest rebuilt number, cfg.flatten supply = .done (body, rest) ∧
      ofBody body = .ok rebuilt ∧ cfg.Renumbers rebuilt cfg.shownLabel number ∧
      rebuilt.flatten supply = .done (body, rest) := by
  have hsound := hcfg.sound
  have hwritable : cfg.Writable := hcfg.writable_of_single hsingle
  obtain ⟨body, hflatten⟩ := hwritable.exists_flatten hcovers
  obtain ⟨layout, labels, hlayout, hmint, rfl⟩ := flatten_eq_done.mp hflatten
  obtain ⟨builder, places, rebuilt, dest, number, hrebuilt, hrereading⟩ :=
    (Layout.text_of_mint hsound hlayout hmint).exists_rereading hcfg hsingle (hreached _)
  have hrenumbers := hrereading.renumbers
  exact ⟨_, _, rebuilt, number, hflatten, hrebuilt, hrenumbers,
    hrenumbers.flatten_eq hsound hflatten⟩

/-- A loop to a condition, a node that leads to itself, a condition with one target, two spins and
two returns. The first edge has a label. -/
def tangled : FlowGraph :=
  .ofNodes ⟨0, 13⟩ [.branch (.temp "a") ⟨1, 2⟩, .branch (.temp "b") ⟨2, 3⟩,
    .assign "i" (.temp "j") ⟨3, 4⟩,
      .store (.temp "p") (.temp "i") ⟨4, 5⟩, .branch (.temp "c") ⟨5, 6⟩, .branch (.temp "d") ⟨6, 7⟩,
      .spin ⟨7, 8⟩, .branch (.temp "e") ⟨8, 9⟩, .spin ⟨9, 10⟩, .branch (.temp "f") ⟨10, 11⟩,
      .ret ⟨11, 12⟩, .ret ⟨12, 13⟩]
    [⟨0, 1, some false⟩, ⟨1, 2, some true⟩, ⟨1, 3, some false⟩, ⟨2, 4, some true⟩,
      ⟨2, 4, some false⟩,
      ⟨3, 3, none⟩, ⟨4, 5, none⟩, ⟨5, 1, some true⟩, ⟨5, 6, some false⟩, ⟨6, 7, some true⟩,
      ⟨6, 8, some false⟩, ⟨7, 7, none⟩, ⟨8, 9, some true⟩, ⟨8, 10, some false⟩, ⟨9, 9, none⟩,
      ⟨10, 11, some true⟩, ⟨10, 12, some false⟩]

/-- A graph with a loop and a spin. -/
theorem renumbers_ofBody_tangled :
    tangled.WellFormed ∧
      (∀ id node, tangled.node? id = some node → node.kind ≠ .phi ∧ node.kind ≠ .block) ∧
      (∀ id, tangled.contains id → tangled.Reaches tangled.start id) ∧
      LabelSupply.Covers ⟨0⟩ tangled.labelDemand ∧
      ∃ body rest rebuilt number, tangled.flatten ⟨0⟩ = .done (body, rest) ∧
        ofBody body = .ok rebuilt ∧ tangled.Renumbers rebuilt tangled.shownLabel number ∧
        rebuilt.flatten ⟨0⟩ = .done (body, rest) := by
  have hwell : tangled.WellFormed := ⟨by decide +kernel, exists_start_of_kind? (by decide +kernel)⟩
  have hsingle : ∀ id node, tangled.node? id = some node → node.kind ≠ .phi ∧ node.kind ≠ .block :=
    forall_node_of_nodes (by decide +kernel)
  have hnodes : ∀ id ∈ tangled.nodes, id ∈ tangled.reached := by decide +kernel
  have hreached : ∀ id, tangled.contains id → tangled.Reaches tangled.start id :=
    fun id hid => hwell.sound.mem_reached.mp (hnodes id (Graph.mem_nodes.mpr hid))
  have hcovers : LabelSupply.Covers ⟨0⟩ tangled.labelDemand := by decide +kernel
  exact ⟨hwell, hsingle, hreached, hcovers, hwell.renumbers_ofBody hsingle hreached hcovers⟩

/-- A return whose only edge has a label. -/
def marked : FlowGraph :=
  .ofNodes .dummy [.ret .dummy] [⟨0, 1, some true⟩]

/-- The label of the first edge does not come back. -/
theorem not_renumbers_marked :
    marked.WellFormed ∧
      (∀ id node, marked.node? id = some node → node.kind ≠ .phi ∧ node.kind ≠ .block) ∧
      (∀ id, marked.contains id → marked.Reaches marked.start id) ∧
      LabelSupply.Covers ⟨0⟩ marked.labelDemand ∧
      ¬ ∃ body rest rebuilt number, marked.flatten ⟨0⟩ = .done (body, rest) ∧
        ofBody body = .ok rebuilt ∧ marked.Renumbers rebuilt (fun _ label => label) number := by
  have hwell : marked.WellFormed := ⟨by decide +kernel, .dummy, rfl⟩
  have hnodes : ∀ id ∈ marked.nodes, id ∈ marked.reached := by decide +kernel
  refine ⟨hwell, forall_node_of_nodes (by decide +kernel),
    fun id hid => hwell.sound.mem_reached.mp (hnodes id (Graph.mem_nodes.mpr hid)),
    by decide +kernel, ?_⟩
  intro ⟨body, rest, rebuilt, number, hflatten, hrebuilt, hrenumbers⟩
  have hlost : (match marked.flatten ⟨0⟩ with
      | .done (body, _) =>
        match ofBody body with
        | .ok rebuilt => (rebuilt.outgoing rebuilt.start).map Prod.snd
        | .error _ => []
      | _ => []) = [none] := by
    decide +kernel
  simp only [hflatten, hrebuilt] at hlost
  have hkept := hrenumbers.outgoing hwell.sound.start
  rw [hrenumbers.start] at hkept
  rw [hkept, map_map] at hlost
  have hmarked : (marked.outgoing marked.start).map Prod.snd = [some true] := by decide +kernel
  exact absurd (hmarked.symm.trans hlost) (by simp)

end FlowGraph

end Flowgraph

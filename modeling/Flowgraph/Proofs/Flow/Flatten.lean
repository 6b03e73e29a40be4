import Flowgraph.Proofs.Code.LabelSupply
import Flowgraph.Proofs.Flow.Layout

/-!
# A layout runs like its graph

`Layout.Text` collects what the simulation needs to know about a layout and its labels. The text is
at a point of the graph if its rest begins with the instructions left there and then leaves the node
as the graph does (`Inside`), or with the node's place or a jump to it (`Arriving`). Graph and text
mimic each other (`Layout.Text.mimics_graph`, `Layout.Text.mimics_text`).
-/

namespace Flowgraph

open List Code FlowGraph

variable {cfg : FlowGraph} {supply rest : LabelSupply} {body : Stmt}

namespace Layout

variable {labels : NodeMap String}

/-! ### Minting labels -/

/-- Labels are minted, and different nodes have different labels. -/
structure Minted (labels : NodeMap String) (supply : LabelSupply) : Prop where
  named : ∀ {id : NodeId} {label : String}, labels[id]? = some label →
    ∃ k < supply.next, label = LabelSupply.label k
  injective : ∀ {id other : NodeId} {label : String}, labels[id]? = some label →
    labels[other]? = some label → id = other

/-- One more label is minted. -/
theorem Minted.insert (h : Minted labels supply) (id : NodeId) :
    Minted (labels.insert id (LabelSupply.label supply.next)) ⟨supply.next + 1⟩ := by
  have hnew : ∀ {other : NodeId}, labels[other]? ≠ some (LabelSupply.label supply.next) := by
    intro other hother
    obtain ⟨k, hk, heq⟩ := h.named hother
    have := LabelSupply.label_injective heq
    omega
  constructor
  · intro other label hother
    rw [Std.ExtTreeMap.getElem?_insert] at hother
    split at hother
    · exact ⟨supply.next, Nat.lt_succ_self _, (Option.some.inj hother).symm⟩
    · obtain ⟨k, hk, heq⟩ := h.named hother
      exact ⟨k, Nat.lt_succ_of_lt hk, heq⟩
  · intro first second label hfirst hsecond
    rw [Std.ExtTreeMap.getElem?_insert] at hfirst hsecond
    split at hfirst <;> split at hsecond
    · next heq heq' => simp_all
    · cases hfirst
      exact absurd hsecond hnew
    · cases hsecond
      exact absurd hfirst hnew
    · exact h.injective hfirst hsecond

/-- Minting gives every node of a list a label. -/
theorem mint_spec {ids : List NodeId} {labels' : NodeMap String} {supply' : LabelSupply}
    (h : Minted labels supply) (hmint : mint ids labels supply = .ok (labels', supply')) :
    Minted labels' supply' ∧ (∀ id, labels.contains id → labels'.contains id) ∧
      ∀ id ∈ ids, labels'.contains id := by
  induction ids generalizing labels supply with
  | nil =>
    cases hmint
    exact ⟨h, fun _ hid => hid, by simp⟩
  | cons id rest ih =>
    rw [mint] at hmint
    split at hmint
    · next hold =>
      obtain ⟨hminted, hkept, hrest⟩ := ih h hmint
      refine ⟨hminted, hkept, fun other hother => ?_⟩
      rcases mem_cons.mp hother with rfl | hother
      · exact hkept _ hold
      · exact hrest _ hother
    · next hnew =>
      split at hmint
      · cases hmint
      next label remaining hfresh =>
      rw [LabelSupply.fresh?] at hfresh
      split at hfresh
      · cases hfresh
        obtain ⟨hminted, hkept, hrest⟩ := ih (h.insert id) hmint
        refine ⟨hminted, fun other hother => hkept _ ?_, fun other hother => ?_⟩
        · simp [Std.ExtTreeMap.contains_insert, hother]
        · rcases mem_cons.mp hother with rfl | hother
          · exact hkept _ (by simp)
          · exact hrest _ hother
      · cases hfresh

/-! ### From items to instructions -/

/-- The instructions of an item. -/
def Item.instrs (labels : NodeMap String) : Item → List Instr
  | .place id =>
    match labels[id]? with
    | some label => [.label label]
    | none => []
  | .stmt instr _ => [instr]
  | .jump target _ => [.jump (labels.getD target "")]
  | .branch cond target _ => [.branch cond (labels.getD target "")]

/-- The instructions of a layout. -/
def text (labels : NodeMap String) (items : List Item) : List Instr :=
  items.flatMap (Item.instrs labels)

/-- No items, no text. -/
@[simp] theorem text_nil (labels : NodeMap String) : text labels [] = [] := rfl

/-- Items are written in turn. -/
@[simp] theorem text_cons (labels : NodeMap String) (item : Item) (items : List Item) :
    text labels (item :: items) = item.instrs labels ++ text labels items := rfl

/-- Texts are appended. -/
@[simp] theorem text_append (labels : NodeMap String) (front back : List Item) :
    text labels (front ++ back) = text labels front ++ text labels back := by
  simp [text]

/-- Plain items need no label. -/
theorem Plain.text_eq {items : List Item} {instrs : List Instr} (h : Plain items instrs)
    (labels : NodeMap String) : text labels items = instrs := by
  obtain ⟨stmts, rfl, rfl⟩ := h
  induction stmts with
  | nil => rfl
  | cons stmt rest ih => simpa [Item.instrs] using ih

/-- Code of appended statements. -/
theorem codeList_append (first second : List Stmt) :
    Stmt.codeList (first ++ second) = Stmt.codeList first ++ Stmt.codeList second := by
  induction first with
  | nil => rfl
  | cons stmt rest ih => simp [Stmt.codeList, ih]

/-- The statements of items are their text. -/
theorem codeList_stmts (labels : NodeMap String) (items : List Item) :
    Stmt.codeList (items.flatMap (stmts cfg labels)) = text labels items := by
  induction items with
  | nil => rfl
  | cons item rest ih =>
    rw [flatMap_cons, codeList_append, ih, text_cons]
    congr 1
    cases item with
    | place id =>
      simp only [stmts, Item.instrs]
      cases labels[id]? <;> rfl
    | stmt | jump | branch => rfl

/-- A complete layout whose targets have labels. -/
structure Text (cfg : FlowGraph) (items : List Item) (labels : NodeMap String) : Prop where
  placed : ∀ {front id back}, items = front ++ .place id :: back →
    ∃ node written step tail, cfg.node? id = some node ∧ emit cfg id node = .ok (written, step) ∧
      back = written ++ tail ∧ ∀ next, step.opened = some next → Continues next tail
  nodup : (items.filterMap Item.place?).Nodup
  plain : ∀ {instr span}, .stmt instr span ∈ items →
    (∃ node : Node, instr ∈ node.instrs) ∨ instr = .ret
  start : ∃ back, items = .place cfg.start :: back
  targets : ∀ {item}, item ∈ items → ∀ {target}, item.target? = some target →
    .place target ∈ items ∧ ∃ label, labels[target]? = some label
  injective : ∀ {id other : NodeId} {label : String}, labels[id]? = some label →
    labels[other]? = some label → id = other

/-- The text under minted labels. -/
theorem text_of_mint (hcfg : cfg.Sound) {layout : Layout} (hlayout : ofGraph cfg = .ok layout)
    (hmint : mint (layout.items.filterMap Item.target?) ∅ supply = .ok (labels, rest)) :
    Text cfg layout.items labels := by
  obtain ⟨hlaid, hdeferred, hstart⟩ := ofGraph_spec hcfg hlayout
  have hempty : Minted ∅ supply := ⟨by simp, by simp⟩
  obtain ⟨hminted, -, hall⟩ := mint_spec hempty hmint
  refine ⟨?_, ?_, hlaid.plain, ?_, ?_, hminted.injective⟩
  · intro front id back hsplit
    obtain ⟨node, written, step, tail, hnode, hemit, hback, hfollows⟩ := hlaid.placed hsplit
    refine ⟨node, written, step, tail, hnode, hemit, hback, fun next hnext => ?_⟩
    rcases hfollows next hnext with hcont | ⟨-, hopen⟩
    · exact hcont
    · cases hopen
  · rw [hlaid.places]
    exact nodup_reverse.mpr hlaid.nodup
  · obtain ⟨back, hback⟩ := hstart
    exact ⟨back, hback.symm⟩
  · intro item hitem target htarget
    have hplaced : target ∈ layout.items.filterMap Item.place? := by
      rw [hlaid.places, mem_reverse]
      rcases hlaid.targets item hitem htarget with hin | hin | hin
      · exact hin
      · simp [hdeferred] at hin
      · cases hin
    obtain ⟨place, hplace, hid⟩ := mem_filterMap.mp hplaced
    refine ⟨?_, ?_⟩
    · cases place with
      | place id => exact Option.some.inj hid ▸ hplace
      | stmt | jump | branch => cases hid
    · have hlabel := hall target (mem_filterMap.mpr ⟨item, hitem, htarget⟩)
      rw [← Std.ExtTreeMap.isSome_getElem?_eq_contains] at hlabel
      exact Option.isSome_iff_exists.mp hlabel

/-! ### Points of the graph and positions of the text -/

section Run

variable {items : List Item} {front back : List Item} {id : NodeId} {pc : Nat} {point : Point}
  {span : Span} {tail : List Item}

section

variable (h : Text cfg items labels) (hsplit : items = front ++ .place id :: back)
include h hsplit

/-- No node has two places. -/
theorem Text.not_mem_behind : .place id ∉ back := by
  intro hmem
  have hnodup := h.nodup
  simp only [hsplit, filterMap_append, filterMap_cons, Item.place?] at hnodup
  have hnot := (nodup_cons.mp (nodup_append.mp hnodup).2.1).1
  exact hnot (mem_filterMap.mpr ⟨_, hmem, rfl⟩)

/-- The label of a placed node stands where the place stands. -/
theorem Text.position {label : String} (hlabel : labels[id]? = some label) :
    (labelPositions 0 (text labels items) ∅)[label]? = some (text labels front).length := by
  have hlater : .label label ∉ text labels back := by
    intro hmem
    obtain ⟨item, hitem, hinstr⟩ := mem_flatMap.mp hmem
    have hin : item ∈ items := by simp [hsplit, hitem]
    cases item with
    | place other =>
      cases hother : labels[other]? with
      | none => simp [Item.instrs, hother] at hinstr
      | some label' =>
        obtain rfl : label = label' := by simpa [Item.instrs, hother] using hinstr
        obtain rfl := h.injective hlabel hother
        exact h.not_mem_behind hsplit hitem
    | stmt instr span =>
      obtain rfl : .label label = instr := by simpa [Item.instrs] using hinstr
      rcases h.plain hin with ⟨node, hacts⟩ | hret
      · cases Node.acts_of_mem_instrs hacts
      · cases hret
    | jump | branch => simp [Item.instrs] at hinstr
  have htext : text labels items = text labels front ++ .label label :: text labels back := by
    simp [hsplit, Item.instrs, hlabel]
  rw [htext, labelPositions_append hlater, Nat.zero_add]

end

/-- Going to the label of a target leads to its place. -/
theorem Text.goto (h : Text cfg items labels) {item : Item} (hitem : item ∈ items)
    {target : NodeId} (htarget : item.target? = some target) (name : String) (frame : Frame)
    (world : World) :
    ∃ front back, items = front ++ .place target :: back ∧
      (ofInstrs (text labels items)).goto name (labels.getD target "") frame world =
        .go (text labels front).length frame world := by
  obtain ⟨hplace, label, hlabel⟩ := h.targets hitem htarget
  obtain ⟨front, back, hsplit⟩ := append_of_mem hplace
  refine ⟨front, back, hsplit, goto_of_target ?_⟩
  rw [Std.ExtTreeMap.getD_eq_getD_getElem?, hlabel]
  exact h.position hsplit hlabel

/-- How the text goes on when the instructions of a node are done. -/
inductive Exit (cfg : FlowGraph) (id : NodeId) : List Item → Prop where
  | onward {node : Node} {next : NodeId} {rest : List NodeId} {tail : List Item} :
      cfg.node? id = some node → node.Onward → cfg.successors id = next :: rest →
      Continues next tail → Exit cfg id tail
  | ret {span span' : Span} {tail : List Item} : cfg.node? id = some (.ret span) →
      Exit cfg id (.stmt .ret span' :: tail)
  | spin {span span' : Span} {tail : List Item} : cfg.node? id = some (.spin span) →
      Exit cfg id (.jump id span' :: tail)
  | branch {cond : Expr} {span span' : Span} {onTrue onFalse : NodeId} {tail : List Item} :
      cfg.node? id = some (.branch cond span) → cfg.successors id = [onTrue, onFalse] →
      Continues onFalse tail → Exit cfg id (.branch cond onTrue span' :: tail)

/-- Inside a node, its instructions come next, and then it is left. -/
structure Inside (cfg : FlowGraph) (items : List Item) (labels : NodeMap String)
    (point : Point) (pc : Nat) : Prop where
  acts : ∀ instr ∈ point.1, instr.acts
  rest : ∃ front tail, items = front ++ tail ∧ Exit cfg point.2 tail ∧
    pc + point.1.length = (text labels front).length ∧
    (text labels items).drop pc = point.1 ++ text labels tail

/-- The text comes to a node: its place or a jump to it comes next. -/
def Arriving (cfg : FlowGraph) (items : List Item) (labels : NodeMap String)
    (point : Point) (pc : Nat) : Prop :=
  ∃ id front back, point = cfg.arrive id ∧ items = front ++ back ∧ Continues id back ∧
    pc = (text labels front).length

section

variable (h : Text cfg items labels) (hsplit : items = front ++ .place id :: back)
include h hsplit

/-- Without instructions, the text leaves a node behind its place. -/
theorem Text.exit (hnone : (cfg.arrive id).1 = []) : Exit cfg id back := by
  obtain ⟨node, written, step, tail, hnode, hemit, rfl, hcont⟩ := h.placed hsplit
  rw [arrive_eq hnode] at hnone
  cases emitted_of_emit hemit with
  | onward honward hplain hsucc =>
    obtain ⟨stmts, rfl, hstmts⟩ := hplain
    obtain rfl : stmts = [] := map_eq_nil_iff.mp (hstmts.trans hnone)
    exact .onward hnode honward hsucc (hcont _ rfl)
  | ret => exact .ret hnode
  | spin => exact .spin hnode
  | branch hsucc => exact .branch hnode hsucc (hcont _ rfl)

/-- Behind the place of a node the text is inside it. -/
theorem Text.inside :
    Inside cfg items labels (cfg.arrive id) (text labels (front ++ [.place id])).length := by
  obtain ⟨node, written, step, tail, hnode, hemit, rfl, hcont⟩ := h.placed hsplit
  have hexit := h.exit hsplit
  rw [arrive_eq hnode] at hexit ⊢
  refine ⟨fun instr hinstr => Node.acts_of_mem_instrs hinstr, ?_⟩
  cases emitted_of_emit hemit with
  | onward honward hplain hsucc =>
    refine ⟨front ++ .place id :: written, tail, by simp [hsplit],
      .onward hnode honward hsucc (hcont _ rfl), ?_, ?_⟩
    · simp [hplain.text_eq, Nat.add_assoc]
    · simp [hsplit, hplain.text_eq]
  | ret | spin | branch =>
    exact ⟨front ++ [.place id], _, by simp [hsplit], hexit rfl, by simp [Node.instrs],
      by simp [hsplit, Node.instrs]⟩

end

/-- The entry of the text is the entry of the graph. -/
theorem Text.entry (h : Text cfg items labels) :
    Arriving cfg items labels (cfg.arrive cfg.start) 0 := by
  obtain ⟨back, hback⟩ := h.start
  exact ⟨cfg.start, [], items, rfl, rfl, .inl ⟨back, hback⟩, rfl⟩

/-- What comes next in a list. -/
theorem getElem?_of_drop {α : Type} {list rest : List α} {k : Nat} {x : α}
    (h : list.drop k = x :: rest) : list[k]? = some x ∧ list.drop (k + 1) = rest := by
  refine ⟨?_, ?_⟩
  · rw [← head?_drop, h, head?_cons]
  · rw [← tail_drop, h, tail_cons]

/-- One more instruction of a node is done. -/
theorem Inside.next {instr : Instr} {rest : List Instr}
    (h : Inside cfg items labels (instr :: rest, id) pc) :
    instr.acts ∧ (text labels items)[pc]? = some instr ∧
      Inside cfg items labels (rest, id) (pc + 1) := by
  obtain ⟨hacts, front, tail, hsplit, hexit, hlength, hdrop⟩ := h
  obtain ⟨hget, hdrop'⟩ := getElem?_of_drop hdrop
  refine ⟨hacts _ mem_cons_self, hget, fun other hother =>
    hacts _ (mem_cons_of_mem _ hother), front, tail, hsplit, hexit, ?_, hdrop'⟩
  simp only [length_cons] at hlength ⊢
  omega

/-! ### From the graph to the text -/

/-- What the text of a layout does next at a position. -/
abbrev textNext (name : String) (items : List Item) (labels : NodeMap String) :
    Nat → Frame → World → Action Nat :=
  (ofInstrs (text labels items)).next name

/-- What the text of a layout shows. -/
abbrev textEvents (name : String) (items : List Item) (labels : NodeMap String) : Log Nat :=
  (ofInstrs (text labels items)).events name

variable {name : String} {frame : Frame} {world : World}

/-- The text passes over a place. -/
theorem place_glides (hsplit : items = front ++ .place id :: back) :
    Glides (textNext name items labels) (textEvents name items labels) frame world
      (text labels front).length (text labels (front ++ [.place id])).length := by
  cases hlabel : labels[id]? with
  | none =>
    have hsame : (text labels (front ++ [.place id])).length = (text labels front).length := by
      simp [Item.instrs, hlabel]
    rw [hsame]
    exact .refl
  | some label =>
    have hnext : (text labels (front ++ [.place id])).length = (text labels front).length + 1 := by
      simp [Item.instrs, hlabel]
    have hget : (text labels items)[(text labels front).length]? = some (.label label) := by
      simp [hsplit, Item.instrs, hlabel]
    rw [hnext]
    exact .single (next_label hget) (events_ofInstrs hget name frame world)

/-- A jump of the text leads to the place of its target. -/
theorem Text.jump_next (h : Text cfg items labels) (hsplit : items = front ++ .jump id span :: back)
    (name : String) (frame : Frame) (world : World) :
    ∃ front' back', items = front' ++ .place id :: back' ∧
      textNext name items labels (text labels front).length frame world =
        .go (text labels front').length frame world ∧
      textEvents name items labels (text labels front).length frame world = [] := by
  have hmem : .jump id span ∈ items := by simp [hsplit]
  have hget : (text labels items)[(text labels front).length]? =
      some (.jump (labels.getD id "")) := by
    simp [hsplit, Item.instrs]
  obtain ⟨front', back', hsplit', hgoto⟩ := h.goto hmem rfl name frame world
  refine ⟨front', back', hsplit', ?_, events_ofInstrs hget name frame world⟩
  rw [← hgoto]
  exact next_jump hget

/-- Where the text comes to a node, it gets inside. -/
theorem Text.arrive_glides (h : Text cfg items labels)
    (harriving : Arriving cfg items labels point pc) :
    ∃ pc', Glides (textNext name items labels) (textEvents name items labels) frame world pc pc' ∧
      Inside cfg items labels point pc' := by
  obtain ⟨id, front, back, rfl, hsplit, ⟨rest, rfl⟩ | ⟨span, rest, rfl⟩, rfl⟩ := harriving
  · exact ⟨_, place_glides hsplit, h.inside hsplit⟩
  · obtain ⟨front', back', hsplit', hnext, hevents⟩ := h.jump_next hsplit name frame world
    exact ⟨_, .head ⟨hnext, hevents⟩ (place_glides hsplit'), h.inside hsplit'⟩

/-- The text is at a point of the graph. -/
def At (cfg : FlowGraph) (items : List Item) (labels : NodeMap String) (point : Point)
    (pc : Nat) : Prop :=
  Inside cfg items labels point pc ∨ Arriving cfg items labels point pc

/-- The text of a condition branches to its true way and goes on with the false one. -/
theorem Text.branch_next (h : Text cfg items labels) {cond : Expr} {onTrue onFalse : NodeId}
    (hsplit : items = front ++ .branch cond onTrue span :: tail) (hcont : Continues onFalse tail)
    (name : String) (frame : Frame) (world : World) :
    ∃ pcTrue pcFalse, textNext name items labels (text labels front).length frame world =
        .choose name frame world cond (.go pcTrue frame world) (.go pcFalse frame world) ∧
      textEvents name items labels (text labels front).length frame world =
        cond.decided frame world ∧
      At cfg items labels (cfg.arrive onTrue) pcTrue ∧
      At cfg items labels (cfg.arrive onFalse) pcFalse := by
  have hget : (text labels items)[(text labels front).length]? =
      some (.branch cond (labels.getD onTrue "")) := by
    simp [hsplit, Item.instrs]
  have hmem : .branch cond onTrue span ∈ items := by simp [hsplit]
  obtain ⟨front', back', hsplit', hgoto⟩ := h.goto hmem rfl name frame world
  refine ⟨(text labels front').length, (text labels front).length + 1, ?_,
    events_ofInstrs hget name frame world, .inr ⟨onTrue, front', _, rfl, hsplit', ?_, rfl⟩,
    .inr ⟨onFalse, front ++ [.branch cond onTrue span], tail, rfl, by simp [hsplit], hcont, ?_⟩⟩
  · rw [← hgoto]
    exact next_branch hget
  · exact .inl ⟨back', rfl⟩
  · simp [Item.instrs]

/-- Inside a node, the text mimics what the graph does next. -/
theorem Text.mimicked_inside (h : Text cfg items labels)
    (hinside : Inside cfg items labels point pc) :
    Mimicked (cfg.next name) (cfg.events name) (textNext name items labels)
      (textEvents name items labels) (At cfg items labels) frame world point pc := by
  obtain ⟨instrs, id⟩ := point
  cases instrs with
  | cons instr rest =>
    obtain ⟨hacts, hget, hnext⟩ := hinside.next
    refine .alike ?_ ?_
    · exact ((events_ofInstrs hget name frame world).trans
        (Instr.events_of_acts hacts name frame world)).symm
    · rw [FlowGraph.next, textNext, next_of_acts hget hacts]
      exact .effect _ (.inl hnext)
  | nil =>
    obtain ⟨-, front, tail, hsplit, hexit, hpc, hdrop⟩ := hinside
    simp only [length_nil, Nat.add_zero] at hpc
    subst hpc
    cases hexit with
    | onward hnode honward hsucc hcont =>
      refine .wait (depart_onward hnode honward hsucc) ?_
        (.inr ⟨_, front, tail, rfl, hsplit, hcont, rfl⟩)
      exact events_of_kind hnode fun hkind => by simp [Node.Onward, hkind] at honward
    | ret hnode =>
      have hget : (text labels items)[(text labels front).length]? = some .ret := by
        simp [hsplit, Item.instrs]
      refine .alike ?_ ?_
      · exact (events_of_kind hnode Kind.noConfusion).trans
          (events_ofInstrs hget name frame world).symm
      · rw [FlowGraph.next, depart_ret hnode, textNext, next_ret hget]
        rfl
    | spin hnode =>
      exact .wait (depart_spin hnode) (events_of_kind hnode Kind.noConfusion)
        (.inr ⟨id, front, _, rfl, hsplit, .inr ⟨_, _, rfl⟩, rfl⟩)
    | branch hnode hsucc hcont =>
      obtain ⟨pcTrue, pcFalse, hnext, hevents, htrue, hfalse⟩ :=
        h.branch_next hsplit hcont name frame world
      refine .alike ((events_branch hnode).trans hevents.symm) ?_
      rw [FlowGraph.next, depart_branch hnode hsucc, hnext]
      exact .choose ⟨rfl, rfl, htrue⟩ ⟨rfl, rfl, hfalse⟩

/-- The text of a layout mimics its graph. -/
theorem Text.mimics_graph (h : Text cfg items labels) (name : String) :
    Mimics (cfg.next name) (cfg.events name) (textNext name items labels)
      (textEvents name items labels) (At cfg items labels) := by
  intro point pc frame world hat
  rcases hat with hinside | harriving
  · exact ⟨pc, .refl, h.mimicked_inside hinside⟩
  · obtain ⟨pc', hglides, hinside⟩ := h.arrive_glides harriving
    exact ⟨pc', hglides, h.mimicked_inside hinside⟩

/-! ### From the text to the graph -/

/-- The text has an instruction that the graph mimics. -/
inductive Settled (cfg : FlowGraph) (items : List Item) (labels : NodeMap String) :
    Point → Nat → Prop where
  | act {instr : Instr} {rest : List Instr} {id : NodeId} {pc : Nat} :
      Inside cfg items labels (instr :: rest, id) pc →
      Settled cfg items labels (instr :: rest, id) pc
  | jump {id : NodeId} {front back : List Item} {span : Span} :
      items = front ++ .jump id span :: back →
      Settled cfg items labels (cfg.arrive id) (text labels front).length
  | label {id : NodeId} {front back : List Item} {label : String} :
      items = front ++ .place id :: back → labels[id]? = some label →
      Settled cfg items labels (cfg.arrive id) (text labels front).length
  | ret {id : NodeId} {front back : List Item} {span span' : Span} :
      cfg.node? id = some (.ret span) → items = front ++ .stmt .ret span' :: back →
      Settled cfg items labels ([], id) (text labels front).length
  | branch {id onTrue onFalse : NodeId} {front tail : List Item} {cond : Expr} {span span' : Span} :
      cfg.node? id = some (.branch cond span) → cfg.successors id = [onTrue, onFalse] →
      items = front ++ .branch cond onTrue span' :: tail → Continues onFalse tail →
      Settled cfg items labels ([], id) (text labels front).length

/-- Behind the instructions of a node, the graph goes on until the text has one, if it does so where
a shorter text comes to a node. -/
theorem settle_exit (hsplit : items = front ++ tail) (hexit : Exit cfg id tail)
    (harrive : ∀ next, Continues next tail → ∃ point,
      Glides (cfg.next name) (cfg.events name) frame world (cfg.arrive next) point ∧
        Settled cfg items labels point (text labels front).length) :
    ∃ point, Glides (cfg.next name) (cfg.events name) frame world ([], id) point ∧
      Settled cfg items labels point (text labels front).length := by
  cases hexit with
  | onward hnode honward hsucc hcont =>
    obtain ⟨point, hglides, hsettled⟩ := harrive _ hcont
    refine ⟨point, .head ⟨depart_onward hnode honward hsucc, ?_⟩ hglides, hsettled⟩
    exact events_of_kind hnode fun hkind => by simp [Node.Onward, hkind] at honward
  | ret hnode => exact ⟨_, .refl, .ret hnode hsplit⟩
  | spin hnode =>
    refine ⟨_, .refl, ?_⟩
    rw [show (([], id) : Point) = cfg.arrive id from (arrive_eq hnode).symm]
    exact .jump hsplit
  | branch hnode hsucc hcont => exact ⟨_, .refl, .branch hnode hsucc hsplit hcont⟩

/-- Where the text comes to a node, the graph goes on until the text has an instruction; the text
gets shorter with each node. -/
theorem Text.settle_arriving (h : Text cfg items labels) {size : Nat} (hsize : back.length ≤ size)
    (hsplit : items = front ++ back) (hcont : Continues id back) :
    ∃ point, Glides (cfg.next name) (cfg.events name) frame world (cfg.arrive id) point ∧
      Settled cfg items labels point (text labels front).length := by
  induction size generalizing front back id with
  | zero =>
    rcases hcont with ⟨rest, rfl⟩ | ⟨span, rest, rfl⟩ <;> simp at hsize
  | succ size ih =>
    rcases hcont with ⟨rest, rfl⟩ | ⟨span, rest, rfl⟩
    · cases hlabel : labels[id]? with
      | some label => exact ⟨_, .refl, .label hsplit hlabel⟩
      | none =>
        have hsame : (text labels (front ++ [.place id])).length =
            (text labels front).length := by
          simp [Item.instrs, hlabel]
        rw [← hsame]
        cases harrive : (cfg.arrive id).1 with
        | cons instr instrs =>
          have hinside := h.inside hsplit
          rw [show cfg.arrive id = (instr :: instrs, id) from Prod.ext harrive rfl]
            at hinside ⊢
          exact ⟨_, .refl, .act hinside⟩
        | nil =>
          -- neither a label nor an instruction: the graph leaves the node, the text stays where it
          -- is
          have hsplit' : items = (front ++ [.place id]) ++ rest := by simp [hsplit]
          rw [show cfg.arrive id = ([], id) from Prod.ext harrive rfl]
          refine settle_exit hsplit' (h.exit hsplit harrive) fun next hnext => ?_
          exact ih (by simpa using hsize) hsplit' hnext
    · exact ⟨_, .refl, .jump hsplit⟩

/-- From every point the graph goes on until the text has an instruction. -/
theorem Text.settle (h : Text cfg items labels) (hat : At cfg items labels point pc) :
    ∃ point', Glides (cfg.next name) (cfg.events name) frame world point point' ∧
      Settled cfg items labels point' pc := by
  rcases hat with hinside | ⟨id, front, back, rfl, hsplit, hcont, rfl⟩
  · obtain ⟨instrs, id⟩ := point
    cases instrs with
    | cons instr rest => exact ⟨_, .refl, .act hinside⟩
    | nil =>
      obtain ⟨-, front, tail, hsplit, hexit, hpc, -⟩ := hinside
      simp only [length_nil, Nat.add_zero] at hpc
      subst hpc
      exact settle_exit hsplit hexit fun next hnext =>
        h.settle_arriving (Nat.le_refl _) hsplit hnext
  · exact h.settle_arriving (Nat.le_refl _) hsplit hcont

/-- Settled points lie in the text. -/
theorem Settled.lt_length (h : Settled cfg items labels point pc) :
    pc < (text labels items).length := by
  cases h with
  | act hinside => exact (List.getElem?_eq_some_iff.mp hinside.next.2.1).1
  | label hsplit hlabel => simp [hsplit, Item.instrs, hlabel]
  | jump hsplit | ret _ hsplit | branch _ _ hsplit _ => simp [hsplit, Item.instrs]

/-- The text of a layout is not empty. -/
theorem Text.length_pos (h : Text cfg items labels) : 0 < (text labels items).length := by
  have hsettle : ∃ point, Glides (cfg.next "") (cfg.events "") (.ofArguments []) {}
      (cfg.arrive cfg.start) point ∧ Settled cfg items labels point 0 := h.settle (.inr h.entry)
  obtain ⟨point, -, hsettled⟩ := hsettle
  exact hsettled.lt_length

/-- The graph mimics the instruction that the text has. -/
theorem Text.mimicked_settled (h : Text cfg items labels)
    (hsettled : Settled cfg items labels point pc) :
    Mimicked (textNext name items labels) (textEvents name items labels) (cfg.next name)
      (cfg.events name) (fun pc point => At cfg items labels point pc) frame world pc point := by
  cases hsettled with
  | act hinside =>
    obtain ⟨hacts, hget, hnext⟩ := hinside.next
    refine .alike ?_ ?_
    · exact (events_ofInstrs hget name frame world).trans
        (Instr.events_of_acts hacts name frame world)
    · rw [FlowGraph.next, textNext, next_of_acts hget hacts]
      exact .effect _ (.inl hnext)
  | @jump id front back span hsplit =>
    obtain ⟨front', back', hsplit', hnext, hevents⟩ := h.jump_next hsplit name frame world
    exact .wait hnext hevents (.inr ⟨id, front', _, rfl, hsplit', .inl ⟨back', rfl⟩, rfl⟩)
  | @label id front back label hsplit hlabel =>
    have hget : (text labels items)[(text labels front).length]? = some (.label label) := by
      simp [hsplit, Item.instrs, hlabel]
    have hlength : (text labels (front ++ [.place id])).length =
        (text labels front).length + 1 := by
      simp [Item.instrs, hlabel]
    exact .wait (next_label hget) (events_ofInstrs hget name frame world)
      (.inl (hlength ▸ h.inside hsplit))
  | @ret id front back span span' hnode hsplit =>
    have hget : (text labels items)[(text labels front).length]? = some .ret := by
      simp [hsplit, Item.instrs]
    refine .alike ?_ ?_
    · exact (events_ofInstrs hget name frame world).trans
        (events_of_kind hnode Kind.noConfusion).symm
    · rw [FlowGraph.next, depart_ret hnode, textNext, next_ret hget]
      rfl
  | @branch id onTrue onFalse front tail cond span span' hnode hsucc hsplit hcont =>
    obtain ⟨pcTrue, pcFalse, hnext, hevents, htrue, hfalse⟩ :=
      h.branch_next hsplit hcont name frame world
    refine .alike (hevents.trans (events_branch hnode).symm) ?_
    rw [FlowGraph.next, depart_branch hnode hsucc, hnext]
    exact .choose ⟨rfl, rfl, htrue⟩ ⟨rfl, rfl, hfalse⟩

/-- A graph mimics the text of its layout. -/
theorem Text.mimics_text (h : Text cfg items labels) (name : String) :
    Mimics (textNext name items labels) (textEvents name items labels) (cfg.next name)
      (cfg.events name) (fun pc point => At cfg items labels point pc) := by
  intro pc point frame world hat
  obtain ⟨point', hglides, hsettled⟩ := h.settle hat
  exact ⟨point', hglides, h.mimicked_settled hsettled⟩

end Run

end Layout

variable (hcfg : cfg.Sound) (h : cfg.flatten supply = .done (body, rest))
include hcfg h

/-- The text that a flow graph is laid out as. -/
theorem FlowGraph.text_of_flatten :
    ∃ items labels, Layout.Text cfg items labels ∧ body.code = Layout.text labels items := by
  obtain ⟨layout, labels, hlayout, hmint, rfl⟩ := flatten_eq_done.mp h
  exact ⟨layout.items, labels, Layout.text_of_mint hcfg hlayout hmint, Layout.codeList_stmts _ _⟩

/-- A flow graph and its layout simulate each other. -/
theorem FlowGraph.simulations_of_flatten (name : String) :
    Nonempty (Simulation (.ofGraph name cfg) (.ofCode name (.ofBody body))) ∧
      Nonempty (Simulation (.ofCode name (.ofBody body)) (.ofGraph name cfg)) := by
  obtain ⟨items, labels, htext, hcode⟩ := text_of_flatten hcfg h
  rw [ofBody_eq, hcode]
  have hentry : Layout.At cfg items labels (cfg.arrive cfg.start) 0 := .inr htext.entry
  refine ⟨⟨?_⟩, ⟨?_⟩⟩
  · exact Mimics.simulation (htext.mimics_graph name) hentry
  · exact Mimics.simulation (htext.mimics_text name) hentry

end Flowgraph

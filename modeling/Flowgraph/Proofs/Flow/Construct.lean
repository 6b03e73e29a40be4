import Flowgraph.Proofs.Flow.Backpatch
import Flowgraph.Proofs.Flow.Regular

/-!
# A body and its flow graph

A body in which no label is defined twice and its flow graph simulate each other
(`FlowGraph.simulations_of_ofBody`). Every position of the code has a place, and a place leads to a
node (`Built.Leads`). Labels and jumps move to a position that leads to the same node; any other
instruction is the text of the node at its place (`Standing`).
-/

namespace Flowgraph

open List

variable {builder : Builder} {stmts : List Stmt} {body : Stmt} {instrs : List Instr}
  {places : List NodeId} {cfg : FlowGraph} {dest : NodeId → NodeId} {k : Nat} {place id : NodeId}
  {label : String} {instr : Instr} {span : Span}

open Code FlowGraph

/-! ### Labels that are defined once -/

/-- The labels that a statement defines, with repetitions. -/
def Stmt.definedLabels (stmt : Stmt) : List String :=
  stmt.code.filterMap Instr.defined?

/-- The code of a body, by statements. -/
theorem Stmt.code_eq_codeList (body : Stmt) : body.code = Stmt.codeList body.topLevel := by
  cases body with
  | instr instr span => simp [Stmt.code, Stmt.topLevel, Stmt.codeList]
  | seq body span => rfl

/-- A label that is defined once has the position of its definition. -/
theorem Code.labelPositions_eq {instrs : List Instr} (h : (instrs.filterMap Instr.defined?).Nodup)
    {label : String} {k : Nat} (hk : instrs[k]? = some (.label label)) :
    (labelPositions 0 instrs ∅)[label]? = some k := by
  obtain ⟨hlt, hget⟩ := List.getElem?_eq_some_iff.mp hk
  have hsplit : instrs = instrs.take k ++ .label label :: instrs.drop (k + 1) := by
    rw [← hget, getElem_cons_drop, take_append_drop]
  have hnot : .label label ∉ instrs.drop (k + 1) := by
    intro hmem
    rw [hsplit, filterMap_append, filterMap_cons] at h
    exact (nodup_cons.mp (nodup_append.mp h).2.1).1
      (mem_filterMap.mpr ⟨_, hmem, rfl⟩)
  rw [hsplit, labelPositions_append hnot, length_take, Nat.zero_add,
    Nat.min_eq_left (Nat.le_of_lt hlt)]

namespace Builder

/-! ### Positions and places -/

section

variable (h : Described builder stmts places)
include h

/-- Every instruction has a place. -/
theorem Described.length_eq : places.length = (Stmt.codeList stmts).length + 1 := by
  induction h with
  | nil => rfl
  | cons _ _ ih => simpa [Stmt.codeList, Stmt.code] using ih

/-- The statement of an instruction. -/
theorem Described.exists_stmt (hinstr : (Stmt.codeList stmts)[k]? = some instr) :
    ∃ span, stmts[k]? = some (.instr instr span) := by
  induction h generalizing k with
  | nil => simp [Stmt.codeList] at hinstr
  | @cons first span rest _ _ _ _ _ ih =>
    change (first :: Stmt.codeList rest)[k]? = some instr at hinstr
    cases k with
    | zero =>
      obtain rfl : _ = instr := by simpa using hinstr
      exact ⟨span, rfl⟩
    | succ k => exact ih (by simpa using hinstr)

/-- Statements are their instructions. -/
theorem Described.getElem?_code (hstmt : stmts[k]? = some (.instr instr span)) :
    (Stmt.codeList stmts)[k]? = some instr := by
  induction h generalizing k with
  | nil => simp at hstmt
  | @cons first _ rest _ _ _ _ _ ih =>
    change (first :: Stmt.codeList rest)[k]? = some instr
    cases k with
    | zero =>
      obtain ⟨rfl, -⟩ := Stmt.instr.inj (Option.some.inj hstmt)
      rfl
    | succ k => exact ih (by simpa using hstmt)

/-- Every statement is read at its place. -/
theorem Described.read (hstmt : stmts[k]? = some (.instr instr span))
    (hplace : places[k]? = some place) :
    Read builder ((Stmt.codeList stmts).drop (k + 1)) place (places.drop (k + 1)) span instr := by
  induction h generalizing k with
  | nil => simp at hstmt
  | cons hread hrest ih =>
    cases k with
    | zero =>
      obtain ⟨rfl, rfl⟩ := Stmt.instr.inj (Option.some.inj hstmt)
      obtain rfl : _ = place := by simpa using hplace
      exact hread
    | succ k => exact ih (by simpa using hstmt) (by simpa using hplace)

end

/-- A definition behind a position. -/
theorem Defined.of_drop (h : Defined (instrs.drop (k + 1)) (places.drop (k + 1)) label place) :
    ∃ k', k < k' ∧ instrs[k']? = some (.label label) ∧ places[k']? = some place := by
  obtain ⟨j, hinstr, hplace⟩ := h.position
  rw [getElem?_drop] at hinstr hplace
  exact ⟨k + 1 + j, by omega, hinstr, hplace⟩

/-- A builder that has read a body and leads the start to its first place. -/
structure Recorded (builder : Builder) (body : Stmt) (places : List NodeId) : Prop where
  valid : Valid builder
  described : Described builder body.topLevel places
  labelled : Labelled builder body.code places
  named : ∀ {id : NodeId} {label : String}, (id, label) ∈ builder.pending →
    ∃ instr ∈ body.code, instr.goesTo? = some label
  regular : Regular builder
  opens : builder.cfg.node? builder.cfg.start = some (.start body.span)
  enters : ∃ place, places[0]? = some place ∧
    builder.cfg.outgoing builder.cfg.start = [(place, none)]
  closes : ∃ place, places.getLast? = some place ∧
    builder.cfg.node? place = some (.ret body.span)

section

variable (h : Recorded builder body places)
include h

/-- What the graph holds for the statement at a position. -/
theorem Recorded.read (hstmt : body.topLevel[k]? = some (.instr instr span))
    (hplace : places[k]? = some place) :
    Read builder (body.code.drop (k + 1)) place (places.drop (k + 1)) span instr := by
  rw [Stmt.code_eq_codeList]
  exact h.described.read hstmt hplace

/-- Instructions come from statements. -/
theorem Recorded.exists_stmt (hinstr : body.code[k]? = some instr) :
    ∃ span, body.topLevel[k]? = some (.instr instr span) := by
  rw [Stmt.code_eq_codeList] at hinstr
  exact h.described.exists_stmt hinstr

/-- Instructions of a recorded body. -/
theorem Recorded.getElem?_code (hstmt : body.topLevel[k]? = some (.instr instr span)) :
    body.code[k]? = some instr := by
  rw [Stmt.code_eq_codeList]
  exact h.described.getElem?_code hstmt

/-- Every instruction has a recorded place. -/
theorem Recorded.length_eq : places.length = body.code.length + 1 := by
  rw [Stmt.code_eq_codeList]
  exact h.described.length_eq

/-- Every instruction of a body has a place. -/
theorem Recorded.exists_getElem? (hinstr : body.code[k]? = some instr) :
    ∃ place, places[k]? = some place := by
  have hlt : k < places.length := by
    have hbound := (List.getElem?_eq_some_iff.mp hinstr).1
    rw [h.length_eq]
    omega
  exact ⟨places[k], getElem?_eq_getElem hlt⟩

/-- A label that a body defines has a place. -/
theorem Recorded.exists_place (hlabel : .label label ∈ body.code) :
    ∃ place : NodeId, builder.labels[label]? = some place := by
  obtain ⟨k, hfirst⟩ := exists_firstLabel hlabel
  obtain ⟨place, hplace⟩ := h.exists_getElem? (getElem?_of_firstLabel hfirst)
  exact ⟨place, h.labelled.mpr ⟨k, hfirst, hplace⟩⟩

/-- The end of a body returns. -/
theorem Recorded.last (hplace : places[body.code.length]? = some place) :
    builder.cfg.node? place = some (.ret body.span) := by
  obtain ⟨last, hlast, hnode⟩ := h.closes
  rw [getLast?_eq_getElem?, h.length_eq, Nat.add_sub_cancel, hplace] at hlast
  cases hlast
  exact hnode

end

/-- The builder of a body moreover and the graph that came out. -/
structure Built (builder : Builder) (body : Stmt) (places : List NodeId) (cfg : FlowGraph)
    (dest : NodeId → NodeId) : Prop extends Recorded builder body places where
  resolved : Resolved builder cfg dest
  reached : ∀ {id}, cfg.contains id → cfg.Reaches cfg.start id

section

variable (h : Built builder body places cfg dest)
include h

/-- The start is the start of the builder. -/
theorem Built.node?_start : cfg.node? cfg.start = some (.start body.span) := by
  rw [h.resolved.node h.resolved.sound.start (h.resolved.start ▸ h.valid.sound.start),
    h.resolved.start]
  exact h.opens

/-- The start leads to where the first place leads. -/
theorem Built.entry :
    ∃ place, places[0]? = some place ∧ cfg.outgoing cfg.start = [(dest place, none)] := by
  obtain ⟨place, hplace, hout⟩ := h.enters
  refine ⟨place, hplace, h.resolved.outgoing_one h.resolved.sound.start
    (h.resolved.start ▸ h.valid.sound.start) ?_⟩
  rw [h.resolved.start]
  exact hout

/-- The start leads to the first place. -/
theorem Built.successors_start :
    ∃ place, places[0]? = some place ∧ cfg.successors cfg.start = [dest place] := by
  obtain ⟨place, hplace, hout⟩ := h.entry
  exact ⟨place, hplace, Graph.successors_eq hout⟩

end

/-- The code moreover defines no label twice. -/
structure Unambiguous (builder : Builder) (body : Stmt) (places : List NodeId)
    (cfg : FlowGraph) (dest : NodeId → NodeId) : Prop
    extends Built builder body places cfg dest where
  once : (body.code.filterMap Instr.defined?).Nodup

/-- Passing a stub changes nothing about where a place leads. -/
theorem Leads.next {next : NodeId} (h : Leads builder cfg place id)
    (hpass : Passes builder.labels builder.stubs place next) : Leads builder cfg next id := by
  rcases h with hleads | ⟨hnone, hspin⟩
  · exact .inl (hleads.next hpass)
  · exact .inr ⟨fun last hleads => hnone last (.pass hpass hleads), hspin⟩

/-- A node that is none is not among the stubs. -/
theorem Valid.not_mem_stubIds (h : Valid builder) {node : Node}
    (hnode : builder.cfg.node? id = some node) (hne : ∀ span, node ≠ .stub span) :
    id ∉ builder.stubIds := by
  intro hmem
  obtain ⟨⟨_, label⟩, hentry, rfl⟩ := mem_map.mp hmem
  obtain ⟨span, hstub⟩ := h.stub hentry
  exact hne span (Option.some.inj (hnode.symm.trans hstub))

/-- A place that is a node, and no stub, leads to itself only. -/
theorem Leads.eq_of_node (h : Valid builder) {node : Node} (hleads : Leads builder cfg place id)
    (hnode : builder.cfg.node? place = some node) (hne : ∀ span, node ≠ .stub span) :
    id = place := by
  have hnone := h.stubs_eq_none.mpr (h.not_mem_stubIds hnode hne)
  rcases hleads with hleads | ⟨hnot, -⟩
  · exact hleads.unique (.here hnone)
  · exact absurd (.here hnone) (hnot place)

/-- A code does nothing at a position but to go on at another. -/
def Moves (instrs : List Instr) (k k' : Nat) : Prop :=
  ∀ name frame world, (ofInstrs instrs).next name k frame world = .go k' frame world

/-- What stands at a position and at its place in the builder. -/
inductive Standing (builder : Builder) (instrs : List Instr) (places : List NodeId) (k : Nat)
    (place : NodeId) : Prop where
  | move {k' : Nat} : Moves instrs k k' → k < k' → places[k']? = some place →
      Standing builder instrs places k place
  | stub {k' : Nat} {next : NodeId} : Moves instrs k k' → places[k']? = some next →
      Passes builder.labels builder.stubs place next → Standing builder instrs places k place
  | halt {span : Span} :
      (∀ name frame world,
        (ofInstrs instrs).next name k frame world = .done frame.results) →
      builder.cfg.node? place = some (.ret span) → Standing builder instrs places k place
  | fork {cond : Expr} {span : Span} {k' : Nat} {target next place' : NodeId} :
      (∀ name frame world, (ofInstrs instrs).next name k frame world =
        .choose name frame world cond (.go k' frame world) (.go (k + 1) frame world)) →
      builder.cfg.node? place = some (.branch cond span) →
      builder.cfg.outgoing place = [(target, some true), (next, some false)] →
      places[k']? = some place' →
      (place' = target ∨ Passes builder.labels builder.stubs target place') →
      places[k + 1]? = some next → Standing builder instrs places k place
  | act {instr : Instr} {node : Node} {next : NodeId} :
      (∀ name frame world, (ofInstrs instrs).next name k frame world =
        (instr.effect name frame world).action (k + 1)) →
      builder.cfg.node? place = some node → node.Onward → node.instrs = [instr] →
      builder.cfg.outgoing place = [(next, none)] → places[k + 1]? = some next →
      Standing builder instrs places k place

/-- Where the code goes for a label, and how this relates to the graph. -/
theorem Unambiguous.target (h : Unambiguous builder body places cfg dest) {span : Span}
    (htarget : Target builder (body.code.drop (k + 1)) (places.drop (k + 1)) span label place) :
    ∃ (k' : Nat) (next : NodeId), (∀ name frame world,
        (ofInstrs body.code).goto name label frame world = .go k' frame world) ∧
      places[k']? = some next ∧
      (next = place ∧ k < k' ∨ Passes builder.labels builder.stubs place next) := by
  rcases htarget with hdefined | ⟨-, hentry, -⟩
  · obtain ⟨k', hlt, hinstr, hplace⟩ := hdefined.of_drop
    exact ⟨k', place, fun name frame world =>
      goto_of_target (labelPositions_eq h.once hinstr), hplace, .inl ⟨rfl, hlt⟩⟩
  · obtain ⟨next, hlabel⟩ := h.resolved.labels hentry
    obtain ⟨k', hinstr, hplace⟩ := (h.labelled.mp hlabel).position
    exact ⟨k', next, fun name frame world =>
      goto_of_target (labelPositions_eq h.once hinstr), hplace,
      .inr ⟨label, h.valid.stubs_eq_some.mpr hentry, hlabel⟩⟩

/-- Something stands at every position that has a place. -/
theorem Unambiguous.standing (h : Unambiguous builder body places cfg dest)
    (hplace : places[k]? = some place) : Standing builder body.code places k place := by
  cases hinstr : body.code[k]? with
  | none =>
    have hle : body.code.length ≤ k := by simpa using hinstr
    have hlt : k < places.length := (List.getElem?_eq_some_iff.mp hplace).1
    obtain rfl : k = body.code.length := by
      rw [h.length_eq] at hlt
      omega
    exact .halt (fun name frame world => next_of_length_le hle) (h.last hplace)
  | some instr =>
    obtain ⟨span, hstmt⟩ := h.exists_stmt hinstr
    have hread := h.read hstmt hplace
    have hhead : ∀ {next}, (places.drop (k + 1)).head? = some next → places[k + 1]? = some next :=
      fun hnext => by rwa [head?_drop] at hnext
    cases instr with
    | label name =>
      exact .move (fun name frame world => next_label hinstr) (Nat.lt_succ_self k)
        (hhead hread)
    | jump label =>
      obtain ⟨k', next, hgoto, hnext, ⟨rfl, hlt⟩ | hpass⟩ := h.target hread
      · exact .move (fun name frame world => (next_jump hinstr).trans (hgoto ..)) hlt hnext
      · exact .stub (fun name frame world => (next_jump hinstr).trans (hgoto ..)) hnext hpass
    | branch cond label =>
      obtain ⟨-, target, next, hnode, hnext, hout, htarget⟩ := hread
      obtain ⟨k', place', hgoto, hplace', hor⟩ := h.target htarget
      refine .fork (fun name frame world => ?_) hnode hout hplace' (hor.imp_left And.left)
        (hhead hnext)
      rw [next_branch hinstr, hgoto]
    | ret =>
      exact .halt (fun name frame world => next_ret hinstr) hread.2
    | move | call =>
      obtain ⟨-, node, next, hactor, hnode, hnext, hout⟩ := hread
      exact .act (fun name frame world => next_of_acts hinstr rfl) hnode
        (Instr.onward_of_actor? hactor) (Instr.actor?_cases hactor).1 hout (hhead hnext)

/-! ### Points that match -/

/-- A position matches a point: its place leads to the node at which the graph has arrived, or to
which it is about to go. -/
inductive Match (builder : Builder) (places : List NodeId) (cfg : FlowGraph)
    (dest : NodeId → NodeId) : Nat → Point → Prop where
  | arrived {k : Nat} {place id : NodeId} : places[k]? = some place → cfg.contains id →
      Leads builder cfg place id → Match builder places cfg dest k (cfg.arrive id)
  | leaving {k : Nat} {place id : NodeId} {node : Node} : places[k]? = some place →
      cfg.node? id = some node → node.Onward → cfg.successors id = [dest place] →
      Match builder places cfg dest k ([], id)

section Run

variable {name : String} {frame : Frame} {world : World}

section

variable (h : Built builder body places cfg dest)
include h

/-- The node to which an edge leads. -/
theorem Built.match_dest (hplace : places[k]? = some place)
    (hdest : dest place ∈ cfg.successors id) :
    Match builder places cfg dest k (cfg.arrive (dest place)) := by
  have hlive := h.resolved.sound.graph.contains_successor hdest
  exact .arrived hplace hlive
    (h.resolved.leads h.valid hlive)

/-- The way for which a label of the code stands. -/
theorem Built.match_target {target : NodeId} (hplace : places[k]? = some place)
    (hor : place = target ∨ Passes builder.labels builder.stubs target place)
    (hlive : builder.cfg.contains target) (hdest : dest target ∈ cfg.successors id) :
    Match builder places cfg dest k (cfg.arrive (dest target)) := by
  rcases hor with rfl | hpass
  · exact h.match_dest hplace hdest
  · have hcontains := h.resolved.sound.graph.contains_successor hdest
    exact .arrived hplace hcontains ((h.resolved.leads h.valid hcontains).next hpass)

/-- The run starts at the first place. -/
theorem Built.entry_match : Match builder places cfg dest 0 (cfg.arrive cfg.start) := by
  obtain ⟨place, hplace, hsucc⟩ := h.successors_start
  have hstart := h.node?_start
  rw [arrive_eq hstart]
  exact .leaving hplace hstart (by simp [Node.Onward, Node.kind]) hsucc

variable (hid : cfg.contains place)
include hid

/-- A node of the builder that the graph has kept. -/
theorem Built.node_eq {node : Node} (hnode : builder.cfg.node? place = some node) :
    cfg.node? place = some node :=
  (h.resolved.node hid (Graph.contains_of_payload? hnode)).trans hnode

/-- The ways out of a condition that the graph has kept. -/
theorem Built.fork_successors {cond : Expr} {span : Span} {target next : NodeId}
    (hnode : builder.cfg.node? place = some (.branch cond span))
    (hout : builder.cfg.outgoing place = [(target, some true), (next, some false)]) :
    cfg.node? place = some (.branch cond span) ∧ cfg.successors place = [dest target, dest next] ∧
      builder.cfg.contains target ∧ dest target ∈ cfg.successors place ∧
      dest next ∈ cfg.successors place := by
  have hsucc := h.resolved.successors_two hid (Graph.contains_of_payload? hnode) hout
  have hlink : (target, some true) ∈ builder.cfg.outgoing place := by simp [hout]
  exact ⟨h.node_eq hid hnode, hsucc, h.valid.sound.graph.contains_target hlink, by simp [hsucc],
    by simp [hsucc]⟩

/-- The way out of a node that goes on. -/
theorem Built.leaving_match {node : Node} {next : NodeId}
    (hnode : builder.cfg.node? place = some node) (honward : node.Onward)
    (hout : builder.cfg.outgoing place = [(next, none)]) (hnext : places[k]? = some next) :
    Match builder places cfg dest k ([], place) :=
  .leaving hnext (h.node_eq hid hnode) honward
    (h.resolved.successors_one hid (Graph.contains_of_payload? hnode) hout)

end

/-! ### From the code to the graph -/

/-- Code and graph are at matching points with the same frame. -/
def codeRel (name : String) (builder : Builder) (instrs : List Instr) (places : List NodeId)
    (cfg : FlowGraph) (dest : NodeId → NodeId) :
    PointRel (.ofCode name (.ofInstrs instrs)) (.ofGraph name cfg) :=
  fun k frame point frame' => frame = frame' ∧ Match builder places cfg dest k point

/-- The graph answers the code at a node where it has arrived. -/
theorem Unambiguous.answer_code (h : Unambiguous builder body places cfg dest)
    (hplace : places[k]? = some place) (hid : cfg.contains id)
    (hleads : Leads builder cfg place id) :
    Answered (codeRel name builder body.code places cfg dest) frame world (cfg.arrive id) frame
      ((ofInstrs body.code).next name k frame world) := by
  cases h.standing hplace with
  | move hmoves _ hnext =>
    rw [hmoves]
    exact ⟨_, frame, .refl, rfl, .arrived hnext hid hleads⟩
  | stub hmoves hnext hpass =>
    rw [hmoves]
    exact ⟨_, frame, .refl, rfl, .arrived hnext hid (hleads.next hpass)⟩
  | halt hdone hnode =>
    obtain rfl := hleads.eq_of_node h.valid hnode (by simp)
    have hret := h.node_eq hid hnode
    rw [hdone, arrive_eq hret]
    exact ⟨_, frame, .refl, depart_ret hret⟩
  | fork hfork hnode hout htarget hor hnext =>
    obtain rfl := hleads.eq_of_node h.valid hnode (by simp)
    obtain ⟨hbranch, hsucc, hlive, htrue', hfalse'⟩ := h.fork_successors hid hnode hout
    rw [hfork, arrive_eq hbranch]
    refine .choose (depart_branch hbranch hsucc) (fun htrue => ?_) (fun hfalse => ?_)
    · exact ⟨_, frame, .single htrue, rfl, h.match_target htarget hor hlive htrue'⟩
    · exact ⟨_, frame, .single hfalse, rfl, h.match_dest hnext hfalse'⟩
  | act hact hnode honward hinstrs hout hnext =>
    obtain rfl := hleads.eq_of_node h.valid hnode fun span heq => by
      simp [heq, Node.instrs] at hinstrs
    rw [hact, arrive_eq (h.node_eq hid hnode), hinstrs]
    exact .effect rfl fun after => ⟨rfl, h.leaving_match hid hnode honward hout hnext⟩

/-- The graph of a body simulates its code. -/
def Unambiguous.code_graph (h : Unambiguous builder body places cfg dest) (name : String) :
    Simulation (.ofCode name (.ofInstrs body.code)) (.ofGraph name cfg) where
  rel := codeRel name builder body.code places cfg dest
  entry _ := ⟨rfl, h.entry_match⟩
  step {k frame point frame'} world hrel := by
    obtain ⟨rfl, hmatch⟩ := hrel
    cases hmatch with
    | arrived hplace hid hleads => exact h.answer_code hplace hid hleads
    | leaving hplace hnode honward hsucc =>
      have hlive := h.resolved.sound.graph.contains_successor
        (show dest _ ∈ cfg.successors _ from hsucc ▸ mem_singleton_self _)
      exact .of_steps (.single (depart_onward hnode honward hsucc))
        (h.answer_code hplace hlive (h.resolved.leads h.valid hlive))

/-! ### From the graph to the code -/

/-- Graph and code are at matching points with the same frame. -/
def builtRel (name : String) (builder : Builder) (instrs : List Instr) (places : List NodeId)
    (cfg : FlowGraph) (dest : NodeId → NodeId) :
    PointRel (.ofGraph name cfg) (.ofCode name (.ofInstrs instrs)) :=
  fun point frame k frame' => frame = frame' ∧ Match builder places cfg dest k point

section

variable (h : Unambiguous builder body places cfg dest) (hid : cfg.contains id)
include h hid

/-- The code answers the graph at a node from any position that leads there, if it does so from
behind a stub. -/
theorem Unambiguous.answer_graph_of (hleads : Leads builder cfg place id)
    (hstub : ∀ {k' : Nat} {next : NodeId}, places[k']? = some next →
      Passes builder.labels builder.stubs place next →
      Answered (builtRel name builder body.code places cfg dest) frame world k' frame
        (cfg.next name (cfg.arrive id) frame world)) (hplace : places[k]? = some place) :
    Answered (builtRel name builder body.code places cfg dest) frame world k frame
      (cfg.next name (cfg.arrive id) frame world) := by
  -- what moves on without passing a stub moves forward in the code
  induction hsize : places.length - k using Nat.strongRecOn generalizing k with
  | ind size ih =>
    cases h.standing hplace with
    | @move k' hmoves hlt hnext =>
      have hbound : k < places.length := (List.getElem?_eq_some_iff.mp hplace).1
      exact .of_steps (.single (hmoves ..)) (ih _ (by omega) hnext rfl)
    | stub hmoves hnext hpass => exact .of_steps (.single (hmoves ..)) (hstub hnext hpass)
    | halt hdone hnode =>
      obtain rfl := hleads.eq_of_node h.valid hnode (by simp)
      have hret := h.node_eq hid hnode
      rw [next_arrive hret rfl, depart_ret hret]
      exact ⟨_, frame, .refl, hdone ..⟩
    | fork hfork hnode hout htarget hor hnext =>
      obtain rfl := hleads.eq_of_node h.valid hnode (by simp)
      obtain ⟨hbranch, hsucc, hlive, htrue', hfalse'⟩ := h.fork_successors hid hnode hout
      rw [next_arrive hbranch rfl, depart_branch hbranch hsucc]
      refine .choose (hfork ..) (fun htrue => ?_) (fun hfalse => ?_)
      · exact ⟨_, frame, .single htrue, rfl, h.match_target htarget hor hlive htrue'⟩
      · exact ⟨_, frame, .single hfalse, rfl, h.match_dest hnext hfalse'⟩
    | act hact hnode honward hinstrs hout hnext =>
      obtain rfl := hleads.eq_of_node h.valid hnode fun span heq => by
        simp [heq, Node.instrs] at hinstrs
      rw [arrive_eq (h.node_eq hid hnode), hinstrs, FlowGraph.next]
      exact .effect (hact ..) fun after => ⟨rfl, h.leaving_match hid hnode honward hout hnext⟩

/-- The code answers the graph at a node to which its place leads. -/
theorem Unambiguous.answer_graph (hleads : LeadsTo builder place id)
    (hplace : places[k]? = some place) :
    Answered (builtRel name builder body.code places cfg dest) frame world k frame
      (cfg.next name (cfg.arrive id) frame world) := by
  induction hleads generalizing k with
  | here hnone =>
    refine h.answer_graph_of hid (.inl (.here hnone)) (fun _ hpass => ?_) hplace
    obtain ⟨label, hstub, -⟩ := hpass
    simp [hnone] at hstub
  | pass hpass hrest ih =>
    refine h.answer_graph_of hid (.inl (.pass hpass hrest)) (fun hnext hpass' => ?_) hplace
    exact ih hid (hpass.unique hpass' ▸ hnext)

end

/-- The code waits while the graph goes to the node. -/
theorem Built.answer_leaving (h : Built builder body places cfg dest) {node : Node}
    (hplace : places[k]? = some place) (hnode : cfg.node? id = some node) (honward : node.Onward)
    (hsucc : cfg.successors id = [dest place]) :
    Answered (builtRel name builder body.code places cfg dest) frame world k frame
      (cfg.next name ([], id) frame world) := by
  rw [FlowGraph.next, depart_onward hnode honward hsucc]
  exact ⟨k, frame, .refl, rfl, h.match_dest hplace (hsucc ▸ mem_singleton_self _)⟩

/-- The code waits while the graph spins. -/
theorem answer_spin {span : Span} (hspin : cfg.node? id = some (.spin span))
    (hmatch : Match builder places cfg dest k (cfg.arrive id)) :
    Answered (builtRel name builder body.code places cfg dest) frame world k frame
      (cfg.next name (cfg.arrive id) frame world) := by
  rw [next_arrive hspin rfl, depart_spin hspin]
  exact ⟨k, frame, .refl, rfl, hmatch⟩

/-- The code of a body simulates its graph. -/
def Unambiguous.graph_code (h : Unambiguous builder body places cfg dest) (name : String) :
    Simulation (.ofGraph name cfg) (.ofCode name (.ofInstrs body.code)) where
  rel := builtRel name builder body.code places cfg dest
  entry _ := ⟨rfl, h.entry_match⟩
  step {point frame k frame'} world hrel := by
    obtain ⟨rfl, hmatch⟩ := hrel
    cases hmatch with
    | leaving hplace hnode honward hsucc => exact h.answer_leaving hplace hnode honward hsucc
    | arrived hplace hid hleads =>
      rcases hleads with hleads | ⟨hnone, span, hspin⟩
      · exact h.answer_graph hid hleads hplace
      · exact answer_spin hspin (.arrived hplace hid (.inr ⟨hnone, span, hspin⟩))

end Run

end Builder

/-! ### The graph of a body -/

/-- Whether the builder can read a statement: it is an instruction, and moves only to temporaries or
memory. -/
def Stmt.isReadable : Stmt → Bool
  | .instr (.move (.temp _) _) _ | .instr (.move (.mem _) _) _ => true
  | .instr (.move _ _) _ | .seq _ _ => false
  | .instr _ _ => true

/-- Readable statements are read. -/
theorem Builder.exists_visitAll (builder : Builder) (successor : NodeId) {stmts : List Stmt}
    (h : ∀ stmt ∈ stmts, stmt.isReadable) :
    ∃ read, builder.visitAll successor stmts = .ok read := by
  induction stmts with
  | nil => exact ⟨_, rfl⟩
  | cons stmt rest ih =>
    obtain ⟨hfirst, hrest⟩ := forall_mem_cons.mp h
    obtain ⟨⟨read, place⟩, hread⟩ := ih hrest
    simp only [Builder.visitAll, hread]
    cases stmt with
    | seq => cases hfirst
    | instr instr span =>
      cases instr with
      | move target source =>
        cases target with
        | temp | mem => exact ⟨_, rfl⟩
        | const | binary | symbol => cases hfirst
      | call | jump | branch | label | ret => exact ⟨_, rfl⟩

namespace FlowGraph

/-- The builder at the beginning. -/
theorem valid_opening (span : Span) : Builder.Valid { cfg := .ofStart span } :=
  ⟨.ofStart _, ⟨span, rfl⟩, by simp, by simp, by simp⟩

/-- The builder of a body, with the edge that leaves the start. -/
theorem recorded_of_visitAll {builder : Builder} {entry : NodeId}
    (hvisit : (Builder.insert { cfg := .ofStart body.span } (.ret body.span)).visitAll
      (FlowGraph.ofStart body.span).nextId body.topLevel = .ok (builder, entry)) :
    ∃ places,
      Builder.Recorded (builder.addEdge ⟨builder.cfg.start, entry, none⟩) body places := by
  have hopening := (valid_opening body.span).insert (.ret body.span)
  obtain ⟨places, hdescribed, hextended, hlast⟩ :=
    Builder.described_of_visitAll hopening rfl (Builder.node?_insert _ _) hvisit
  obtain ⟨hregular, hentry⟩ := (Builder.Regular.opening body.span).visitAll hopening rfl
    (Builder.node?_insert _ _) hvisit
  have hvalid := hextended.valid
  have hgrows := hextended.grows
  have hlabelled : builder.Labelled body.code (entry :: places) := by
    rw [Stmt.code_eq_codeList]
    exact hextended.labelled
  refine ⟨entry :: places, hvalid.addEdge hvalid.sound.start (hextended.live _ mem_cons_self),
    hdescribed.keeps hvalid (.enter builder entry), hlabelled, fun hentry => ?_,
    hregular.enter hvalid hentry, ?_, ⟨entry, rfl, ?_⟩, _, hlast, ?_⟩
  · rw [Stmt.code_eq_codeList]
    exact (hextended.named hentry).resolve_left not_mem_nil
  · rw [Builder.node?_addEdge]
    show builder.cfg.node? builder.cfg.start = _
    rw [hgrows.start, hgrows.node hopening.sound.start]
    rfl
  · refine Graph.outgoing_addEdge_first hvalid.sound.start ?_
    rw [hgrows.start]
    exact hgrows.outgoing hopening.sound.start
  · rw [Builder.node?_addEdge, hgrows.node (Graph.contains_of_payload? (Builder.node?_insert _ _))]
    exact Builder.node?_insert _ _

/-- A graph that was made from a body. -/
theorem built_of_ofBody (h : ofBody body = .ok cfg) :
    ∃ builder places dest, Builder.Built builder body places cfg dest := by
  rw [ofBody] at h
  split at h
  · cases h
  next builder entry hvisit =>
  split at h
  · cases h
  next patched hpatched =>
  cases h
  obtain ⟨places, hrecorded⟩ := recorded_of_visitAll hvisit
  obtain ⟨dest, hpatch⟩ := Builder.backpatch_spec hrecorded.valid hpatched
  exact ⟨_, places, dest, hrecorded, hpatch.clean,
    fun hid => hpatch.sound.reaches_clean (hpatch.sound.contains_clean.mp hid).1⟩

/-- A body has a graph if it can be read and defines its labels. -/
theorem exists_ofBody (hreadable : ∀ stmt ∈ body.topLevel, stmt.isReadable)
    (hlabels : ∀ instr ∈ body.code, ∀ label, instr.goesTo? = some label →
      .label label ∈ body.code) : ∃ cfg, ofBody body = .ok cfg := by
  obtain ⟨⟨builder, entry⟩, hvisit⟩ := Builder.exists_visitAll
    (Builder.insert { cfg := .ofStart body.span } (.ret body.span)) (ofStart body.span).nextId
    hreadable
  obtain ⟨places, hrecorded⟩ := recorded_of_visitAll hvisit
  obtain ⟨cfg, hcfg⟩ := hrecorded.valid.exists_backpatch fun hentry => by
    obtain ⟨instr, hinstr, hgoes⟩ := hrecorded.named hentry
    exact hrecorded.exists_place (hlabels instr hinstr _ hgoes)
  simp only [ofBody, hvisit, hcfg]
  exact ⟨_, rfl⟩

/-- Constructed graphs are sound. -/
theorem Sound.ofBody (h : FlowGraph.ofBody body = .ok cfg) : cfg.Sound := by
  obtain ⟨builder, places, dest, hbuilt⟩ := built_of_ofBody h
  exact hbuilt.resolved.sound

/-- A body that defines no label twice and its flow graph simulate each other. -/
theorem simulations_of_ofBody (h : ofBody body = .ok cfg) (honce : body.definedLabels.Nodup)
    (name : String) :
    Nonempty (Simulation (.ofCode name (.ofBody body)) (.ofGraph name cfg)) ∧
      Nonempty (Simulation (.ofGraph name cfg) (.ofCode name (.ofBody body))) := by
  obtain ⟨builder, places, dest, hbuilt⟩ := built_of_ofBody h
  have hboth : Builder.Unambiguous builder body places cfg dest := ⟨hbuilt, honce⟩
  exact ⟨⟨hboth.code_graph name⟩, ⟨hboth.graph_code name⟩⟩

end FlowGraph

end Flowgraph

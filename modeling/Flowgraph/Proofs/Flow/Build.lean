import Flowgraph.Flow.Build
import Flowgraph.Proofs.Flow.Sound
import Flowgraph.Proofs.Semantics.Graph

/-!
# Reading a body

`Builder.Valid` holds at any moment, `Builder.Grows` says that reading on keeps the nodes that are
there, and `Builder.Described` what the graph holds for the statements read: a place for each
position and one for the end. The place of an instruction that acts is a new node with an edge to
the next place; a label has the place of what follows it, and a jump that of its label, or a pending
stub. `Builder.described_of_visitAll` is about a whole body.
-/

namespace Flowgraph

open List

variable {instr : Instr} {span : Span} {edge : Edge}

open FlowGraph Graph

namespace Instr

/-- The label that an instruction defines. -/
def defined? : Instr → Option String
  | label name => some name
  | _ => none

/-- The label to which an instruction may go. -/
def goesTo? : Instr → Option String
  | jump name => some name
  | branch _ name => some name
  | _ => none

/-- The node of an instruction that acts on the program's state. -/
def actor? (span : Span) : Instr → Option Node
  | move (.temp name) source => some (.assign name source span)
  | move (.mem address) source => some (.store address source span)
  | call collectors callee args => some (.call collectors callee args span)
  | _ => none

section Actor

variable {node : Node}

/-- Actors hold one instruction. -/
theorem actor?_cases (h : instr.actor? span = some node) :
    node.instrs = [instr] ∧ node.kind ∈ [.assign, .store, .call] := by
  cases instr with
  | move target source =>
    cases target with
    | temp | mem =>
      cases h
      exact ⟨rfl, by simp [Node.kind]⟩
    | const | binary | symbol => cases h
  | call =>
    cases h
    exact ⟨rfl, by simp [Node.kind]⟩
  | jump | branch | label | ret => cases h

/-- Actors go on. -/
theorem onward_of_actor? (h : instr.actor? span = some node) : node.Onward := by
  have hkind := (actor?_cases h).2
  unfold Node.Onward
  generalize node.kind = kind at hkind
  cases kind <;> simp_all

end Actor

end Instr

namespace Graph

variable {α : Type} {g : Graph α}

/-- The first edge that leaves a live node. -/
theorem outgoing_addEdge_first (hlive : g.contains edge.source)
    (hnone : g.outgoing edge.source = []) :
    (g.addEdge edge).outgoing edge.source = [(edge.target, edge.label)] := by
  have hnew : g.hasEdge edge = false := by simp [hasEdge, hnone]
  rw [outgoing_addEdge g edge _ hnew, if_pos ⟨rfl, hlive⟩, hnone]
  simp [addOutgoing]

/-- A further edge that leaves a live node. -/
theorem outgoing_addEdge_last (hlive : g.contains edge.source)
    (hnew : (edge.target, edge.label) ∉ g.outgoing edge.source) (hlabel : edge.label ≠ some true) :
    (g.addEdge edge).outgoing edge.source =
      g.outgoing edge.source ++ [(edge.target, edge.label)] := by
  have hfalse : g.hasEdge edge = false := (Bool.not_eq_true _).mp fun h => hnew (hasEdge_iff.mp h)
  rw [outgoing_addEdge g edge _ hfalse, if_pos ⟨rfl, hlive⟩, addOutgoing, if_neg hlabel]

end Graph

namespace Builder

variable {builder builder' : Builder} {instrs : List Instr} {places : List NodeId} {label : String}
  {place : NodeId} {first : NodeId}

/-! ### What holds of a builder -/

/-- The graph is sound, labels and stubs are live, and stubs have one label. -/
structure Valid (builder : Builder) : Prop where
  sound : builder.cfg.Sound
  start : ∃ span, builder.cfg.node? builder.cfg.start = some (.start span)
  labels : ∀ {label : String} {place : NodeId}, builder.labels[label]? = some place →
    builder.cfg.contains place
  stub : ∀ {stub : NodeId} {label : String}, (stub, label) ∈ builder.pending →
    ∃ span, builder.cfg.node? stub = some (.stub span)
  nodup : (builder.pending.map Prod.fst).Nodup

/-- Reading on keeps the nodes with their edges, and all stubs. -/
structure Grows (builder builder' : Builder) : Prop where
  start : builder'.cfg.start = builder.cfg.start
  live : ∀ {id}, builder.cfg.contains id → builder'.cfg.contains id
  node : ∀ {id}, builder.cfg.contains id → builder'.cfg.node? id = builder.cfg.node? id
  outgoing : ∀ {id}, builder.cfg.contains id →
    builder'.cfg.outgoing id = builder.cfg.outgoing id
  pending : ∀ {entry}, entry ∈ builder.pending → entry ∈ builder'.pending

/-- Nothing is read. -/
theorem Grows.refl : Grows builder builder :=
  ⟨rfl, id, fun _ => rfl, fun _ => rfl, id⟩

/-- Readings compose. -/
theorem Grows.trans {builder'' : Builder} (h : Grows builder builder')
    (h' : Grows builder' builder'') : Grows builder builder'' where
  start := h'.start.trans h.start
  live hid := h'.live (h.live hid)
  node hid := (h'.node (h.live hid)).trans (h.node hid)
  outgoing hid := (h'.outgoing (h.live hid)).trans (h.outgoing hid)
  pending hentry := h'.pending (h.pending hentry)

/-- Nodes but the start keep text and edges, and stubs stay pending. -/
structure Keeps (builder builder' : Builder) : Prop where
  node : ∀ {id}, builder.cfg.contains id → builder'.cfg.node? id = builder.cfg.node? id
  outgoing : ∀ {id}, builder.cfg.contains id → id ≠ builder.cfg.start →
    builder'.cfg.outgoing id = builder.cfg.outgoing id
  pending : ∀ {entry}, entry ∈ builder.pending → entry ∈ builder'.pending

/-- Growing keeps what was read. -/
theorem Grows.keeps (h : Grows builder builder') : Keeps builder builder' :=
  ⟨h.node, fun hid _ => h.outgoing hid, h.pending⟩

/-- The edge that leaves the start. -/
theorem Keeps.enter (builder : Builder) (target : NodeId) :
    Keeps builder (builder.addEdge ⟨builder.cfg.start, target, none⟩) where
  node _ := by simp [Builder.addEdge, withGraph, FlowGraph.node?]
  outgoing _ hne := outgoing_addEdge_of_ne (Ne.symm hne)
  pending := id

/-- Insertion grows. -/
theorem Grows.insert (builder : Builder) (node : Node) : Grows builder (builder.insert node) where
  start := rfl
  live hid := by simp [Builder.insert, withGraph, Graph.contains_insert, hid]
  node hid := by
    simp [Builder.insert, withGraph, FlowGraph.node?, payload?_insert,
      ne_nextId_of_contains hid]
  outgoing hid := by simp [Builder.insert, withGraph]
  pending := id

/-- An edge that leaves a new node changes nothing about the others. -/
theorem Grows.addEdge (h : Grows builder builder')
    (hsource : builder.cfg.contains edge.source = false) :
    Grows builder (builder'.addEdge edge) where
  start := h.start
  live hid := by simpa [Builder.addEdge, withGraph] using h.live hid
  node hid := by simpa [Builder.addEdge, withGraph, FlowGraph.node?] using h.node hid
  outgoing {id} hid := by
    have hne : edge.source ≠ id := by
      rintro rfl
      simp [hsource] at hid
    rw [← h.outgoing hid]
    exact outgoing_addEdge_of_ne hne
  pending := h.pending

/-- Insertion keeps a builder valid. -/
theorem Valid.insert (h : Valid builder) (node : Node) : Valid (builder.insert node) where
  sound := h.sound.grown (h.sound.grown_insert node)
  start := by
    obtain ⟨span, hspan⟩ := h.start
    exact ⟨span, ((Grows.insert builder node).node h.sound.start).trans hspan⟩
  labels hlabel := (Grows.insert builder node).live (h.labels hlabel)
  stub hentry := by
    obtain ⟨span, hspan⟩ := h.stub hentry
    exact ⟨span, ((Grows.insert builder node).node (contains_of_payload? hspan)).trans hspan⟩
  nodup := h.nodup

/-- Edges keep a builder valid. -/
theorem Valid.addEdge (h : Valid builder) (hsource : builder.cfg.contains edge.source)
    (htarget : builder.cfg.contains edge.target) : Valid (builder.addEdge edge) where
  sound := h.sound.grown ((Grown.refl h.sound.graph).addEdge hsource htarget)
  start := by simpa [Builder.addEdge, withGraph, FlowGraph.node?] using h.start
  labels hlabel := by simpa [Builder.addEdge, withGraph] using h.labels hlabel
  stub hentry := by
    simpa [Builder.addEdge, withGraph, FlowGraph.node?] using h.stub hentry
  nodup := h.nodup

/-- A node that is no start node is not the start. -/
theorem Valid.ne_start (h : Valid builder) {id : NodeId} {node : Node}
    (hnode : builder.cfg.node? id = some node) (hne : ∀ span, node ≠ .start span) :
    id ≠ builder.cfg.start := by
  rintro rfl
  obtain ⟨span, hstart⟩ := h.start
  exact hne span (Option.some.inj (hnode.symm.trans hstart))

/-! ### Where labels are defined -/

/-- The position at which a label is defined first. -/
def firstLabel (label : String) (instrs : List Instr) : Option Nat :=
  instrs.findIdx? fun instr => instr.defined? == some label

section FirstLabel

/-- The label comes first. -/
theorem firstLabel_cons_self : firstLabel label (.label label :: instrs) = some 0 := by
  simp [firstLabel, Instr.defined?, findIdx?_cons]

/-- Another instruction comes first. -/
theorem firstLabel_cons_of_ne (h : instr.defined? ≠ some label) :
    firstLabel label (instr :: instrs) = (firstLabel label instrs).map (· + 1) := by
  simp [firstLabel, findIdx?_cons, h]

/-- The first place of a label defines it. -/
theorem getElem?_of_firstLabel {k : Nat} (h : firstLabel label instrs = some k) :
    instrs[k]? = some (.label label) := by
  obtain ⟨hlt, hfound, -⟩ := findIdx?_eq_some_iff_getElem.mp h
  have hdefined : instrs[k].defined? = some label := by simpa using hfound
  rw [getElem?_eq_getElem hlt]
  cases hinstr : instrs[k] with
  | label name =>
    rw [hinstr] at hdefined
    exact congrArg (fun name => some (Instr.label name)) (Option.some.inj hdefined)
  | move | call | jump | branch | ret =>
    rw [hinstr] at hdefined
    cases hdefined

/-- Defined labels have a first place. -/
theorem exists_firstLabel (h : .label label ∈ instrs) : ∃ k, firstLabel label instrs = some k := by
  rw [← Option.isSome_iff_exists, firstLabel, findIdx?_isSome]
  exact any_eq_true.mpr ⟨_, h, by simp [Instr.defined?]⟩

end FirstLabel

/-- A place stands at the first definition of a label read so far. -/
def Defined (instrs : List Instr) (places : List NodeId) (label : String) (place : NodeId) : Prop :=
  ∃ k : Nat, firstLabel label instrs = some k ∧ places[k]? = some place

/-- The labels of a builder stand where they are defined first. -/
def Labelled (builder : Builder) (instrs : List Instr) (places : List NodeId) : Prop :=
  ∀ {label : String} {place : NodeId}, builder.labels[label]? = some place ↔
    Defined instrs places label place

/-- Defined labels stand at their place. -/
theorem Defined.position (h : Defined instrs places label place) :
    ∃ k : Nat, instrs[k]? = some (.label label) ∧ places[k]? = some place := by
  obtain ⟨k, hfirst, hplace⟩ := h
  exact ⟨k, getElem?_of_firstLabel hfirst, hplace⟩

/-- An instruction leaves the labels alone that it does not define. -/
theorem defined_cons_iff (h : instr.defined? ≠ some label) :
    Defined (instr :: instrs) (first :: places) label place ↔
      Defined instrs places label place := by
  simp only [Defined, firstLabel_cons_of_ne h, Option.map_eq_some_iff]
  constructor
  · intro ⟨k, ⟨j, hfirst, hk⟩, hplace⟩
    subst hk
    exact ⟨j, hfirst, by simpa using hplace⟩
  · intro ⟨k, hfirst, hplace⟩
    exact ⟨k + 1, ⟨k, hfirst, rfl⟩, by simpa using hplace⟩

/-- A label in front is the first definition of its name. -/
theorem defined_cons_self :
    Defined (.label label :: instrs) (first :: places) label place ↔ place = first := by
  simp [Defined, firstLabel_cons_self, eq_comm]

/-! ### Reading one instruction -/

/-- A jump leads to the definition of its label, or to a new stub. -/
def Target (builder : Builder) (instrs : List Instr) (places : List NodeId) (span : Span)
    (label : String) (place : NodeId) : Prop :=
  Defined instrs places label place ∨ place ∉ places ∧ (place, label) ∈ builder.pending ∧
    builder.cfg.node? place = some (.stub span) ∧ ∀ other, ¬ Defined instrs places label other

/-- What the graph holds for an instruction, where `places` are those of the `rest` behind it. An
instruction that becomes a node becomes a new one. -/
def Read (builder : Builder) (rest : List Instr) (place : NodeId) (places : List NodeId)
    (span : Span) : Instr → Prop
  | .label _ => places.head? = some place
  | .jump label => Target builder rest places span label place
  | .branch cond label => place ∉ places ∧ ∃ target next,
      builder.cfg.node? place = some (.branch cond span) ∧ places.head? = some next ∧
      builder.cfg.outgoing place = [(target, some true), (next, some false)] ∧
      Target builder rest places span label target
  | .ret => place ∉ places ∧ builder.cfg.node? place = some (.ret span)
  | instr => place ∉ places ∧ ∃ node next, instr.actor? span = some node ∧
      builder.cfg.node? place = some node ∧ places.head? = some next ∧
      builder.cfg.outgoing place = [(next, none)]

/-- Targets are kept. -/
theorem Target.keeps (h : Target builder instrs places span label place)
    (hkeeps : Keeps builder builder') : Target builder' instrs places span label place := by
  refine h.imp_right fun ⟨hfresh, hentry, hnode, hnone⟩ =>
    ⟨hfresh, hkeeps.pending hentry, ?_, hnone⟩
  exact (hkeeps.node (contains_of_payload? hnode)).trans hnode

/-- What was read stays as it is. -/
theorem Read.keeps {rest : List Instr} {place : NodeId} {places : List NodeId} {span : Span}
    {instr : Instr} (h : Read builder rest place places span instr) (hvalid : Valid builder)
    (hkeeps : Keeps builder builder') : Read builder' rest place places span instr := by
  cases instr with
  | label name => exact h
  | jump label => exact Target.keeps h hkeeps
  | branch cond label =>
    obtain ⟨hfresh, target, next, hnode, hnext, hout, htarget⟩ := h
    have hlive := contains_of_payload? hnode
    have hne := hvalid.ne_start hnode (by simp)
    exact ⟨hfresh, target, next, (hkeeps.node hlive).trans hnode, hnext,
      (hkeeps.outgoing hlive hne).trans hout, htarget.keeps hkeeps⟩
  | ret =>
    obtain ⟨hfresh, hnode⟩ := h
    exact ⟨hfresh, (hkeeps.node (contains_of_payload? hnode)).trans hnode⟩
  | move | call =>
    obtain ⟨hfresh, node, next, hactor, hnode, hnext, hout⟩ := h
    have hlive := contains_of_payload? hnode
    have hne := hvalid.ne_start hnode fun span heq => by
      have hinstrs := (Instr.actor?_cases hactor).1
      simp [heq, Node.instrs] at hinstrs
    exact ⟨hfresh, node, next, hactor, (hkeeps.node hlive).trans hnode, hnext,
      (hkeeps.outgoing hlive hne).trans hout⟩

/-- What the graph holds for an instruction that acts. -/
theorem Read.actor {rest : List Instr} {node : Node} (h : Read builder rest place places span instr)
    (hactor : instr.actor? span = some node) :
    place ∉ places ∧ builder.cfg.node? place = some node ∧ ∃ next, places.head? = some next ∧
      builder.cfg.outgoing place = [(next, none)] := by
  cases instr with
  | move | call =>
    obtain ⟨hfresh, other, next, hother, hnode, hnext, hout⟩ := h
    obtain rfl := Option.some.inj (hactor.symm.trans hother)
    exact ⟨hfresh, hnode, next, hnext, hout⟩
  | jump | branch | label | ret => cases hactor

/-- What reading instructions in front of a place does. -/
structure Extended (builder : Builder) (instrs : List Instr) (places : List NodeId)
    (builder' : Builder) (place : NodeId) : Prop where
  valid : Valid builder'
  grows : Grows builder builder'
  live : ∀ other ∈ place :: places, builder'.cfg.contains other
  labelled : Labelled builder' instrs (place :: places)
  named : ∀ {id : NodeId} {label : String}, (id, label) ∈ builder'.pending →
    (id, label) ∈ builder.pending ∨ ∃ instr ∈ instrs, instr.goesTo? = some label

/-- Insertion adds one node. -/
@[simp] theorem contains_insert (builder : Builder) (node : Node) (id : NodeId) :
    (builder.insert node).cfg.contains id = (decide (id = builder.cfg.nextId) ||
      builder.cfg.contains id) :=
  Graph.contains_insert ..

/-- Edges add no node. -/
@[simp] theorem contains_addEdge (builder : Builder) (edge : Edge) (id : NodeId) :
    (builder.addEdge edge).cfg.contains id = builder.cfg.contains id :=
  Graph.contains_addEdge ..

/-- The node inserted is found. -/
theorem node?_insert (builder : Builder) (node : Node) :
    (builder.insert node).cfg.node? builder.cfg.nextId = some node := by
  simp [Builder.insert, withGraph, FlowGraph.node?, payload?_insert]

/-- The node inserted has no links. -/
theorem outgoing_insert_nextId (builder : Builder) (node : Node) :
    (builder.insert node).cfg.outgoing builder.cfg.nextId = [] := by
  simp [Builder.insert, withGraph, outgoing_eq_nil]

section Visit

variable {rest : List Instr} {next : NodeId}

/-- One more instruction without a label. -/
theorem Labelled.cons (h : Labelled builder rest places)
    (hlabels : builder'.labels = builder.labels) (hnone : instr.defined? = none) (place : NodeId) :
    Labelled builder' (instr :: rest) (place :: places) := by
  intro label other
  rw [hlabels, h, defined_cons_iff (by simp [hnone])]

/-- Places that are live are not the next node. -/
theorem nextId_not_mem (hlive : ∀ other ∈ places, builder.cfg.contains other) :
    builder.cfg.nextId ∉ places := by
  intro hmem
  exact ne_nextId_of_contains (hlive _ hmem) rfl

/-- Live places stay live when one is put in front of them. -/
theorem Grows.live_cons (h : Grows builder builder') (hplace : builder'.cfg.contains place)
    (hlive : ∀ other ∈ places, builder.cfg.contains other) :
    ∀ other ∈ place :: places, builder'.cfg.contains other :=
  forall_mem_cons.mpr ⟨hplace, fun other hother => h.live (hlive other hother)⟩

/-- A node in front of a place. -/
theorem link_spec (h : Valid builder) (hlabelled : Labelled builder rest (next :: places))
    (hlive : ∀ other ∈ next :: places, builder.cfg.contains other) (node : Node)
    (hnone : instr.defined? = none) :
    Extended builder (instr :: rest) (next :: places) (builder.link node next).1
        (builder.link node next).2 ∧
      (builder.link node next).1.cfg.node? (builder.link node next).2 = some node ∧
      (builder.link node next).1.cfg.outgoing (builder.link node next).2 = [(next, none)] := by
  have hnext := hlive next mem_cons_self
  have hgrows : Grows builder (builder.link node next).1 :=
    (Grows.insert builder node).addEdge (contains_nextId _)
  refine ⟨⟨(h.insert node).addEdge (by simp) (by simp [hnext]), hgrows,
    hgrows.live_cons (by simp [link]) hlive, hlabelled.cons rfl hnone _, .inl⟩, ?_, ?_⟩
  · simpa [link, Builder.addEdge, withGraph, FlowGraph.node?] using
      node?_insert builder node
  · exact outgoing_addEdge_first (by simp) (outgoing_insert_nextId builder node)

/-- What looking up a label does. -/
structure Targeted (builder : Builder) (rest : List Instr) (places : List NodeId) (label : String)
    (span : Span) (builder' : Builder) (place : NodeId) : Prop where
  valid : Valid builder'
  grows : Grows builder builder'
  labels : builder'.labels = builder.labels
  live : builder'.cfg.contains place
  target : Target builder' rest places span label place
  named : ∀ {id : NodeId} {other : String}, (id, other) ∈ builder'.pending →
    (id, other) ∈ builder.pending ∨ other = label

/-- The place of a label: its definition or a new stub. -/
theorem targetOf_spec (h : Valid builder) (hlabelled : Labelled builder rest places)
    (hlive : ∀ other ∈ places, builder.cfg.contains other) (label : String) (span : Span) :
    Targeted builder rest places label span (builder.targetOf label span).1
      (builder.targetOf label span).2 := by
  rw [targetOf]
  cases hlabel : builder.labels[label]? with
  | some target =>
    exact ⟨h, .refl, rfl, h.labels hlabel, .inl (hlabelled.mp hlabel), .inl⟩
  | none =>
    have hinserted := h.insert (.stub span)
    have hgrows := Grows.insert builder (.stub span)
    have hnone : ∀ other, ¬ Defined rest places label other := by
      intro other hdefined
      rw [hlabelled.mpr hdefined] at hlabel
      cases hlabel
    have hfresh : builder.cfg.nextId ∉ builder.pending.map Prod.fst := by
      intro hmem
      obtain ⟨⟨stub, other⟩, hentry, rfl⟩ := mem_map.mp hmem
      obtain ⟨_, hstub⟩ := h.stub hentry
      exact ne_nextId_of_contains (contains_of_payload? hstub) rfl
    refine ⟨⟨hinserted.sound, hinserted.start, hinserted.labels, ?_, ?_⟩,
      ⟨rfl, hgrows.live, hgrows.node, hgrows.outgoing, ?_⟩, rfl, by simp,
      .inr ⟨nextId_not_mem hlive, by simp, node?_insert builder _, hnone⟩, ?_⟩
    · intro stub other hentry
      rcases mem_append.mp hentry with hentry | hentry
      · exact hinserted.stub hentry
      · obtain ⟨rfl, rfl⟩ := Prod.mk.inj (mem_singleton.mp hentry)
        exact ⟨span, node?_insert builder _⟩
    · simpa using h.nodup.concat hfresh
    · exact fun hentry => mem_append_left _ hentry
    · intro id other hentry
      rcases mem_append.mp hentry with hentry | hentry
      · exact .inl hentry
      · exact .inr (Prod.mk.inj (mem_singleton.mp hentry)).2

/-- A node inserted before a label was looked up has no edges yet. -/
theorem Targeted.of_insert {node : Node}
    (h : Targeted (builder.insert node) rest places label span builder' place) :
    Grows builder builder' ∧ builder'.cfg.node? builder.cfg.nextId = some node ∧
      builder'.cfg.outgoing builder.cfg.nextId = [] := by
  have hself : (builder.insert node).cfg.contains builder.cfg.nextId := by simp
  exact ⟨(Grows.insert builder node).trans h.grows,
    (h.grows.node hself).trans (node?_insert builder _),
    (h.grows.outgoing hself).trans (outgoing_insert_nextId builder _)⟩

/-- The two ways out of a condition. -/
theorem fork_spec {onTrue onFalse id : NodeId} (h : Valid builder')
    (hgrows : Grows builder builder')
    (hnew : builder.cfg.contains id = false) (hid : builder'.cfg.contains id)
    (hnone : builder'.cfg.outgoing id = []) (htrue : builder'.cfg.contains onTrue)
    (hfalse : builder'.cfg.contains onFalse) :
    let forked := (builder'.addEdge ⟨id, onTrue, some true⟩).addEdge ⟨id, onFalse, some false⟩
    Valid forked ∧ Grows builder forked ∧ forked.cfg.contains id ∧
      forked.cfg.outgoing id = [(onTrue, some true), (onFalse, some false)] := by
  have hfirst : (builder'.addEdge ⟨id, onTrue, some true⟩).cfg.outgoing id =
      [(onTrue, some true)] :=
    outgoing_addEdge_first hid hnone
  have hgrows' : Grows builder (builder'.addEdge ⟨id, onTrue, some true⟩) := hgrows.addEdge hnew
  have hid' : (builder'.addEdge ⟨id, onTrue, some true⟩).cfg.contains id := by
    simpa using hid
  refine ⟨(h.addEdge hid htrue).addEdge hid' (by simpa using hfalse), hgrows'.addEdge hnew,
    by simpa using hid, ?_⟩
  have hlast : ((builder'.addEdge ⟨id, onTrue, some true⟩).cfg.addEdge
      ⟨id, onFalse, some false⟩).outgoing id = _ :=
    outgoing_addEdge_last hid' (by simp [hfirst]) (by simp)
  rw [hfirst] at hlast
  exact hlast

/-- Edges change no node. -/
theorem node?_addEdge (builder : Builder) (edge : Edge) (id : NodeId) :
    (builder.addEdge edge).cfg.node? id = builder.cfg.node? id :=
  payload?_addEdge ..

/-- Actors are linked to what follows. -/
theorem visitInstr_of_actor? {node : Node} (h : instr.actor? span = some node) :
    builder.visitInstr next span instr = .ok (builder.link node next) := by
  cases instr with
  | move target source =>
    cases target with
    | temp | mem =>
      cases h
      rfl
    | const | binary | symbol => cases h
  | call =>
    cases h
    rfl
  | jump | branch | label | ret => cases h

variable (h : Valid builder) (hlabelled : Labelled builder rest (next :: places))
  (hlive : ∀ other ∈ next :: places, builder.cfg.contains other)
include h hlabelled hlive

/-- Reading an instruction that acts. -/
theorem visitInstr_actor {node : Node} (hactor : instr.actor? span = some node)
    (hvisit : builder.visitInstr next span instr = .ok (builder', place)) :
    Extended builder (instr :: rest) (next :: places) builder' place ∧
      Read builder' rest place (next :: places) span instr := by
  have hlink : builder.link node next = (builder', place) :=
    Except.ok.inj ((visitInstr_of_actor? hactor).symm.trans hvisit)
  have hnone : instr.defined? = none := by
    cases instr with
    | label => cases hactor
    | move | call | jump | branch | ret => rfl
  have hfresh : (builder.link node next).2 ∉ next :: places := nextId_not_mem hlive
  obtain ⟨hextended, hnode, hout⟩ := link_spec h hlabelled hlive node hnone
  rw [hlink] at hextended hnode hout hfresh
  refine ⟨hextended, ?_⟩
  cases instr with
  | move | call => exact ⟨hfresh, node, next, hactor, hnode, rfl, hout⟩
  | label | jump | branch | ret => cases hactor

/-- Reading the definition of a label. -/
theorem visitInstr_label (name : String) : Extended builder (.label name :: rest) (next :: places)
      { builder with labels := builder.labels.insert name next } next := by
  have hnext := hlive next mem_cons_self
  refine ⟨⟨h.sound, h.start, fun {label place} hlabel => ?_, h.stub, h.nodup⟩,
    ⟨rfl, id, fun _ => rfl, fun _ => rfl, id⟩, forall_mem_cons.mpr ⟨hnext, hlive⟩,
    fun {label place} => ?_, .inl⟩
  · rw [Std.ExtTreeMap.getElem?_insert] at hlabel
    split at hlabel
    · exact Option.some.inj hlabel ▸ hnext
    · exact h.labels hlabel
  · rw [Std.ExtTreeMap.getElem?_insert]
    by_cases heq : name = label
    · subst heq
      rw [defined_cons_self]
      simp [eq_comm]
    · rw [defined_cons_iff (by simpa [Instr.defined?] using heq), if_neg (by simpa using heq)]
      exact hlabelled

/-- A branch is inserted before the stub for its target. -/
theorem visitInstr_branch {cond : Expr}
    (hvisit : builder.visitInstr next span (.branch cond label) = .ok (builder', place)) :
    Extended builder (.branch cond label :: rest) (next :: places) builder' place ∧
      Read builder' rest place (next :: places) span (.branch cond label) := by
  cases hvisit
  have htargeted := targetOf_spec (h.insert (.branch cond span)) hlabelled
    (fun other hother => (Grows.insert builder _).live (hlive other hother)) label span
  obtain ⟨hold, hnode, hnone⟩ := htargeted.of_insert
  obtain ⟨hvalid, hgrows, hid, hout⟩ := fork_spec htargeted.valid hold (contains_nextId _)
    (contains_of_payload? hnode) hnone htargeted.live (hold.live (hlive next mem_cons_self))
  refine ⟨⟨hvalid, hgrows, hgrows.live_cons hid hlive, hlabelled.cons htargeted.labels rfl _,
    fun hentry => ?_⟩, nextId_not_mem hlive, _, next, ?_, rfl, hout, ?_⟩
  · exact (htargeted.named hentry).imp_right fun heq =>
      ⟨_, mem_cons_self, congrArg some heq.symm⟩
  · exact (node?_addEdge ..).trans ((node?_addEdge ..).trans hnode)
  · refine htargeted.target.imp_right fun ⟨hfresh, hentry, hstub, hnone⟩ =>
      ⟨hfresh, hentry, ?_, hnone⟩
    exact (node?_addEdge ..).trans ((node?_addEdge ..).trans hstub)

/-- Reading one instruction. -/
theorem visitInstr_spec (hvisit : builder.visitInstr next span instr = .ok (builder', place)) :
    Extended builder (instr :: rest) (next :: places) builder' place ∧
      Read builder' rest place (next :: places) span instr := by
  cases instr with
  | move target source =>
    cases target with
    | temp | mem => exact visitInstr_actor h hlabelled hlive rfl hvisit
    | const | binary | symbol => cases hvisit
  | call => exact visitInstr_actor h hlabelled hlive rfl hvisit
  | ret =>
    cases hvisit
    have hgrows := Grows.insert builder (.ret span)
    exact ⟨⟨h.insert _, hgrows, hgrows.live_cons (by simp) hlive, hlabelled.cons rfl rfl _, .inl⟩,
      nextId_not_mem hlive, node?_insert builder _⟩
  | label name =>
    cases hvisit
    exact ⟨visitInstr_label h hlabelled hlive name, rfl⟩
  | jump label =>
    have htargeted := targetOf_spec h hlabelled hlive label span
    rw [show builder.targetOf label span = (builder', place) from Except.ok.inj hvisit]
      at htargeted
    refine ⟨⟨htargeted.valid, htargeted.grows, htargeted.grows.live_cons htargeted.live hlive,
      hlabelled.cons htargeted.labels rfl _, fun hentry => ?_⟩, htargeted.target⟩
    exact (htargeted.named hentry).imp_right fun heq =>
      ⟨_, mem_cons_self, congrArg some heq.symm⟩
  | branch cond label => exact visitInstr_branch h hlabelled hlive hvisit

end Visit

/-! ### Reading a whole body -/

/-- What the graph holds for statements and their places. -/
inductive Described (builder : Builder) : List Stmt → List NodeId → Prop where
  | nil {place : NodeId} {span : Span} : builder.cfg.node? place = some (.ret span) →
      Described builder [] [place]
  | cons {instr : Instr} {span : Span} {rest : List Stmt} {place next : NodeId}
      {places : List NodeId} :
      Read builder (Stmt.codeList rest) place (next :: places) span instr →
      Described builder rest (next :: places) →
      Described builder (.instr instr span :: rest) (place :: next :: places)

/-- The description is kept. -/
theorem Described.keeps {stmts : List Stmt} {places : List NodeId}
    (h : Described builder stmts places) (hvalid : Valid builder)
    (hkeeps : Keeps builder builder') :
    Described builder' stmts places := by
  induction h with
  | nil hnode => exact .nil ((hkeeps.node (contains_of_payload? hnode)).trans hnode)
  | cons hread _ ih => exact .cons (hread.keeps hvalid hkeeps) ih

/-- Reading statements in front of a return describes them. -/
theorem described_of_visitAll {last : NodeId} (h : Valid builder) (hempty : builder.labels = ∅)
    (hlast : builder.cfg.node? last = some (.ret span)) {stmts : List Stmt}
    (hvisit : builder.visitAll last stmts = .ok (builder', place)) :
    ∃ places, Described builder' stmts (place :: places) ∧
      Extended builder (Stmt.codeList stmts) places builder' place ∧
      (place :: places).getLast? = some last := by
  -- the last statement is read first, so what is known of the rest has to survive each instruction
  induction stmts generalizing builder' place with
  | nil =>
    cases hvisit
    refine ⟨[], .nil hlast, ⟨h, .refl, ?_, ?_, .inl⟩, rfl⟩
    · simpa using contains_of_payload? hlast
    · intro label place
      simp [hempty, Defined, firstLabel, Stmt.codeList]
  | cons stmt rest ih =>
    rw [visitAll] at hvisit
    split at hvisit
    · cases hvisit
    next read next hread =>
    obtain ⟨places, hdescribed, hextended, hend⟩ := ih hread
    cases stmt with
    | seq => cases hvisit
    | instr instr span =>
      obtain ⟨hfirst, hinstr⟩ :=
        visitInstr_spec hextended.valid hextended.labelled hextended.live hvisit
      refine ⟨next :: places,
        .cons hinstr (hdescribed.keeps hextended.valid hfirst.grows.keeps), ⟨hfirst.valid,
        hextended.grows.trans hfirst.grows, hfirst.live, hfirst.labelled, fun hentry => ?_⟩, hend⟩
      rcases hfirst.named hentry with hentry | hinstr
      · refine (hextended.named hentry).imp_right fun ⟨other, hother, hgoes⟩ => ?_
        exact ⟨other, mem_cons_of_mem _ hother, hgoes⟩
      · exact .inr hinstr

end Builder

end Flowgraph

import Flowgraph.Proofs.Flow.Build

/-!
# The edges of a builder

While a body is being read, every node has the outgoing edges that its kind asks for, except that
the start has none yet, and nothing leads to the start (`Builder.Regular`). Reading one instruction
keeps this (`Builder.Regular.visitInstr`), and so does reading a body (`Builder.Regular.visitAll`).
-/

namespace Flowgraph

open Graph

namespace Builder

variable {builder builder' : Builder} {id : NodeId}

/-- What the kind of a node asks of it while a body is being read. -/
def Fits (builder : Builder) (id : NodeId) : Kind → Prop
  | .start => id = builder.cfg.start
  | .ret => builder.cfg.outgoing id = []
  | .branch => ∃ onTrue onFalse,
      builder.cfg.outgoing id = [(onTrue, some true), (onFalse, some false)]
  | .assign | .store | .call => ∃ next, builder.cfg.outgoing id = [(next, none)]
  | .stub => ∃ label, (id, label) ∈ builder.pending
  | .spin | .block | .phi => False

/-- Every node fits, and nothing leads to the start. -/
structure Regular (builder : Builder) : Prop where
  fits : ∀ {id kind}, builder.cfg.kind? id = some kind → builder.Fits id kind
  entry : ∀ id, builder.cfg.start ∉ builder.cfg.successors id
  labels : ∀ {label : String} {place : NodeId}, builder.labels[label]? = some place →
    place ≠ builder.cfg.start

section

variable (h : Grows builder builder') (hid : builder.cfg.contains id)
include h hid

/-- Growing keeps the kinds. -/
theorem Grows.kind? : builder'.cfg.kind? id = builder.cfg.kind? id := by
  rw [FlowGraph.kind?, h.node hid, FlowGraph.kind?]

/-- Growing keeps the successors. -/
theorem Grows.successors : builder'.cfg.successors id = builder.cfg.successors id := by
  rw [Graph.successors, h.outgoing hid, Graph.successors]

end

/-- A node that keeps its edges goes on to fit. -/
theorem Fits.congr {kind : Kind} (h : builder.Fits id kind)
    (hstart : builder'.cfg.start = builder.cfg.start)
    (hout : builder'.cfg.outgoing id = builder.cfg.outgoing id)
    (hpending : ∀ {entry}, entry ∈ builder.pending → entry ∈ builder'.pending) :
    builder'.Fits id kind := by
  cases kind with
  | start => exact h.trans hstart.symm
  | ret => exact hout.trans h
  | branch =>
    obtain ⟨onTrue, onFalse, hboth⟩ := h
    exact ⟨onTrue, onFalse, hout.trans hboth⟩
  | assign | store | call =>
    obtain ⟨next, hnext⟩ := h
    exact ⟨next, hout.trans hnext⟩
  | stub =>
    obtain ⟨label, hentry⟩ := h
    exact ⟨label, hpending hentry⟩
  | spin | block | phi => exact h.elim

namespace Regular

/-- New nodes that fit and do not lead to the start keep it regular. -/
theorem grows (h : Regular builder) (hgrows : Grows builder builder')
    (hlabels : builder'.labels = builder.labels)
    (hnew : ∀ {id}, builder'.cfg.contains id → builder.cfg.contains id = false →
      (∀ {kind}, builder'.cfg.kind? id = some kind → builder'.Fits id kind) ∧
        builder.cfg.start ∉ builder'.cfg.successors id) : Regular builder' where
  fits {id kind} hkind := by
    cases hold : builder.cfg.contains id with
    | true =>
      rw [hgrows.kind? hold] at hkind
      exact (h.fits hkind).congr hgrows.start (hgrows.outgoing hold) hgrows.pending
    | false => exact (hnew (FlowGraph.contains_of_kind? hkind) hold).1 hkind
  entry id := by
    rw [hgrows.start]
    cases hold : builder.cfg.contains id with
    | true =>
      rw [hgrows.successors hold]
      exact h.entry id
    | false =>
      cases hlive : builder'.cfg.contains id with
      | true => exact (hnew hlive hold).2
      | false => simp [Graph.successors, outgoing_eq_nil hlive]
  labels hlabel := by
    rw [hgrows.start]
    exact h.labels (hlabels ▸ hlabel)

/-- A node in front of a place. -/
theorem link (h : Regular builder) {node : Node} {next : NodeId}
    (hkind : node.kind ∈ [.assign, .store, .call]) (hnext : next ≠ builder.cfg.start) :
    Regular (builder.link node next).1 := by
  have hgrows : Grows builder (builder.link node next).1 :=
    (Grows.insert builder node).addEdge (contains_nextId _)
  refine h.grows hgrows rfl fun {id} hlive hold => ?_
  obtain rfl : id = builder.cfg.nextId := by simpa [Builder.link, hold] using hlive
  have hout : (builder.link node next).1.cfg.outgoing builder.cfg.nextId = [(next, none)] :=
    outgoing_addEdge_first (by simp) (outgoing_insert_nextId builder node)
  have hnode : (builder.link node next).1.cfg.kind? builder.cfg.nextId = some node.kind := by
    have hsame : (builder.link node next).1.cfg.node? builder.cfg.nextId =
        (builder.insert node).cfg.node? builder.cfg.nextId := payload?_addEdge ..
    rw [FlowGraph.kind?, hsame, node?_insert, Option.map_some]
  refine ⟨fun {kind} hfound => ?_, ?_⟩
  · obtain rfl := Option.some.inj (hnode.symm.trans hfound)
    generalize node.kind = kind at hkind
    cases kind <;> first | exact ⟨next, hout⟩ | simp at hkind
  · rw [Graph.successors, hout]
    simpa using Ne.symm hnext

/-- A return. -/
theorem ret (h : Regular builder) (span : Span) : Regular (builder.insert (.ret span)) := by
  refine h.grows (.insert builder _) rfl fun {id} hlive hold => ?_
  obtain rfl : id = builder.cfg.nextId := by simpa [hold] using hlive
  have hout := outgoing_insert_nextId builder (.ret span)
  refine ⟨fun {kind} hfound => ?_, by simp [Graph.successors, hout]⟩
  rw [FlowGraph.kind?, node?_insert] at hfound
  obtain rfl : Kind.ret = kind := Option.some.inj hfound
  exact hout

end Regular

/-- A stub without edges that is pending for a label. -/
structure Stands (builder : Builder) (id : NodeId) : Prop where
  kind : builder.cfg.kind? id = some .stub
  outgoing : builder.cfg.outgoing id = []
  pending : ∃ label, (id, label) ∈ builder.pending

/-- A stub fits and leads nowhere. -/
theorem Stands.fits (h : builder.Stands id) :
    (∀ {kind}, builder.cfg.kind? id = some kind → builder.Fits id kind) ∧
      builder.cfg.successors id = [] := by
  refine ⟨fun {kind} hkind => ?_, by rw [Graph.successors, h.outgoing, List.map_nil]⟩
  obtain rfl := Option.some.inj (h.kind.symm.trans hkind)
  exact h.pending

/-- The only node that looking up a label can make is a stub. -/
theorem targetOf_new {label : String} {span : Span}
    (hid : (builder.targetOf label span).1.cfg.contains id) :
    builder.cfg.contains id ∨ (builder.targetOf label span).1.Stands id := by
  rw [targetOf] at hid ⊢
  cases hlabel : builder.labels[label]? with
  | some target =>
    simp only [hlabel] at hid
    exact .inl hid
  | none =>
    simp only [hlabel, contains_insert, Bool.or_eq_true, decide_eq_true_eq] at hid
    rcases hid with rfl | hid
    · refine .inr ⟨?_, outgoing_insert_nextId builder _, label, by simp⟩
      rw [FlowGraph.kind?, node?_insert]
      rfl
    · exact .inl hid

/-- A label does not stand at the start. -/
theorem targetOf_ne_start (hsound : builder.cfg.Sound)
    (hlabels : ∀ {label : String} {place : NodeId}, builder.labels[label]? = some place →
      place ≠ builder.cfg.start) (label : String) (span : Span) :
    (builder.targetOf label span).2 ≠ builder.cfg.start := by
  rw [targetOf]
  cases hlabel : builder.labels[label]? with
  | some target => exact hlabels hlabel
  | none => exact (ne_nextId_of_contains hsound.start).symm

namespace Regular

variable {span : Span} {place : NodeId}

/-- The two ways out of a condition. -/
theorem fork (h : Regular builder) {onTrue onFalse : NodeId} (hvalid : Valid builder')
    (hgrows : Grows builder builder') (hlabels : builder'.labels = builder.labels)
    (hold : builder.cfg.contains id = false) (hkind : builder'.cfg.kind? id = some .branch)
    (hnone : builder'.cfg.outgoing id = []) (htrue : builder'.cfg.contains onTrue)
    (hfalse : builder'.cfg.contains onFalse) (hne : onTrue ≠ builder.cfg.start)
    (hne' : onFalse ≠ builder.cfg.start)
    (hnew : ∀ {other}, builder'.cfg.contains other → builder.cfg.contains other = false →
      other = id ∨ builder'.Stands other) :
    Regular ((builder'.addEdge ⟨id, onTrue, some true⟩).addEdge ⟨id, onFalse, some false⟩) := by
  obtain ⟨-, hgrows', -, hout⟩ := fork_spec hvalid hgrows hold
    (FlowGraph.contains_of_kind? hkind) hnone htrue hfalse
  refine h.grows hgrows' hlabels fun {other} hlive hother => ?_
  rw [contains_addEdge, contains_addEdge] at hlive
  by_cases heq : other = id
  · subst heq
    refine ⟨fun {kind} hfound => ?_, ?_⟩
    · rw [FlowGraph.kind?, node?_addEdge, node?_addEdge] at hfound
      obtain rfl := Option.some.inj (hkind.symm.trans hfound)
      exact ⟨onTrue, onFalse, hout⟩
    · rw [Graph.successors, hout]
      simpa using ⟨Ne.symm hne, Ne.symm hne'⟩
  · have hstands := (hnew hlive hother).resolve_left heq
    have hkept : ((builder'.addEdge ⟨id, onTrue, some true⟩).addEdge
        ⟨id, onFalse, some false⟩).Stands other := by
      refine ⟨?_, ?_, hstands.pending⟩
      · rw [← hstands.kind, FlowGraph.kind?, FlowGraph.kind?]
        exact congrArg _ ((payload?_addEdge ..).trans (payload?_addEdge ..))
      · rw [← hstands.outgoing]
        exact (outgoing_addEdge_of_ne (Ne.symm heq)).trans
          (outgoing_addEdge_of_ne (Ne.symm heq))
    exact ⟨hkept.fits.1, by simp [hkept.fits.2]⟩

variable {rest : List Instr} {next : NodeId} {places : List NodeId}

/-- Reading the definition of a label. -/
theorem insertLabel (h : Regular builder) (hstart : next ≠ builder.cfg.start) (name : String) :
    Regular { builder with labels := builder.labels.insert name next } := by
  refine ⟨h.fits, h.entry, fun {label place} hlabel => ?_⟩
  rw [Std.ExtTreeMap.getElem?_insert] at hlabel
  split at hlabel
  · exact Option.some.inj hlabel ▸ hstart
  · exact h.labels hlabel

section

variable (h : Regular builder) (hvalid : Valid builder)
  (hlabelled : Labelled builder rest (next :: places))
  (hlive : ∀ other ∈ next :: places, builder.cfg.contains other)
  (hstart : next ≠ builder.cfg.start)
include h hvalid hlabelled hlive hstart

/-- Reading a branch. -/
theorem visitBranch {cond : Expr} {label : String}
    (hvisit : builder.visitInstr next span (.branch cond label) = .ok (builder', place)) :
    Regular builder' := by
  cases hvisit
  have htargeted := targetOf_spec (hvalid.insert (.branch cond span)) hlabelled
    (fun other hother => (Grows.insert builder _).live (hlive other hother)) label span
  obtain ⟨hold, hnode, hnone⟩ := htargeted.of_insert
  have hkind : ((builder.insert (.branch cond span)).targetOf label span).1.cfg.kind?
      builder.cfg.nextId = some .branch := by
    rw [FlowGraph.kind?, hnode]
    rfl
  refine h.fork htargeted.valid hold htargeted.labels (contains_nextId _) hkind hnone
    htargeted.live (hold.live (hlive next List.mem_cons_self)) ?_ hstart
    fun {other} hfound hother => ?_
  · exact targetOf_ne_start (hvalid.insert (.branch cond span)).sound h.labels label span
  · refine (targetOf_new hfound).imp_left fun hlive => ?_
    simpa [hother] using hlive

/-- Reading one instruction. -/
theorem visitInstr {instr : Instr}
    (hvisit : builder.visitInstr next span instr = .ok (builder', place)) :
    Regular builder' ∧ place ≠ builder.cfg.start := by
  have hfresh : builder.cfg.nextId ≠ builder.cfg.start :=
    (ne_nextId_of_contains hvalid.sound.start).symm
  have hlink : ∀ {node : Node}, node.kind ∈ [.assign, .store, .call] →
      builder.link node next = (builder', place) → Regular builder' ∧
      place ≠ builder.cfg.start := by
    intro node hkind hlink
    cases hlink
    exact ⟨h.link hkind hstart, hfresh⟩
  cases instr with
  | move target source =>
    cases target with
    | temp | mem => exact hlink (by simp [Node.kind]) (Except.ok.inj hvisit)
    | const | binary | symbol => cases hvisit
  | call => exact hlink (by simp [Node.kind]) (Except.ok.inj hvisit)
  | ret =>
    cases hvisit
    exact ⟨h.ret span, hfresh⟩
  | label name =>
    cases hvisit
    exact ⟨h.insertLabel hstart name, hstart⟩
  | jump label =>
    have htarget : builder.targetOf label span = (builder', place) := Except.ok.inj hvisit
    obtain rfl : (builder.targetOf label span).1 = builder' := by rw [htarget]
    obtain rfl : (builder.targetOf label span).2 = place := by rw [htarget]
    have htargeted := targetOf_spec hvalid hlabelled hlive label span
    refine ⟨h.grows htargeted.grows htargeted.labels fun {id} hlive hold => ?_,
      targetOf_ne_start hvalid.sound h.labels label span⟩
    have hstands := (targetOf_new hlive).resolve_left (Bool.eq_false_iff.mp hold)
    exact ⟨hstands.fits.1, by simp [hstands.fits.2]⟩
  | branch cond label =>
    refine ⟨h.visitBranch hvalid hlabelled hlive hstart hvisit, ?_⟩
    cases hvisit
    exact hfresh

end

/-- Reading statements. -/
theorem visitAll {last : NodeId} (h : Regular builder) (hvalid : Valid builder)
    (hempty : builder.labels = ∅) {span : Span}
    (hlast : builder.cfg.node? last = some (.ret span)) {stmts : List Stmt} {place : NodeId}
    (hvisit : builder.visitAll last stmts = .ok (builder', place)) :
    Regular builder' ∧ place ≠ builder'.cfg.start := by
  induction stmts generalizing builder' place with
  | nil =>
    cases hvisit
    exact ⟨h, hvalid.ne_start hlast (by simp)⟩
  | cons stmt rest ih =>
    rw [Builder.visitAll] at hvisit
    split at hvisit
    · cases hvisit
    next read next hread =>
    obtain ⟨places, -, hextended, -⟩ := described_of_visitAll hvalid hempty hlast hread
    obtain ⟨hregular, hstart⟩ := ih hread
    cases stmt with
    | seq => cases hvisit
    | instr instr span =>
      obtain ⟨hfirst, -⟩ :=
        visitInstr_spec hextended.valid hextended.labelled hextended.live hvisit
      have hvisited := hregular.visitInstr hextended.valid hextended.labelled hextended.live
        hstart hvisit
      exact ⟨hvisited.1, by rw [hfirst.grows.start]; exact hvisited.2⟩

/-- The builder at the beginning has a start and a return. -/
theorem opening (span : Span) :
    Regular (Builder.insert { cfg := .ofStart span } (.ret span)) := by
  have hempty : ∀ id, ({} : Graph Node).contains id = false := by
    intro id
    simp [Graph.contains, vertex?]
  refine ret ⟨fun {id kind} hkind => ?_, fun id => ?_, by simp⟩ span
  · have hlive := FlowGraph.contains_of_kind? hkind
    obtain rfl : id = 0 := by
      simpa [FlowGraph.ofStart, Graph.contains_insert, hempty, Graph.nextId] using hlive
    obtain rfl : Kind.start = kind := Option.some.inj hkind
    rfl
  · have hout : (FlowGraph.ofStart span).outgoing id = [] := by
      rw [FlowGraph.ofStart, outgoing_insert, outgoing_eq_nil (hempty id)]
    simp [Graph.successors, hout]

/-- The edge that leaves the start. -/
theorem enter (h : Regular builder) (hvalid : Valid builder) (hstart : place ≠ builder.cfg.start) :
    Regular (builder.addEdge ⟨builder.cfg.start, place, none⟩) := by
  have hkeeps := Keeps.enter builder place
  refine ⟨fun {id kind} hkind => ?_, fun id hmem => ?_, h.labels⟩
  · have hlive : builder.cfg.contains id := by
      simpa using FlowGraph.contains_of_kind? hkind
    rw [FlowGraph.kind?, hkeeps.node hlive, ← FlowGraph.kind?] at hkind
    by_cases heq : id = builder.cfg.start
    · obtain ⟨span, hnode⟩ := hvalid.start
      rw [heq, FlowGraph.kind?, hnode] at hkind
      obtain rfl : Kind.start = kind := Option.some.inj hkind
      exact heq
    · exact (h.fits hkind).congr rfl (hkeeps.outgoing hlive heq) hkeeps.pending
  · obtain ⟨label, hlink⟩ := Graph.mem_successors.mp hmem
    rcases (mem_outgoing_addEdge hvalid.sound.start).mp hlink with hlink | ⟨-, heq⟩
    · exact h.entry id (Graph.mem_successors.mpr ⟨label, hlink⟩)
    · exact hstart (Prod.mk.inj heq).1.symm

end Regular

end Builder

end Flowgraph

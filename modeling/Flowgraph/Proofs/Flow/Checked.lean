import Flowgraph.Flow.Checked
import Flowgraph.Proofs.Flow.Construct
import Flowgraph.Proofs.Graph.Edit

/-!
# No edit of the construction is refused

The place at which the builder stands is live, the label of a stub leads to a live node, and the
stubs are live and distinct. So the checked construction is the plain one
(`FlowGraph.ofBodyChecked_eq`).
-/

namespace Flowgraph

open List

namespace Graph

variable {α : Type} {g : Graph α}

/-- Joining live nodes succeeds. -/
theorem joinEach_eq_ok {edges : List Edge}
    (h : ∀ edge ∈ edges, g.contains edge.source ∧ g.contains edge.target) :
    g.joinEach edges = .ok (edges.foldl addEdge g) := by
  suffices hjoin : edges.foldlM join g = .ok (edges.foldl addEdge g) by rw [joinEach, hjoin]; rfl
  induction edges generalizing g with
  | nil => rfl
  | cons edge rest ih =>
    obtain ⟨hfirst, hrest⟩ := forall_mem_cons.mp h
    rw [foldlM_cons, join_eq_ok hfirst.1 hfirst.2]
    exact ih fun other hother => by simpa using hrest other hother

/-- Removing live nodes succeeds. -/
theorem removeEach_eq_ok {ids : List NodeId} (hlive : ∀ id ∈ ids, g.contains id)
    (hnodup : ids.Nodup) : g.removeEach ids = .ok (ids.foldl erase g) := by
  suffices hremove : ids.foldlM (fun (g : Graph α) id => (g.remove id).map Prod.snd) g =
      .ok (ids.foldl erase g) by
    rw [removeEach, hremove]
    rfl
  induction ids generalizing g with
  | nil => rfl
  | cons id rest ih =>
    obtain ⟨⟨payload, hpayload⟩, hrest⟩ := stay_erase hlive hnodup
    rw [foldlM_cons, remove_eq_ok hpayload]
    exact ih hrest hnodup.of_cons

end Graph

namespace Builder

variable {builder : Builder} {rest : List Instr} {next : NodeId} {places : List NodeId}
  {span : Span} {last : NodeId} {done : List NodeId} {patch : Patch}

/-- Builders join live nodes. -/
theorem joinEach_eq_ok {edges : List Edge}
    (h : ∀ edge ∈ edges, builder.cfg.contains edge.source ∧ builder.cfg.contains edge.target) :
    builder.joinEach edges = .ok (edges.foldl addEdge builder) := by
  have hfold : ∀ (edges : List Edge) (builder : Builder), edges.foldl addEdge builder =
      { builder with
        cfg := builder.cfg.withGraph (edges.foldl Graph.addEdge builder.cfg.toGraph) } := by
    intro edges
    induction edges with
    | nil => exact fun _ => rfl
    | cons edge edges ih => exact fun builder => ih (builder.addEdge edge)
  rw [joinEach, Graph.joinEach_eq_ok h, hfold]
  rfl

/-- Linking to a live node succeeds. -/
theorem linkChecked_eq (hnext : builder.cfg.contains next) (node : Node) :
    builder.linkChecked node next = .ok (builder.link node next) := by
  rw [linkChecked, joinEach_eq_ok (by simp [hnext])]
  rfl

section

variable (h : Valid builder) (hlabelled : Labelled builder rest (next :: places))
  (hlive : ∀ other ∈ next :: places, builder.cfg.contains other)
include h hlabelled hlive

/-- Checked branches are the plain ones. -/
theorem forkChecked_eq (cond : Expr) (label : String) : builder.forkChecked cond label span next =
      builder.visitInstr next span (.branch cond label) := by
  have hinserted : ∀ other ∈ next :: places,
      (builder.insert (.branch cond span)).cfg.contains other :=
    fun other hother => by simp [hlive other hother]
  have htargeted := targetOf_spec (h.insert (.branch cond span)) hlabelled hinserted label span
  have hid := htargeted.grows.live (show (builder.insert (.branch cond span)).cfg.contains
    builder.cfg.nextId by simp)
  have hnext := htargeted.grows.live (hinserted next mem_cons_self)
  rw [forkChecked, joinEach_eq_ok (by simp [hid, hnext, htargeted.live])]
  rfl

/-- Reading an instruction adds edges between live nodes only. -/
theorem visitInstrChecked_eq (instr : Instr) :
    builder.visitInstrChecked next span instr = builder.visitInstr next span instr := by
  have hlink := linkChecked_eq (hlive next mem_cons_self)
  cases instr with
  | move target source =>
    cases target with
    | temp | mem => exact hlink _
    | _ => rfl
  | call => exact hlink _
  | branch cond label => exact forkChecked_eq h hlabelled hlive cond label
  | ret | label | jump => rfl

end

/-- Checked reading is plain reading. -/
theorem visitAllChecked_eq (h : Valid builder) (hempty : builder.labels = ∅)
    (hlast : builder.cfg.node? last = some (.ret span)) (stmts : List Stmt) :
    builder.visitAllChecked last stmts = builder.visitAll last stmts := by
  induction stmts with
  | nil => rfl
  | cons stmt stmts ih =>
    rw [visitAllChecked, visitAll, ih]
    cases hread : builder.visitAll last stmts with
    | error error => rfl
    | ok read =>
      obtain ⟨places, -, hextended, -⟩ := described_of_visitAll h hempty hlast hread
      cases stmt with
      | instr instr span =>
        exact visitInstrChecked_eq hextended.valid hextended.labelled hextended.live instr
      | seq => rfl

/-- Finding a destination succeeds. -/
theorem Patch.nodeAtChecked_eq (patch : Patch) (spanOf : NodeId → Span)
    (destination : Destination) :
    patch.nodeAtChecked spanOf destination = .ok (patch.nodeAt spanOf destination) := by
  cases destination with
  | node id => rfl
  | circle entry =>
    cases hspin : patch.spins[entry]? with
    | some spin => simp only [nodeAtChecked, nodeAt, hspin]
    | none =>
      simp only [nodeAtChecked, nodeAt, hspin]
      rw [Graph.joinEach_eq_ok (by simp [Graph.contains_insert])]
      rfl

section

variable (h : Patching builder done patch) (hvalid : Valid builder)
include h hvalid

/-- Edges into a stub can be copied to where its label leads. -/
theorem Patching.copyIncomingChecked_eq {stub : NodeId} (hstub : stub ∈ builder.stubIds)
    (hends : Ends builder patch.spins stub last) :
    patch.copyIncomingChecked stub last = .ok (patch.copyIncoming stub last) := by
  have hlast := (h.live_of_ends hvalid hstub hends).1
  have hedges : ∀ edge ∈ (patch.graph.incoming stub).map fun link =>
      (⟨link.1, last, link.2⟩ : Edge),
      patch.graph.contains edge.source ∧ patch.graph.contains edge.target := by
    intro edge hedge
    obtain ⟨link, hlink, rfl⟩ := mem_map.mp hedge
    exact ⟨h.grown.sound.contains_source hlink, hlast⟩
  rw [Patch.copyIncomingChecked, Graph.joinEach_eq_ok hedges, foldl_map]
  rfl

/-- Checked patching is plain patching. -/
theorem Patching.patchAllChecked_eq {entries : List (NodeId × String)}
    (hentries : ∀ entry ∈ entries, entry ∈ builder.pending) :
    builder.patchAllChecked patch entries = builder.patchAll patch entries := by
  induction entries generalizing done patch with
  | nil => rfl
  | cons entry entries ih =>
    obtain ⟨hentry, hentries⟩ := forall_mem_cons.mp hentries
    have hstub : entry.1 ∈ builder.stubIds := mem_map_of_mem hentry
    rw [patchAllChecked, Builder.patchAll]
    cases hresolve : builder.resolve entry.1 with
    | error error => rfl
    | ok destination =>
      obtain ⟨hplaced, hends⟩ := h.nodeAt hvalid hresolve
      have hcopied := ih (hplaced.copyIncoming hvalid hstub hends) hentries
      show ((patch.nodeAtChecked builder.cfg.spanOf destination).bind fun placed => _) = _
      rw [Patch.nodeAtChecked_eq]
      show ((Patch.copyIncomingChecked _ _ _).bind fun copied => _) = _
      rw [hplaced.copyIncomingChecked_eq hvalid hstub hends]
      exact hcopied

end

/-- Checked backpatching is the plain one. -/
theorem Valid.backpatchChecked_eq (h : Valid builder) :
    builder.backpatchChecked = builder.backpatch := by
  have hopening := Patching.opening h
  rw [backpatchChecked, backpatch, hopening.patchAllChecked_eq h fun _ hentry => hentry]
  cases hpatch : builder.patchAll ⟨builder.cfg.toGraph, ∅⟩ builder.pending with
  | error error => rfl
  | ok patch =>
    have hpatching := hopening.patchAll h (fun _ hentry => hentry) hpatch
    have hlive : ∀ id ∈ builder.stubIds, patch.graph.contains id := fun id hid =>
      hpatching.grown.live (h.contains_of_mem_stubIds hid)
    show ((patch.graph.removeEach builder.stubIds).bind fun graph => _) = _
    rw [Graph.removeEach_eq_ok hlive h.nodup, stubIds, foldl_map]
    rfl

end Builder

namespace FlowGraph

/-- Checked cleaning succeeds. -/
theorem Sound.cleanChecked_eq {cfg : FlowGraph} (h : cfg.Sound) :
    cfg.cleanChecked = .ok cfg.clean := by
  have hnodup : cfg.unreached.Nodup := (nodup_range.filter _).filter _
  rw [cleanChecked, Graph.removeEach_eq_ok (fun id hid => (h.mem_unreached.mp hid).1) hnodup]
  rfl

/-- No edit of the construction is ever refused. -/
theorem ofBodyChecked_eq (body : Stmt) : ofBodyChecked body = ofBody body := by
  have hopening := (valid_opening body.span).insert (.ret body.span)
  rw [ofBodyChecked, ofBody, Builder.visitAllChecked_eq hopening rfl (Builder.node?_insert _ _)]
  cases hvisit : (Builder.insert { cfg := .ofStart body.span } (.ret body.span)).visitAll
    (FlowGraph.ofStart body.span).nextId body.topLevel with
  | error error => rfl
  | ok read =>
    obtain ⟨builder, entry⟩ := read
    obtain ⟨places, hrecorded⟩ := recorded_of_visitAll hvisit
    obtain ⟨_, -, hextended, -⟩ := Builder.described_of_visitAll hopening rfl
      (Builder.node?_insert _ _) hvisit
    have hentry := hextended.live entry mem_cons_self
    show ((builder.joinEach [⟨builder.cfg.start, entry, none⟩]).bind fun entered => _) = _
    rw [Builder.joinEach_eq_ok (by simp [hextended.valid.sound.start, hentry])]
    dsimp only
    show ((builder.addEdge ⟨builder.cfg.start, entry, none⟩).backpatchChecked.bind fun cfg => _) = _
    rw [hrecorded.valid.backpatchChecked_eq]
    cases hpatched : (builder.addEdge ⟨builder.cfg.start, entry, none⟩).backpatch with
    | error error => rfl
    | ok cfg =>
      obtain ⟨dest, hresolved⟩ := Builder.backpatch_spec hrecorded.valid hpatched
      exact hresolved.sound.cleanChecked_eq

/-- No edit of the construction of a unit is ever refused. -/
theorem ofUnitChecked_eq (unit : CodeUnit) : ofUnitChecked unit = ofUnit unit := by
  have hall : ∀ (functions : List Function) (graphs : NameMap FlowGraph),
      ofFunctionsChecked graphs functions = ofFunctions graphs functions := by
    intro functions
    induction functions with
    | nil => exact fun _ => rfl
    | cons function rest ih =>
      intro graphs
      rw [ofFunctionsChecked, foldlM_cons, ofBodyChecked_eq, ofFunctions]
      cases ofBody function.body with
      | error error => rfl
      | ok cfg => exact ih _
  exact hall unit.functionList ∅

end FlowGraph

end Flowgraph

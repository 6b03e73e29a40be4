import Flowgraph.Proofs.Dominance.Correctness
import Flowgraph.Proofs.Ssa.Fronted
import Flowgraph.Proofs.Ssa.Stems

/-!
# Conversion to single assignment form is correct

`FlowGraph.SingleAssignment` is single assignment form by paths: every name is defined at one place,
and every version that is read, or is an argument of a phi block, is the one defined last on every
path to it. Conversion gives a well-formed graph without phi nodes this form
(`FlowGraph.singleAssignment_toSsa`), provided that no temporary looks like a version.
-/

namespace Flowgraph

open List

open Versions (versionName versionName_inj)

namespace FlowGraph

open Renaming (exitOf slotText)

variable {cfg ssa placed : FlowGraph} {front : NodeId → Option NodeId} {entry : NodeId → Versions}

/-- The reads and definitions of the node with a number. -/
def eventsAt (cfg : FlowGraph) (id : NodeId) : List Event :=
  ((cfg.node? id).map Node.events).getD []

/-- The reads and definitions along a path. -/
def trace (cfg : FlowGraph) (nodes : List NodeId) : List Event :=
  nodes.flatMap cfg.eventsAt

/-- A flow graph has no phi nodes, also inside blocks. -/
def PhiFree (cfg : FlowGraph) : Prop :=
  ∀ id node, cfg.node? id = some node → node.holdsPhi = false

/-- No node of a flow graph without phi nodes is one. -/
theorem PhiFree.kind?_ne (h : cfg.PhiFree) (id : NodeId) : cfg.kind? id ≠ some .phi := by
  intro hkind
  obtain ⟨phi, span, hnode⟩ := exists_phi_of_kind? hkind
  cases h id _ hnode

/-- No temporary looks like a version of a defined variable. -/
def VersionFree (cfg : FlowGraph) : Prop :=
  ∀ id node, cfg.node? id = some node → Unversioned cfg.definedVars.toList node.temps

/-- Temporaries of reached nodes stem from those that stood there before. -/
def RenamesTemps (cfg ssa : FlowGraph) : Prop :=
  ∀ {id node}, ssa.Reaches ssa.start id → cfg.node? id = some node →
    ∃ renamed, ssa.node? id = some renamed ∧
      Forall₂ (Stems cfg.definedVars.toList) node.occurrences renamed.occurrences

/-- Single assignment form for some variables. -/
structure SingleAssignment (vars : NameSet) (ssa : FlowGraph) : Prop where
  /-- A name that is defined is defined at one place. -/
  once : ∀ {id node name}, ssa.Reaches ssa.start id → ssa.node? id = some node → name ∈ node.defs →
    (ssa.reached.flatMap ssa.definitionsAt).count name = 1
  /-- No variable is used under its own name. -/
  renamed : ∀ {id node var}, ssa.Reaches ssa.start id → ssa.node? id = some node →
    node.phi? = none → var ∈ vars → var ∉ node.uses
  /-- A version that is read was defined last on every path to it. -/
  read : ∀ {id nodes before after var n}, ssa.Path ssa.start id nodes → var ∈ vars →
    ssa.eventsAt id = before ++ .read (versionName var n) :: after →
    LastVersion var n (ssa.trace nodes.dropLast ++ before)
  /-- A target is a version, and the argument in a slot was defined last on every path along its
  edge. -/
  slot : ∀ {id phi span name args}, ssa.Reaches ssa.start id → ssa.node? id = some (.phi phi span) →
    phi.mappings[name]? = some args → args.length = (ssa.incoming id).length ∧
      ∃ var ∈ vars, ∃ m, 1 ≤ m ∧ name = versionName var m ∧
        ∀ {slot : Nat} {link : Link}, (ssa.incoming id)[slot]? = some link →
          ssa.Reaches ssa.start link.1 → ∃ n, args[slot]? = some (versionName var n) ∧
            ∀ {nodes}, ssa.Path ssa.start link.1 nodes → LastVersion var n (ssa.trace nodes)

/-- The events of a live node. -/
theorem eventsAt_eq {id : NodeId} {node : Node} (h : cfg.node? id = some node) :
    cfg.eventsAt id = node.events := by
  simp [eventsAt, h]

/-- Traces grow by the events of a node. -/
theorem trace_append (cfg : FlowGraph) (nodes : List NodeId) (id : NodeId) :
    cfg.trace (nodes ++ [id]) = cfg.trace nodes ++ cfg.eventsAt id := by
  simp [trace]

namespace Converted

variable {id : NodeId}

/-- The variables of a graph are no versions. -/
theorem fresh (h : cfg.Sound) (hversion : cfg.VersionFree) :
    ∀ var ∈ cfg.definedVars.toList, ∀ n, versionName var n ∉ cfg.definedVars.toList := by
  intro var hvar n hmem
  obtain ⟨id, hid, hdef⟩ := h.mem_definedVars.mp (Std.ExtTreeSet.mem_toList.mp hmem)
  cases hnode : cfg.node? id with
  | none => simp [definitionsAt, hnode] at hdef
  | some node =>
    rw [definitionsAt_eq hnode] at hdef
    exact hversion id node hnode _ (Node.mem_temps_of_mem_definitions hdef) var hvar n rfl

/-- A node of the original graph can be renamed. -/
theorem suits (h : cfg.Sound) (hphi : cfg.PhiFree) (hversion : cfg.VersionFree) {node : Node}
    (hid : cfg.Reaches cfg.start id) (hnode : cfg.node? id = some node) :
    Scope.Suits cfg.definedVars.toList node where
  phi := hphi id node hnode
  temps := hversion id node hnode
  defs := h.definitions_subset hid hnode

/-- A reached node is a renamed one or a phi block. -/
theorem node_cases (h : Converted cfg ssa placed front entry) (hphi : cfg.PhiFree)
    (hid : placed.Reaches placed.start id) :
    (∃ node, cfg.Reaches cfg.start id ∧ cfg.node? id = some node ∧ placed.node? id = some node ∧
      ssa.node? id = some (({ versions := entry id } : Scope).renameNode node).2) ∨
    ∃ target, front target = some id := by
  rcases h.live (hid.contains h.sound.graph h.sound.start) with hlive | hfront
  · have hreach := h.reaches_original h.wellFormed.sound hlive hid
    obtain ⟨node, hnode⟩ := exists_node hlive
    have hplaced : placed.node? id = some node := (h.node hlive).trans hnode
    refine .inl ⟨node, hreach, hnode, hplaced, ?_⟩
    have hsame : node.mapSlots (slotText placed entry placed.dominatorTree.preorder id) = node := by
      have hnot := hphi id node hnode
      cases node <;> simp_all [Node.mapSlots, Node.holdsPhi]
    rw [h.text hid hplaced, hsame]
  · exact .inr hfront

/-- Each temporary is renamed to a version of itself, or kept. -/
theorem renamesTemps (h : Converted cfg ssa placed front entry) (hphi : cfg.PhiFree) :
    RenamesTemps cfg ssa := by
  intro id node hid hnode
  have hreach := h.shape.reaches_iff.mp hid
  rcases h.node_cases hphi hreach with ⟨old, hold, hcfg, -, hssa⟩ | ⟨target, hp⟩
  · obtain rfl := Option.some.inj (hnode.symm.trans hcfg)
    exact ⟨_, hssa, Scope.stems_renameNode (h.tracks hreach) (hphi id node hnode)
      (h.wellFormed.sound.definitions_subset hold hnode)⟩
  · have hlive := Graph.contains_of_payload? hnode
    exact absurd rfl (h.ne_phi hlive hp)

/-! ### Versions along paths -/

/-- A variable is not merged where there is no phi block for it. -/
def Unmerged (cfg : FlowGraph) (front : NodeId → Option NodeId) (id : NodeId)
    (var : String) : Prop :=
  ∀ target, front target = some id → var ∉ cfg.phiVars target

section

variable (h : Converted cfg ssa placed front entry) (hphi : cfg.PhiFree)
  (hversion : cfg.VersionFree) {nodes : List NodeId}
include h hphi hversion

/-- The versions at the end of a node are the last ones after it. -/
theorem lastVersion_exit (hid : placed.Reaches placed.start id) {earlier : List Event}
    (hearlier : ∀ var ∈ cfg.definedVars.toList, Unmerged cfg front id var →
      LastVersion var ((entry id).top var) earlier) : ∀ var ∈ cfg.definedVars.toList,
      LastVersion var ((exitOf placed entry id).top var) (earlier ++ ssa.eventsAt id) := by
  intro var hvar
  have hcfg := h.wellFormed.sound
  rcases h.node_cases hphi hid with ⟨node, hreach, hnode, hplaced, hssa⟩ | ⟨target, hp⟩
  · have hscope := (h.tracks hid).toScope
    have hcurrent := Scope.current_renameNode hscope (fun var hvar => hearlier var hvar
      fun target hp => absurd rfl (h.ne_phi (Graph.contains_of_payload? hnode) hp))
      (suits hcfg hphi hversion hreach hnode)
    rw [Renaming.exitOf_eq hplaced, eventsAt_eq hssa]
    exact hcurrent.2 var hvar
  · obtain ⟨phi, span, hssa, hmerges⟩ := h.exists_merges (fresh hcfg hversion) hp hid
    have htargets : ∀ k, .define (versionName var k) ∈ phi.targets.map Event.define →
        var ∈ cfg.phiVars target ∧ k = (exitOf placed entry id).top var := by
      intro k hk
      obtain ⟨args, hargs⟩ := Phi.mem_targets.mp (by simpa using hk)
      obtain ⟨other, hother, heq, -⟩ := hmerges.target hargs
      obtain ⟨rfl, rfl⟩ := versionName_inj.mp heq
      exact ⟨hother, rfl⟩
    rw [eventsAt_eq hssa, Node.events]
    by_cases hmerged : var ∈ cfg.phiVars target
    · obtain ⟨before, after, hsplit⟩ := append_of_mem
        (Phi.mem_targets.mpr (hmerges.complete hmerged))
      have hnodup := Phi.nodup_targets phi
      rw [hsplit] at htargets hnodup ⊢
      rw [map_append, map_cons, ← append_assoc]
      refine .define (Nat.lt_of_le_of_lt (Nat.zero_le _) (hmerges.made hmerged).1) _ fun k hk => ?_
      obtain ⟨-, rfl⟩ := htargets k (by simp only [map_append, map_cons, mem_append,
        mem_cons, hk, or_true])
      have hafter := (nodup_cons.mp (nodup_append.mp hnodup).2.1).1
      exact hafter (by simpa using hk)
    · have hsame : (exitOf placed entry id).top var = (entry id).top var :=
        Renaming.top_exitOf (h.tracks hid) (h.mem_definedVars hcfg hid)
          fun hdef => hmerged ((h.mem_definitionsAt_phi hp).mp hdef)
      rw [hsame]
      refine (hearlier var hvar fun other hother => ?_).append fun k hk => hmerged (htargets k hk).1
      rwa [h.unique hother hp]

section

variable (hpath : ssa.Path ssa.start id nodes)
include hpath

/-- The versions at the beginning of a node are the last on every path. -/
theorem lastVersion_entry :
    placed.Reaches placed.start id ∧ ∀ var ∈ cfg.definedVars.toList, Unmerged cfg front id var →
      LastVersion var ((entry id).top var) (ssa.trace nodes.dropLast) := by
  induction hpath with
  | here =>
    rw [h.shape.start]
    refine ⟨.refl _, fun var _ _ => ?_⟩
    rw [h.top_start]
    exact .nil var
  | @step middle last nodes hpath hlast ih =>
    rw [h.shape.successors] at hlast
    refine ⟨ih.1.tail hlast, fun var hvar hunmerged => ?_⟩
    have hexit := h.lastVersion_exit hphi hversion ih.1 ih.2 var hvar
    rw [dropLast_concat, h.top_eq ih.1 hlast hunmerged, ← hpath.dropLast_append, trace_append]
    exact hexit

/-- Paths end in the current versions. -/
theorem lastVersion_path : ∀ var ∈ cfg.definedVars.toList,
      LastVersion var ((exitOf placed entry id).top var) (ssa.trace nodes) := by
  obtain ⟨hid, hentry⟩ := h.lastVersion_entry hphi hversion hpath
  rw [← hpath.dropLast_append, trace_append]
  exact h.lastVersion_exit hphi hversion hid hentry

/-- A node reads the last versions on every path to it. -/
theorem readsLast :
    ReadsLast cfg.definedVars.toList (ssa.trace nodes.dropLast) (ssa.eventsAt id) := by
  obtain ⟨hid, hentry⟩ := h.lastVersion_entry hphi hversion hpath
  have hcfg := h.wellFormed.sound
  rcases h.node_cases hphi hid with ⟨node, hreach, hnode, -, hssa⟩ | ⟨target, hp⟩
  · have hscope := (h.tracks hid).toScope
    rw [eventsAt_eq hssa]
    exact (Scope.current_renameNode hscope (fun var hvar => hentry var hvar
      fun target hp => absurd rfl (h.ne_phi (Graph.contains_of_payload? hnode) hp))
      (suits hcfg hphi hversion hreach hnode)).1
  · obtain ⟨phi, span, hssa, -⟩ := h.exists_merges (fresh hcfg hversion) hp hid
    rw [eventsAt_eq hssa, Node.events]
    exact .of_defines _

end

variable (hid : placed.Reaches placed.start id)
include hid

/-- No node but a phi block uses a variable under its own name. -/
theorem not_mem_uses {node : Node} (hnode : ssa.node? id = some node) (hnot : node.phi? = none)
    {var : String} (hvar : var ∈ cfg.definedVars.toList) : var ∉ node.uses := by
  have hcfg := h.wellFormed.sound
  rcases h.node_cases hphi hid with ⟨old, hreach, hold, -, hssa⟩ | ⟨target, hp⟩
  · have hscope := (h.tracks hid).toScope
    rw [hssa] at hnode
    cases hnode
    exact Scope.not_mem_uses_renameNode hscope (fresh hcfg hversion) hvar
      (suits hcfg hphi hversion hreach hold)
  · obtain ⟨phi, span, hssa, -⟩ := h.exists_merges (fresh hcfg hversion) hp hid
    rw [hssa] at hnode
    cases hnode
    simp [Node.phi?] at hnot

/-- A phi node that control reaches is a phi block of the conversion. -/
theorem merges_of_phi {phi : Phi} {span : Span} (hnode : ssa.node? id = some (.phi phi span)) :
    ∃ target, front target = some id ∧ Merges cfg placed entry target id phi := by
  rcases h.node_cases hphi hid with ⟨old, -, hold, -, hssa⟩ | ⟨target, hp⟩
  · rw [hssa] at hnode
    have hkind : old.kind = .phi := by
      rw [← Scope.kind_renameNode, Option.some.inj hnode, Node.kind]
    have hnot := hphi id old hold
    cases old <;> simp_all [Node.kind, Node.holdsPhi]
  · obtain ⟨phi', span', hssa, hmerges⟩ :=
      h.exists_merges (fresh h.wellFormed.sound hversion) hp hid
    rw [hssa] at hnode
    obtain ⟨rfl, -⟩ := Node.phi.inj (Option.some.inj hnode)
    exact ⟨target, hp, hmerges⟩

/-! ### Places of definitions -/

/-- A node defines versions with numbers given in it, each once. -/
theorem definitions_spec : (ssa.definitionsAt id).Nodup ∧ ∀ name ∈ ssa.definitionsAt id, ∃ var n,
      name = versionName var n ∧ (entry id).count var < n ∧
        n ≤ (exitOf placed entry id).count var := by
  have hcfg := h.wellFormed.sound
  rcases h.node_cases hphi hid with ⟨node, hreach, hnode, hplaced, hssa⟩ | ⟨target, hp⟩
  · have hscope := (h.tracks hid).toScope
    have hsuits := suits hcfg hphi hversion hreach hnode
    rw [definitionsAt_eq hssa, Scope.definitions_renameNode hscope hsuits, exitOf,
      definitionsAt_eq hplaced]
    refine ⟨Scope.nodup_defineAll hscope hsuits.defs, fun name hname => ?_⟩
    obtain ⟨var, -, n, hn⟩ := Scope.mem_defineAll hscope hsuits.defs hname
    exact ⟨var, n, hn⟩
  · obtain ⟨phi, span, hssa, hmerges⟩ := h.exists_merges (fresh hcfg hversion) hp hid
    rw [definitionsAt_eq hssa, Node.definitions]
    refine ⟨Phi.nodup_targets phi, fun name hname => ?_⟩
    obtain ⟨args, hargs⟩ := Phi.mem_targets.mp hname
    obtain ⟨var, hvar, rfl, -⟩ := hmerges.target hargs
    exact ⟨var, _, rfl, hmerges.made hvar⟩

end

/-- Of two reached nodes one is entered after the other was left. -/
theorem ordered_or (h : Converted cfg ssa placed front entry) {other : NodeId}
    (hid : placed.Reaches placed.start id) (hother : placed.Reaches placed.start other)
    (hne : id ≠ other) :
    (∀ var, (exitOf placed entry id).count var ≤ (entry other).count var) ∨
      ∀ var, (exitOf placed entry other).count var ≤ (entry id).count var := by
  have hmem := (h.sound.preorder_spec.2 other).mpr hother
  obtain ⟨before, after, hsplit⟩ := append_of_mem ((h.sound.preorder_spec.2 id).mpr hid)
  have hordered := h.ordered
  rw [hsplit] at hordered hmem
  obtain ⟨-, hafter, hbefore⟩ := pairwise_append.mp hordered
  rcases mem_append.mp hmem with hmem | hmem
  · exact .inr (hbefore other hmem id mem_cons_self)
  · exact .inl ((pairwise_cons.mp hafter).1 other
      ((mem_cons.mp hmem).resolve_left (Ne.symm hne)))

/-- No name is defined at two places. -/
theorem nodup_definitions (h : Converted cfg ssa placed front entry) (hphi : cfg.PhiFree)
    (hversion : cfg.VersionFree) (hssa : ssa.Sound) :
    (ssa.reached.flatMap ssa.definitionsAt).Nodup := by
  have hreach : ∀ {id}, id ∈ ssa.reached → placed.Reaches placed.start id := fun hid =>
    h.shape.reaches_iff.mp (hssa.mem_reached.mp hid)
  refine nodup_flatMap.mpr ⟨fun id hid => (h.definitions_spec hphi hversion (hreach hid)).1,
    ?_⟩
  refine List.Pairwise.imp_of_mem (fun {id other} hid hother hne name hname hname' => ?_)
    (Graph.nodup_breadthFirst hssa.graph hssa.start)
  obtain ⟨var, n, rfl, hlt, hle⟩ := (h.definitions_spec hphi hversion (hreach hid)).2 name hname
  obtain ⟨var', n', heq, hlt', hle'⟩ :=
    (h.definitions_spec hphi hversion (hreach hother)).2 _ hname'
  obtain ⟨rfl, rfl⟩ := versionName_inj.mp heq
  rcases h.ordered_or (hreach hid) (hreach hother) hne with horder | horder
  · have := horder var
    omega
  · have := horder var
    omega

end Converted

/-- The conversion of a well-formed flow graph without phi nodes has single assignment form, unless
it is refused because control reaches a stub inside a block. It is the graph with phi blocks in
front of some nodes and with its temporaries renamed. -/
theorem singleAssignment_toSsa (h : cfg.WellFormed) (hphi : cfg.PhiFree)
    (hversion : cfg.VersionFree) :
    cfg.toSsa = .error .stubInRenaming ∧ cfg.reachesStub ∨
      ∃ ssa count front, cfg.toSsa = .ok (ssa, count) ∧ Fronted cfg ssa front ∧
        RenamesTemps cfg ssa ∧ SingleAssignment cfg.definedVars ssa := by
  cases hstub : cfg.reachesStub with
  | true => exact .inl ⟨by simp [toSsa, hstub], rfl⟩
  | false =>
    obtain ⟨ssa, count, placed, front, entry, htoSsa, hconverted⟩ := h.exists_converted hstub
    have hssa : ssa.Sound := hconverted.shape.sound hconverted.sound
    have hvars : ∀ {var}, var ∈ cfg.definedVars → var ∈ cfg.definedVars.toList :=
      Std.ExtTreeSet.mem_toList.mpr
    have hreach : ∀ {id}, ssa.Reaches ssa.start id → placed.Reaches placed.start id :=
      hconverted.shape.reaches_iff.mp
    refine .inr ⟨ssa, count, front, htoSsa, hconverted.fronted hphi.kind?_ne,
      hconverted.renamesTemps hphi, ⟨fun {id node name} hid hnode hname => ?_,
      fun {id node var} hid hnode hnot hvar => ?_, fun hpath hvar hevents => ?_,
      fun {id phi span name args} hid hnode hargs => ?_⟩⟩
    · refine count_eq_one_of_mem (hconverted.nodup_definitions hphi hversion hssa) ?_
      rw [mem_flatMap]
      refine ⟨id, hssa.mem_reached.mpr hid, ?_⟩
      rw [definitionsAt_eq hnode]
      exact Node.mem_definitions.mpr hname
    · exact hconverted.not_mem_uses hphi hversion (hreach hid) hnode hnot (hvars hvar)
    · exact hconverted.readsLast hphi hversion hpath _ _ _ _ (hvars hvar) hevents
    · obtain ⟨target, -, hmerges⟩ := hconverted.merges_of_phi hphi hversion (hreach hid) hnode
      obtain ⟨var, hvar, rfl, hlength, hslots⟩ := hmerges.target hargs
      rw [hconverted.shape.incoming]
      refine ⟨hlength, var, (mem_phiVars.mp hvar).1, _, ?_, rfl, fun hslot hlink =>
        ⟨_, hslots hslot (hreach hlink), fun hpath => ?_⟩⟩
      · exact Nat.lt_of_le_of_lt (Nat.zero_le _) (hmerges.made hvar).1
      · exact hconverted.lastVersion_path hphi hversion hpath var (hvars (mem_phiVars.mp hvar).1)

/-- A loop that counts up, with a block that defines the counter and a variable that is read before
its only definition. -/
def counting : FlowGraph :=
  .ofNodes .dummy [.assign "i" (.const 0) .dummy,
      .branch (.binary .lt (.temp "i") (.temp "n")) .dummy,
      .block [.assign "i" (.binary .add (.temp "i") (.const 1)) .dummy,
        .call ["x"] "f" [.temp "i", .temp "x"] .dummy] .dummy,
      .ret .dummy]
    [⟨0, 1, none⟩, ⟨1, 2, none⟩, ⟨2, 3, some true⟩, ⟨2, 4, some false⟩, ⟨3, 2, none⟩]

/-- The loop gets one phi block, which stands at its head. -/
theorem singleAssignment_toSsa_counting :
    counting.WellFormed ∧ counting.PhiFree ∧ counting.VersionFree ∧
      ∃ ssa front, counting.toSsa = .ok (ssa, 1) ∧ Fronted counting ssa front ∧
        RenamesTemps counting ssa ∧ SingleAssignment counting.definedVars ssa := by
  have hwell : counting.WellFormed := ⟨by decide +kernel, .dummy, rfl⟩
  have hphi : counting.PhiFree := forall_node_of_nodes (by decide +kernel)
  have hversion : counting.VersionFree :=
    forall_node_of_nodes fun id hid node hnode => .of_not_begins <| by
      revert id node
      decide +kernel
  have hcount : counting.toSsa.toOption.map (·.2) = some 1 := by decide +kernel
  rcases singleAssignment_toSsa hwell hphi hversion with
    ⟨herror, -⟩ | ⟨ssa, count, front, hssa, hsingle⟩
  · simp [herror, Except.toOption] at hcount
  · obtain rfl : count = 1 := by simpa [hssa, Except.toOption] using hcount
    exact ⟨hwell, hphi, hversion, ssa, front, hssa, hsingle⟩

end FlowGraph

end Flowgraph

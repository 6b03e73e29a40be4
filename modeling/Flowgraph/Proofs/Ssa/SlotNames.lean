import Flowgraph.Proofs.Ssa.Hygiene

/-!
# Slots in single assignment form

Results are found in the result slots and arguments in the argument slots, so these have to keep
their names. An assignment keeps a result slot that it writes and an argument slot that it only
copies. A call does not keep a result slot that it collects into, and an argument slot that is read
in any other way is kept only if no node writes it (`FlowGraph.keepsSlots_roundTrip`).
-/

namespace Flowgraph

open List Slot
open Versions (versionName)

/-- Argument slots are no result slots. -/
theorem Slot.isResult_of_isArgument {name : String} (h : isArgument name) :
    isResult name = false := by
  by_contra hresult
  rw [Bool.not_eq_false] at hresult
  have hprefix : argumentStem.toList <+: resultStem.toList :=
    prefix_of_prefix_length_le (List.isPrefixOf_iff_prefix.mp h)
      (List.isPrefixOf_iff_prefix.mp hresult) (by decide)
  exact absurd hprefix (by decide)

/-- Versions differ from their variable. -/
theorem Versions.versionName_ne (var : String) (n : Nat) : versionName var n ≠ var := by
  intro heq
  have hlength := congrArg (fun name => name.toList.length) heq
  simp [toList_versionName] at hlength

/-! ### What nodes write and read -/

namespace Node

mutual

/-- The temporaries that a node writes, one for each place. -/
def writtenNames : Node → List String
  | .assign target _ _ => [target]
  | .call collectors _ _ _ => collectors
  | .block children _ => writtenNamesList children
  | .phi mappings _ => mappings.targets
  | _ => []

/-- The temporaries that several nodes in a row write. -/
def writtenNamesList : List Node → List String
  | [] => []
  | node :: rest => node.writtenNames ++ writtenNamesList rest

end

mutual

/-- The temporaries that a node reads, one for each place. -/
def readNames : Node → List String
  | .assign _ value _ => value.occurrences
  | .store address value _ => address.occurrences ++ value.occurrences
  | .call _ _ args _ => args.flatMap Expr.occurrences
  | .branch cond _ => cond.occurrences
  | .block children _ => readNamesList children
  | .phi ⟨_, mappings⟩ _ => mappings.toList.flatMap (·.2)
  | _ => []

/-- The temporaries that several nodes in a row read. -/
def readNamesList : List Node → List String
  | [] => []
  | node :: rest => node.readNames ++ readNamesList rest

end

/-- Result slots are written and argument slots read under their names. -/
structure KeepsSlots (old new : Node) : Prop where
  writes : Forall₂ (fun name name' => isResult name → name' = name)
    old.writtenNames new.writtenNames
  reads : Forall₂ (fun name name' => isArgument name → name' = name)
    old.readNames new.readNames

instance (old new : Node) : Decidable (old.KeepsSlots new) :=
  decidable_of_iff (_ ∧ _) ⟨fun h => ⟨h.1, h.2⟩, fun h => ⟨h.writes, h.reads⟩⟩

/-- Whether a node is a call that collects into a result slot. -/
def collectsResult : Node → Bool
  | .call collectors _ _ _ => collectors.any isResult
  | _ => false

/-- Whether a node only assigns a temporary to another. -/
def copies (name : String) : Node → Bool
  | .assign _ (.temp source) _ => source == name
  | _ => false

section Single

variable {node : Node} {name : String}

/-- An argument slot that a node writes counts as a variable. -/
theorem mem_writtenNames_iff (hblock : node.kind ≠ .block) (hslot : isArgument name) :
    name ∈ node.writtenNames ↔ name ∈ node.definitions := by
  cases node with
  | assign target value span =>
    rw [writtenNames, definitions]
    split
    · next hresult =>
      have hne : name ≠ target := by
        rintro rfl
        exact Bool.noConfusion (hresult.symm.trans (isResult_of_isArgument hslot))
      simp [hne]
    · exact Iff.rfl
  | block => exact absurd rfl hblock
  | _ => simp [definitions, writtenNames]

variable (hphi : node.kind ≠ .phi) (hblock : node.kind ≠ .block)
include hphi hblock

/-- A defined result slot is one that a call collects into. -/
theorem collectsResult_of_mem_definitions (hname : name ∈ node.definitions)
    (hslot : isResult name) : node.collectsResult := by
  cases node with
  | assign target value span =>
    rw [definitions] at hname
    split at hname
    · exact absurd hname not_mem_nil
    · next hresult => exact absurd (mem_singleton.mp hname ▸ hslot) hresult
  | call collectors callee args span => exact any_eq_true.mpr ⟨name, hname, hslot⟩
  | block => exact absurd rfl hblock
  | phi => exact absurd rfl hphi
  | _ => exact absurd hname not_mem_nil

/-- A node uses the argument slots that it reads and does not only copy. -/
theorem mem_uses_iff_copies (hname : name ∈ node.readNames) (hslot : isArgument name) :
    name ∈ node.uses ↔ node.copies name = false := by
  cases node with
  | assign target value span =>
    rw [readNames, Expr.mem_occurrences] at hname
    cases value with
    | temp source =>
      obtain rfl : source = name := by simpa [Expr.freeVars] using hname
      simp [uses, valueUses, Expr.asTemp?, copies, hslot]
    | _ => simpa [uses, valueUses, Expr.asTemp?, copies] using hname
  | store address value span =>
    simpa [uses, copies, readNames, Expr.mem_occurrences] using hname
  | call collectors callee args span =>
    simpa [uses, copies, readNames, Expr.mem_occurrences, NameSet.mem_unions] using hname
  | branch cond span => simpa [uses, copies, readNames, Expr.mem_occurrences] using hname
  | block => exact absurd rfl hblock
  | phi => exact absurd rfl hphi
  | _ => exact absurd hname not_mem_nil

end Single

end Node

/-! ### Renaming a node -/

namespace Scope

variable {vars : List String} {node : Node}

/-- The reads of a single node are renamed place by place. -/
theorem readNames_renameNode (scope : Scope) (hphi : node.kind ≠ .phi)
    (hblock : node.kind ≠ .block) : (scope.renameNode node).2.readNames =
      node.readNames.map (Expr.renamed (scope.versions.renamer node.uses)) := by
  cases node with
  | assign target value span =>
    rw [renameNode]
    split <;> simp only [Node.readNames, Node.uses, Expr.occurrences_replaceTemps]
  | store address value span =>
    simp [renameNode, Node.readNames, Node.uses, Expr.occurrences_replaceTemps]
  | call collectors callee args span =>
    simp [renameNode, Node.readNames, Node.uses, Expr.occurrences_replaceTemps, flatMap_map,
      map_flatMap]
  | branch cond span => simp [renameNode, Node.readNames, Node.uses, Expr.occurrences_replaceTemps]
  | block => exact absurd rfl hblock
  | phi => exact absurd rfl hphi
  | _ => simp [renameNode, Node.readNames]

/-- Names outside the variables stay. -/
theorem renamed_eq_self_iff {versions : Versions} (h : versions.Tracks vars) {uses : NameSet}
    {name : String} :
    Expr.renamed (versions.renamer uses) name = name ↔ (name ∈ uses → name ∉ vars) := by
  rw [Versions.renamed_renamer]
  split
  · next hused =>
    by_cases hvar : name ∈ vars
    · simp [h.current_of_mem hvar, hused, hvar, Versions.versionName_ne]
    · simp [h.current_of_not_mem hvar, hvar]
  · next hused => simp [hused]

/-- Argument slots keep their names exactly if copied or no variable. -/
theorem keepsReads_renameNode (scope : Scope) (h : scope.versions.Tracks vars)
    (hphi : node.kind ≠ .phi) (hblock : node.kind ≠ .block) :
    Forall₂ (fun name name' => isArgument name → name' = name)
      node.readNames (scope.renameNode node).2.readNames ↔
        ∀ name ∈ node.readNames, isArgument name → node.copies name ∨ name ∉ vars := by
  rw [readNames_renameNode scope hphi hblock, forall₂_map_right_iff, forall₂_same]
  refine forall₂_congr fun name hname => forall_congr' fun hslot => ?_
  rw [renamed_eq_self_iff h, Node.mem_uses_iff_copies hphi hblock hname hslot, or_iff_not_imp_left,
    Bool.not_eq_true]

/-- A version differs from its variable, so no variable may be a slot. -/
theorem keepsWrites_versions {names names' : List String}
    (h : Forall₂ (fun old new => ∃ n, new = versionName old n) names names') :
    Forall₂ (fun name name' => isResult name → name' = name) names names' ↔
      ∀ name ∈ names, isResult name = false := by
  induction h with
  | nil => simp
  | cons hversion _ ih =>
    obtain ⟨n, rfl⟩ := hversion
    rw [forall₂_cons, ih, forall_mem_cons]
    simp [Versions.versionName_ne]

/-- Result slots keep their names exactly if no call collects into them. -/
theorem keepsWrites_renameNode (scope : Scope) (h : scope.versions.Tracks vars)
    (hphi : node.kind ≠ .phi)
    (hblock : node.kind ≠ .block) (hdefs : ∀ var ∈ node.definitions, var ∈ vars) :
    Forall₂ (fun name name' => isResult name → name' = name)
      node.writtenNames (scope.renameNode node).2.writtenNames ↔ node.collectsResult = false := by
  cases node with
  | assign target value span =>
    rw [renameNode]
    split
    · simp [Node.writtenNames, Node.collectsResult]
    · next hresult => simp [Node.writtenNames, Node.collectsResult, hresult]
  | call collectors callee args span =>
    rw [Node.definitions] at hdefs
    rw [renameNode, Node.writtenNames, Node.writtenNames,
      keepsWrites_versions (versions_defineAll h hdefs)]
    simp [Node.collectsResult]
  | block => exact absurd rfl hblock
  | phi => exact absurd rfl hphi
  | _ => simp [renameNode, Node.writtenNames, Node.collectsResult]

end Scope

/-! ### New nodes -/

section New

variable {phi : Phi} {scope : Scope}

/-- Renaming brings in one target. -/
theorem Phi.mem_targets_renameTarget {old new name : String}
    (h : name ∈ (phi.renameTarget old new).targets) : name = new ∨ name ∈ phi.targets := by
  cases hold : phi.mappings[old]? with
  | none =>
    simp only [renameTarget, hold] at h
    exact .inr h
  | some args =>
    obtain ⟨args', hargs⟩ := mem_targets.mp h
    rw [getElem?_renameTarget hold] at hargs
    split at hargs
    · next heq => exact .inl heq.symm
    · split at hargs
      · cases hargs
      · exact .inr (mem_targets.mpr ⟨args', hargs⟩)

/-- Results are renamed to results. -/
theorem Scope.isResult_define (scope : Scope) (var : String) :
    isResult (scope.define var).2 = isResult var := by
  rw [define]
  split
  · rfl
  · exact Versions.isResult_versionName ..

/-- A phi block that merges no result slot writes none. -/
theorem Scope.isResult_defineTargets {targets : List String}
    (hphi : ∀ name ∈ phi.targets, isResult name = false)
    (htargets : ∀ name ∈ targets, isResult name = false) :
    ∀ name ∈ (scope.defineTargets phi targets).2.targets, isResult name = false := by
  induction targets generalizing scope phi with
  | nil => exact hphi
  | cons target rest ih =>
    obtain ⟨htarget, hrest⟩ := forall_mem_cons.mp htargets
    refine ih (fun name hname => ?_) hrest
    rcases Phi.mem_targets_renameTarget hname with rfl | hname
    · exact (isResult_define scope target).trans htarget
    · exact hphi name hname

end New

namespace FlowGraph

variable {cfg ssa placed final : FlowGraph} {front : NodeId → Option NodeId}
  {entry : NodeId → Versions} {body : Stmt}

/-- A node does not collect into a result slot, and reads an argument slot only to copy it, unless
no node writes the slot. -/
structure SparesSlots (cfg : FlowGraph) (node : Node) : Prop where
  results : node.collectsResult = false
  arguments : ∀ name ∈ node.readNames, isArgument name → node.copies name ∨
    ∀ id ∈ cfg.nodes, ∀ other ∈ cfg.node? id, name ∉ other.writtenNames

instance (cfg : FlowGraph) (node : Node) : Decidable (cfg.SparesSlots node) :=
  decidable_of_iff (_ ∧ _) ⟨fun h => ⟨h.1, h.2⟩, fun h => ⟨h.results, h.arguments⟩⟩

/-- No node is a phi node or holds other nodes. -/
def Elementary (cfg : FlowGraph) : Prop :=
  ∀ id node, cfg.node? id = some node → node.kind ≠ .phi ∧ node.kind ≠ .block

/-- Elementary graphs have no phi block. -/
theorem Elementary.phiFree (h : cfg.Elementary) : cfg.PhiFree := by
  intro id node hnode
  obtain ⟨hphi, hblock⟩ := h id node hnode
  cases node with
  | phi => exact absurd rfl hphi
  | block => exact absurd rfl hblock
  | _ => simp [Node.holdsPhi]

/-- Constructed graphs are elementary. -/
theorem elementary_of_ofBody (h : ofBody body = .ok cfg) : cfg.Elementary := by
  intro id node hnode
  obtain ⟨builder, places, dest, hbuilt⟩ := built_of_ofBody h
  have hkind : cfg.kind? id = some node.kind := by rw [kind?, hnode, Option.map_some]
  exact (hbuilt.kind_cases hkind).2.2

/-- An argument slot is a variable exactly if some node writes it. -/
theorem Tidy.mem_definedVars_iff (h : cfg.Tidy) (helementary : cfg.Elementary) {name : String}
    (hslot : isArgument name) : name ∈ cfg.definedVars.toList ↔
      ∃ id other, cfg.node? id = some other ∧ name ∈ other.writtenNames := by
  rw [Std.ExtTreeSet.mem_toList, h.sound.mem_definedVars]
  constructor
  · rintro ⟨id, hid, hname⟩
    obtain ⟨other, hother⟩ := exists_node (hid.contains h.sound.graph h.sound.start)
    rw [definitionsAt_eq hother, ← Node.mem_writtenNames_iff (helementary _ _ hother).2 hslot]
      at hname
    exact ⟨id, other, hother, hname⟩
  · rintro ⟨id, other, hother, hname⟩
    rw [Node.mem_writtenNames_iff (helementary _ _ hother).2 hslot, ← definitionsAt_eq hother]
      at hname
    exact ⟨id, h.reached (Graph.contains_of_payload? hother), hname⟩

namespace Converted

/-- An old node keeps its slots exactly if it spares them. -/
theorem exists_keepsSlots_iff (h : Converted cfg ssa placed front entry) (htidy : cfg.Tidy)
    (helementary : cfg.Elementary) {id : NodeId} {node : Node} (hnode : cfg.node? id = some node) :
    ∃ renamed, ssa.node? id = some renamed ∧ (node.KeepsSlots renamed ↔ cfg.SparesSlots node) := by
  have hlive := Graph.contains_of_payload? hnode
  have hreach := h.reaches (htidy.reached hlive)
  rcases h.node_cases helementary.phiFree hreach with ⟨old, hold, hcfg, -, hssa⟩ | ⟨target, hp⟩
  · obtain rfl := Option.some.inj (hnode.symm.trans hcfg)
    obtain ⟨hnotPhi, hnotBlock⟩ := helementary id node hnode
    have hvars : ∀ {name}, isArgument name → (name ∈ cfg.definedVars.toList ↔ _) := fun hslot =>
      htidy.mem_definedVars_iff helementary hslot
    have htracks := h.tracks hreach
    have hwrites := Scope.keepsWrites_renameNode ⟨entry id, []⟩ htracks hnotPhi hnotBlock
      (htidy.sound.definitions_subset hold hnode)
    have hreads := Scope.keepsReads_renameNode ⟨entry id, []⟩ htracks hnotPhi hnotBlock
    refine ⟨_, hssa, fun hkeeps => ⟨hwrites.mp hkeeps.writes, fun name hname hslot => ?_⟩,
      fun hspares => ⟨hwrites.mpr hspares.results, hreads.mpr fun name hname hslot => ?_⟩⟩
    · refine (hreads.mp hkeeps.reads name hname hslot).imp_right
        fun hnot id _ other hother hwritten => ?_
      exact hnot ((hvars hslot).mpr ⟨id, other, hother, hwritten⟩)
    · refine (hspares.arguments name hname hslot).imp_right fun hunwritten hvar => ?_
      obtain ⟨id, other, hother, hwritten⟩ := (hvars hslot).mp hvar
      exact hunwritten id (Graph.mem_nodes.mpr (Graph.contains_of_payload? hother)) other hother
        hwritten
  · exact absurd rfl (h.ne_phi hlive hp)

/-- Targets are no result slots if no variable is one. -/
theorem isResult_targets (h : Converted cfg ssa placed front entry)
    (hresult : ∀ var ∈ cfg.definedVars.toList, isResult var = false) {target p : NodeId} {phi : Phi}
    {span : Span} (hp : front target = some p) (hreach : placed.Reaches placed.start p)
    (hnode : ssa.node? p = some (.phi phi span)) : ∀ name ∈ phi.targets, isResult name = false := by
  obtain ⟨-, -, span', hplaced⟩ := h.phi hp
  have htext := h.text hreach hplaced
  simp only [Node.mapSlots, Scope.renameNode, Phi.targets_mapSlots, Scope.defineTargets_mapSlots]
    at htext
  obtain ⟨rfl, -⟩ := Node.phi.inj (Option.some.inj (hnode.symm.trans htext))
  have hvars : ∀ name ∈ (Phi.ofVars (cfg.movableIncoming target).length
      (cfg.phiVars target)).targets, isResult name = false := fun name hname =>
    hresult name (phiVars_subset name (Phi.mem_targets_ofVars.mp hname))
  rw [Phi.targets_mapSlots]
  exact Scope.isResult_defineTargets hvars hvars

end Converted

/-- A result slot is a variable only if a call collects into it. -/
theorem Tidy.isResult_definedVars (h : cfg.Tidy) (helementary : cfg.Elementary)
    (hspares : ∀ {id node}, cfg.node? id = some node → node.collectsResult = false) :
    ∀ var ∈ cfg.definedVars.toList, isResult var = false := by
  intro var hvar
  obtain ⟨id, hid, hdefined⟩ := h.sound.mem_definedVars.mp (Std.ExtTreeSet.mem_toList.mp hvar)
  obtain ⟨node, hnode⟩ := exists_node (hid.contains h.sound.graph h.sound.start)
  obtain ⟨hphi, hblock⟩ := helementary id node hnode
  rw [definitionsAt_eq hnode] at hdefined
  by_contra hresult
  rw [Bool.not_eq_false] at hresult
  have hcollects := Node.collectsResult_of_mem_definitions hphi hblock hdefined hresult
  exact Bool.noConfusion ((hspares hnode).symm.trans hcollects)

/-- New nodes write no result slot if no variable is one. -/
theorem RoundTrip.isResult_new {gone : List NodeId} {route : NodeId → Link → NodeId × List NodeId}
    (h : RoundTrip cfg ssa placed final front entry gone route) (htidy : cfg.Tidy)
    (hresult : ∀ var ∈ cfg.definedVars.toList, isResult var = false) {id : NodeId} {node : Node}
    (hnew : cfg.contains id = false) (hnode : ssa.node? id = some node ∨
      final.node? id = some node) :
    ∀ name ∈ node.writtenNames, isResult name = false := by
  have hssa := h.toConverted.tidy htidy h.phiFree
  have htargets : ∀ {target p phi span}, front target = some p →
      ssa.node? p = some (.phi phi span) →
      ∀ name ∈ phi.targets, isResult name = false := fun hp hphi =>
    h.isResult_targets hresult hp (h.shape.reaches_iff.mp
      (hssa.reached (Graph.contains_of_payload? hphi))) hphi
  rcases hnode with hnode | hnode
  · -- In single assignment form only phi blocks are new.
    obtain ⟨target, hp⟩ := (h.live_cases (Graph.contains_of_payload? hnode)).resolve_left
      (by simp [hnew])
    have hkind := h.kind?_phi hp
    rw [kind?, hnode, Option.map_some, Option.some.injEq] at hkind
    cases node with
    | phi phi span => exact htargets hp hnode
    | _ => cases hkind
  · have hreached := (h.tidy htidy).reached (Graph.contains_of_payload? hnode)
    rcases h.reached_cases hreached with hold | ⟨source, link, hsource, hlink, hlane⟩
    · have hlive := hold.contains htidy.sound.graph htidy.sound.start
      exact Bool.noConfusion (hnew.symm.trans hlive)
    · -- The copies on a lane write what the phi block wrote.
      obtain ⟨copies, hcopied, hcopies⟩ := h.exists_lane hlink (h.passes hsource hlink)
      obtain ⟨other, hmem, hother, -⟩ := hcopied.node_of_mem hlane
      obtain rfl := Option.some.inj (hnode.symm.trans hother)
      rcases hcopies with ⟨-, rfl⟩ | ⟨p, phi, span, slot, hp, -, hphi, -, rfl⟩
      · exact absurd hmem not_mem_nil
      · obtain ⟨target, htarget, arg, rfl⟩ := mem_copiesFor hmem
        intro name hname
        obtain rfl : name = target := by simpa [Node.writtenNames] using hname
        exact htargets hp hphi name htarget

/-- The nodes of a body keep their slots in single assignment form and on the way back, apart from
calls that collect into a result slot and from nodes that read an argument slot, other than to copy
it, which some node writes. If there are none of these, the nodes that are added do not write to a
result slot either. -/
theorem keepsSlots_roundTrip (h : ofBody body = .ok cfg) :
    ∃ ssa count final copies, cfg.toSsa = .ok (ssa, count) ∧ ssa.fromSsa = (final, .done copies) ∧
      (∀ {id node}, cfg.node? id = some node → ∃ renamed, ssa.node? id = some renamed ∧
        final.node? id = some renamed ∧ (node.KeepsSlots renamed ↔ cfg.SparesSlots node)) ∧
      ((∀ {id node}, cfg.node? id = some node → cfg.SparesSlots node) → ∀ {id node},
        cfg.contains id = false → ssa.node? id = some node ∨ final.node? id = some node →
          ∀ name ∈ node.writtenNames, Slot.isResult name = false) := by
  obtain ⟨htidy, hwritable⟩ := tidy_of_ofBody h
  have helementary := elementary_of_ofBody h
  obtain ⟨ssa, count, final, copies, placed, front, entry, gone, route, hssa, hfinal, htrip⟩ :=
    htidy.wellFormed.exists_roundTrip hwritable
  refine ⟨ssa, count, final, copies, hssa, hfinal, fun {id node} hnode => ?_,
    fun hspares {id node} hnew => ?_⟩
  · obtain ⟨renamed, hrenamed, hslots⟩ := htrip.exists_keepsSlots_iff htidy helementary hnode
    have hsame := htrip.node_final (Graph.contains_of_payload? hnode)
    exact ⟨renamed, hrenamed, hsame.trans hrenamed, hslots⟩
  · exact htrip.isResult_new htidy
      (htidy.isResult_definedVars helementary fun hnode => (hspares hnode).results) hnew

/-- A function that writes the slot of its first argument on one of two ways, but only copies it. -/
def delivering : Stmt :=
  .seq [
    .instr (.move (.temp "x") (.temp "_ARG0")) .dummy,
    .instr (.branch (.temp "_ARG1") "L") .dummy,
    .instr (.move (.temp "_ARG0") (.const 0)) .dummy,
    .instr (.move (.temp "x") (.binary .add (.temp "x") (.temp "_ARG1"))) .dummy,
    .instr (.label "L") .dummy,
    .instr (.move (.temp "_RET0") (.temp "x")) .dummy,
    .instr .ret .dummy] .dummy

/-- A body that hands over a result. -/
theorem keepsSlots_roundTrip_delivering : ∃ cfg ssa count final copies,
    ofBody delivering = .ok cfg ∧
    cfg.toSsa = .ok (ssa, count) ∧ ssa.fromSsa = (final, .done copies) ∧
    ∀ {id node}, cfg.node? id = some node → ∃ renamed, ssa.node? id = some renamed ∧
      final.node? id = some renamed ∧ node.KeepsSlots renamed := by
  obtain ⟨cfg, hcfg, hspares⟩ : ∃ cfg, ofBody delivering = .ok cfg ∧
      ∀ id ∈ cfg.nodes, ∀ node ∈ cfg.node? id, cfg.SparesSlots node :=
    exists_ok_of_any (by decide +kernel)
  obtain ⟨ssa, count, final, copies, hssa, hfinal, hslots, -⟩ := keepsSlots_roundTrip hcfg
  refine ⟨cfg, ssa, count, final, copies, hcfg, hssa, hfinal, fun {id node} hnode => ?_⟩
  obtain ⟨renamed, hrenamed, hfinally, hkeeps⟩ := hslots hnode
  exact ⟨renamed, hrenamed, hfinally, hkeeps.mpr (forall_node_of_nodes hspares id node hnode)⟩

/-- A function that passes on the result of a call, and writes the slot of an argument that it has
read. -/
def forwarding : Stmt :=
  .seq [
    .instr (.move (.temp "x") (.binary .add (.temp "_ARG0") (.const 1))) .dummy,
    .instr (.move (.temp "_ARG0") (.const 0)) .dummy,
    .instr (.call ["_RET0"] "f" [.temp "x"]) .dummy,
    .instr .ret .dummy] .dummy

/-- The result is not delivered, and the argument is not taken from its slot. -/
theorem slots_lost_forwarding : ∃ cfg ssa final copies, ofBody forwarding = .ok cfg ∧
    cfg.toSsa = .ok (ssa, 0) ∧ ssa.fromSsa = (final, .done copies) ∧
    (ssa.node? 3).map Node.render = some "_RET0_1 := call f(x_1)" ∧
    (ssa.node? 5).map Node.render = some "x_1 := (_ARG0_0 + 1)" ∧
    ∀ id ∈ [3, 5], ∃ node renamed, cfg.node? id = some node ∧ ssa.node? id = some renamed ∧
      final.node? id = some renamed ∧ ¬ node.KeepsSlots renamed := by
  obtain ⟨cfg, hcfg, hconverts⟩ : ∃ cfg, ofBody forwarding = .ok cfg ∧
      cfg.toSsa.toOption.any fun result => decide (result.2 = 0 ∧
        (result.1.node? 3).map Node.render = some "_RET0_1 := call f(x_1)" ∧
        (result.1.node? 5).map Node.render = some "x_1 := (_ARG0_0 + 1)" ∧
        ∀ id ∈ [(3 : NodeId), 5], (cfg.node? id).any (fun node =>
          (result.1.node? id).any fun renamed => !decide (node.KeepsSlots renamed))) := by
    apply exists_ok_of_any
    decide +kernel
  obtain ⟨htidy, hwritable⟩ := tidy_of_ofBody hcfg
  obtain ⟨ssa, count, final, copies, _, _, _, _, _, hssa, hfinal, htrip⟩ :=
    htidy.wellFormed.exists_roundTrip hwritable
  simp only [hssa, Except.toOption, Option.any_some, decide_eq_true_eq] at hconverts
  obtain ⟨rfl, hcall, hassign, hlost⟩ := hconverts
  refine ⟨cfg, ssa, final, copies, hcfg, hssa, hfinal, hcall, hassign, fun id hid => ?_⟩
  obtain ⟨node, hnode, hany⟩ := (Option.any_eq_true _ _).mp (hlost id hid)
  obtain ⟨renamed, hrenamed, hnot⟩ := (Option.any_eq_true _ _).mp hany
  have hsame := htrip.node_final (Graph.contains_of_payload? hnode)
  exact ⟨node, renamed, hnode, hrenamed, hsame.trans hrenamed, by simpa using hnot⟩

end FlowGraph

end Flowgraph

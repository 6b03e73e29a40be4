import Flowgraph.Proofs.Ssa.Outline
import Flowgraph.Proofs.Ssa.Placed
import Flowgraph.Proofs.Ssa.Walk

/-!
# Graphs in single assignment form

`FlowGraph.Converted`: phi blocks are placed, and every node that control can reach is renamed with
the versions that its immediate dominator left. Along an edge the current version of a variable does
not change, unless the edge leads to a phi block for it (`Converted.top_eq`).
-/

namespace Flowgraph

open List

namespace FlowGraph

open Renaming (exitOf slotText)
open Versions (versionName versionName_inj)

/-- A well-formed graph and its conversion, with the graph after placing phi blocks and the versions
at the beginning of each node. -/
structure Converted (cfg ssa placed : FlowGraph) (front : NodeId → Option NodeId)
    (entry : NodeId → Versions) : Prop extends FullyPlaced cfg placed front where
  shape : SameShape placed ssa
  outline : SameOutline placed ssa
  text : ∀ {id node}, placed.Reaches placed.start id → placed.node? id = some node →
    ssa.node? id = some (({ versions := entry id } : Scope).renameNode
      (node.mapSlots (slotText placed entry placed.dominatorTree.preorder id))).2
  tracks : ∀ {id}, placed.Reaches placed.start id → (entry id).Tracks cfg.definedVars.toList
  top_start : ∀ var, (entry placed.start).top var = 0
  top_child : ∀ {id dominator}, placed.dominatorTree.idom? id = some dominator → ∀ var,
    (entry id).top var = (exitOf placed entry dominator).top var
  ordered : placed.dominatorTree.preorder.Pairwise fun id other => ∀ var,
    (exitOf placed entry id).count var ≤ (entry other).count var

variable {cfg ssa placed : FlowGraph} {front : NodeId → Option NodeId} {entry : NodeId → Versions}

/-- Placing defines no new variable. -/
theorem Placed.mem_definedVars (h : Placed cfg placed front) (hcfg : cfg.Sound) {id : NodeId}
    (hid : placed.Reaches placed.start id) :
    ∀ var ∈ placed.definitionsAt id, var ∈ cfg.definedVars.toList := fun _ hvar =>
  Std.ExtTreeSet.mem_toList.mpr (h.site_of_definition hcfg hid hvar).1

/-- The conversion succeeds unless control reaches a stub. -/
theorem WellFormed.exists_converted (h : cfg.WellFormed) (hstub : cfg.reachesStub = false) :
    ∃ ssa count placed front entry, cfg.toSsa = .ok (ssa, count) ∧
      Converted cfg ssa placed front entry := by
  obtain ⟨front, hplaced⟩ := h.exists_fullyPlaced
  generalize hplacePhis : cfg.placePhis = result at hplaced
  obtain ⟨placed, count⟩ := result
  dsimp only at hplaced
  have hdefs := fun id (hid : placed.Reaches placed.start id) => hplaced.mem_definedVars h.sound hid
  have hfan : ∀ id, (Renaming.collapse (placed.successors id)).Nodup := fun id =>
    Renaming.nodup_collapse (hplaced.length_successors_le h id)
  obtain ⟨htracks, htop⟩ := Versions.tracks_ofVars (nodup_toList cfg.definedVars)
  have hopening : Renaming.Entered placed (fun _ => {}) []
      (⟨placed, .ofVars cfg.definedVars.toList⟩ : Renaming).cfg := .nil ..
  obtain ⟨entry, hwalked, hentry⟩ := Renaming.walk_spec hplaced.sound hfan hdefs
    placed.dominatorTree.order.length (.refl _) (by simp [dominatorTree_order]) hopening htracks
    (by simp)
  refine ⟨placed.rename cfg.definedVars.toList, count, placed, front, entry, ?_, hplaced,
    hwalked.entered.shape, sameOutline_rename _ _, fun {id node} hid hnode => ?_,
    fun {id} hid => ?_, fun var => ?_,
    fun {id dominator} hid var => ?_, hwalked.numbered.ordered⟩
  · simp [toSsa, hstub, hplacePhis]
  · have hmem : id ∈ placed.dominatorTree.preorder := (hplaced.sound.preorder_spec.2 id).mpr hid
    have htext := hwalked.entered.text id
    rw [append_nil, hnode] at htext
    exact htext.trans (congrArg some (if_pos hmem))
  · exact hwalked.numbered.tracks id ((hplaced.sound.preorder_spec.2 id).mpr hid)
  · rw [hentry, htop]
  · have himm := hplaced.sound.idom?_eq_some_iff.mp hid
    have hmem := (hplaced.sound.preorder_spec.2 dominator).mpr himm.1.2.reaches_left
    have hlive := (hwalked.numbered.nested dominator hmem id
      (hplaced.sound.mem_childrenOf.mpr hid)).2
    rw [Versions.top, hlive, Versions.top]

/-- What the conversion answers, if it succeeds. -/
theorem WellFormed.converted_toSsa {count : Nat} (h : cfg.WellFormed)
    (hssa : cfg.toSsa = .ok (ssa, count)) :
    count = cfg.placePhis.2 ∧ ∃ placed front entry, Converted cfg ssa placed front entry := by
  have hstub : cfg.reachesStub = false := by
    by_contra hstub
    rw [toSsa, if_pos (by simpa using hstub)] at hssa
    cases hssa
  obtain ⟨_, _, placed, front, entry, hok, hconverted⟩ := h.exists_converted hstub
  obtain ⟨rfl, -⟩ := Prod.mk.inj (Except.ok.inj (hssa.symm.trans hok))
  refine ⟨?_, placed, front, entry, hconverted⟩
  rw [toSsa, hstub] at hssa
  exact (Prod.mk.inj (Except.ok.inj hssa)).2.symm

namespace Converted

variable {var : String} {target p : NodeId}

/-- Below a node the current version stays until the next definition. -/
theorem top_of_dominates (h : Converted cfg ssa placed front entry) {d y : NodeId}
    (hdom : placed.Dominates d y)
    (hnone : ∀ x, placed.StrictlyDominates d x → placed.Dominates x y →
      var ∉ placed.definitionsAt x) :
    (exitOf placed entry y).top var = (exitOf placed entry d).top var := by
  induction hrank : placed.rank y using Nat.strongRecOn generalizing y with
  | ind rank ih =>
    by_cases heq : d = y
    · rw [heq]
    have hstrict : placed.StrictlyDominates d y := ⟨heq, hdom⟩
    obtain ⟨e, he⟩ := h.sound.exists_idom hdom.1 (by
      rintro rfl
      exact heq (dominates_start_iff.mp hdom))
    have himm := h.sound.idom?_eq_some_iff.mp he
    have hde : placed.Dominates d e := himm.2 d hstrict
    have hrest := ih (placed.rank e) (hrank ▸ h.sound.rank_lt himm.1) hde
      (fun x hdx hxe => hnone x hdx (hxe.trans himm.1.2)) rfl
    rw [Renaming.top_exitOf (h.tracks hdom.1) (h.mem_definedVars h.wellFormed.sound hdom.1)
      (hnone y hstrict (.refl hdom.1)), h.top_child he, hrest]

/-- Along an edge to no phi block for a variable its version stays. -/
theorem top_eq (h : Converted cfg ssa placed front entry) {n m : NodeId}
    (hn : placed.Reaches placed.start n) (hnm : m ∈ placed.successors n)
    (hvar : ∀ target, front target = some m → var ∉ cfg.phiVars target) :
    (entry m).top var = (exitOf placed entry n).top var := by
  have hm := hn.tail hnm
  obtain ⟨d, hd⟩ := h.sound.exists_idom hm fun heq =>
    h.start_not_mem_successors h.wellFormed (heq ▸ hnm)
  have himm := h.sound.idom?_eq_some_iff.mp hd
  have hdn := himm.1.dominates_predecessor hn hnm
  rw [h.top_child hd, h.top_of_dominates hdn]
  intro x hdx hxn hdefined
  have hnot : ¬ placed.StrictlyDominates x m := fun hxm =>
    hdx.1 (h.sound.dominates_antisymm hdx.2 (himm.2 x hxm))
  obtain ⟨target, htarget, hphi⟩ := h.phiVars_of_inFrontier hdefined ⟨n, hxn, hnm, hnot⟩
  exact hvar target htarget hphi

/-- A phi block of the conversion, with the versions of its variables. -/
structure Merges (cfg placed : FlowGraph) (entry : NodeId → Versions) (target p : NodeId)
    (phi : Phi) : Prop where
  made : ∀ {var}, var ∈ cfg.phiVars target →
    (entry p).count var < (exitOf placed entry p).top var ∧
      (exitOf placed entry p).top var ≤ (exitOf placed entry p).count var
  complete : ∀ {var}, var ∈ cfg.phiVars target → ∃ args,
    phi.mappings[versionName var ((exitOf placed entry p).top var)]? = some args
  target : ∀ {name args}, phi.mappings[name]? = some args → ∃ var ∈ cfg.phiVars target,
    name = versionName var ((exitOf placed entry p).top var) ∧
      args.length = (placed.incoming p).length ∧
      ∀ {slot : Nat} {link : Link}, (placed.incoming p)[slot]? = some link →
        placed.Reaches placed.start link.1 →
        args[slot]? = some (versionName var ((exitOf placed entry link.1).top var))

/-- Phi variables are defined. -/
theorem phiVars_subset : ∀ var ∈ cfg.phiVars target, var ∈ cfg.definedVars.toList :=
  fun _ hvar => Std.ExtTreeSet.mem_toList.mpr (mem_phiVars.mp hvar).1

variable (h : Converted cfg ssa placed front entry)
include h

/-- The text of a reached phi block: its targets have new versions, and its slots are filled. -/
theorem node?_phi_ssa (hp : front target = some p) (hreach : placed.Reaches placed.start p) :
    ∃ span, ssa.node? p = some (.phi ((({ versions := entry p } : Scope).defineTargets
      (.ofVars (cfg.movableIncoming target).length (cfg.phiVars target))
      (Phi.ofVars (cfg.movableIncoming target).length (cfg.phiVars target)).targets).2.mapSlots
        (slotText placed entry placed.dominatorTree.preorder p)) span) := by
  obtain ⟨-, -, span, hnode⟩ := h.phi hp
  have htext := h.text hreach hnode
  simp only [Node.mapSlots, Scope.renameNode, Phi.targets_mapSlots, Scope.defineTargets_mapSlots]
    at htext
  exact ⟨span, htext⟩

/-- A slot of an edge from a reached node holds the version at its end. -/
theorem slotText_of_reaches {slot : Nat} {link : Link}
    (hslot : (placed.incoming p)[slot]? = some link) (hlink : placed.Reaches placed.start link.1)
    (hvar : var ∈ cfg.definedVars.toList) :
    slotText placed entry placed.dominatorTree.preorder p slot var =
      versionName var ((exitOf placed entry link.1).top var) := by
  have hpred : (placed.predecessors p)[slot]? = some link.1 := by
    rw [Graph.predecessors, getElem?_map, hslot]
    rfl
  rw [slotText, hpred]
  dsimp only
  rw [if_pos ((h.sound.preorder_spec.2 link.1).mpr hlink),
    (Renaming.tracks_exitOf (h.tracks hlink)
    (h.mem_definedVars h.wellFormed.sound hlink)).current_of_mem
      hvar]

/-- A phi block merges its variables, if none looks like a version of another. -/
theorem exists_merges_of_apart
    (hapart : ∀ var ∈ cfg.phiVars target, ∀ n, versionName var n ∉ cfg.phiVars target)
    (hp : front target = some p) (hreach : placed.Reaches placed.start p) :
    ∃ phi span, ssa.node? p = some (.phi phi span) ∧ Merges cfg placed entry target p phi := by
  obtain ⟨-, -, _, hnode⟩ := h.phi hp
  obtain ⟨span, htext⟩ := h.node?_phi_ssa hp hreach
  have htracks := (h.tracks hreach).toScope
  generalize hlength : (cfg.movableIncoming target).length = arity at *
  have htargets : ∀ {var}, var ∈ (Phi.ofVars arity (cfg.phiVars target)).targets ↔
      var ∈ cfg.phiVars target := Phi.mem_targets_ofVars
  have hvars : ∀ var ∈ (Phi.ofVars arity (cfg.phiVars target)).targets,
      var ∈ cfg.definedVars.toList := fun var hvar => phiVars_subset var (htargets.mp hvar)
  have hmade : ∀ {var}, var ∈ cfg.phiVars target →
      (exitOf placed entry p).top var = (entry p).count var + 1 ∧
        (entry p).count var + 1 ≤ (exitOf placed entry p).count var := by
    intro var hvar
    rw [exitOf, definitionsAt_eq hnode]
    exact Scope.defineAll_of_mem htracks hvars (Phi.nodup_targets _) (htargets.mpr hvar)
  have hlookup : ∀ {name args}, (({ versions := entry p } : Scope).defineTargets
      (Phi.ofVars arity (cfg.phiVars target))
      (Phi.ofVars arity (cfg.phiVars target)).targets).2.mappings[name]? =
        some args ↔ ∃ var ∈ cfg.phiVars target,
          name = versionName var ((exitOf placed entry p).top var) ∧
          args = List.replicate arity var := by
    intro name args
    rw [Scope.getElem?_defineTargets htracks (Phi.nodup_targets _) hvars
      (fun var hvar n hmem => hapart var (htargets.mp hvar) n (htargets.mp hmem))
      (fun var hvar => Phi.mem_targets.mp hvar)]
    constructor
    · rintro (⟨var, hvar, rfl, hargs⟩ | ⟨hname, -, hargs⟩)
      · have hvar := htargets.mp hvar
        rw [Phi.getElem?_ofVars, if_pos hvar] at hargs
        exact ⟨var, hvar, by rw [(hmade hvar).1], (Option.some.inj hargs).symm⟩
      · exact absurd (Phi.mem_targets.mpr ⟨args, hargs⟩) hname
    · rintro ⟨var, hvar, rfl, rfl⟩
      refine .inl ⟨var, htargets.mpr hvar, by rw [(hmade hvar).1], ?_⟩
      rw [Phi.getElem?_ofVars, if_pos hvar]
  refine ⟨_, span, htext, ⟨fun {var} hvar => ?_, fun {var} hvar => ?_, fun {name args} hname => ?_⟩⟩
  · rw [(hmade hvar).1]
    exact ⟨Nat.lt_succ_self _, (hmade hvar).2⟩
  · rw [Phi.getElem?_mapSlots, hlookup.mpr ⟨var, hvar, rfl, rfl⟩]
    exact ⟨_, rfl⟩
  · rw [Phi.getElem?_mapSlots, Option.map_eq_some_iff] at hname
    obtain ⟨old, hold, rfl⟩ := hname
    obtain ⟨var, hvar, rfl, rfl⟩ := hlookup.mp hold
    refine ⟨var, hvar, rfl, ?_, fun {slot link} hslot hlink => ?_⟩
    · rw [length_mapIdx, length_replicate, h.length_incoming_phi h.wellFormed.sound hp,
        hlength]
    · have hlt : slot < arity := by
        rw [← hlength, ← h.length_incoming_phi h.wellFormed.sound hp]
        exact (List.getElem?_eq_some_iff.mp hslot).1
      rw [getElem?_mapIdx, getElem?_replicate, if_pos hlt, Option.map_some,
        h.slotText_of_reaches hslot hlink (phiVars_subset var hvar)]

/-- Every phi block merges its entries. -/
theorem exists_merges
    (hfresh : ∀ var ∈ cfg.definedVars.toList, ∀ n, versionName var n ∉ cfg.definedVars.toList)
    (hp : front target = some p) (hreach : placed.Reaches placed.start p) :
    ∃ phi span, ssa.node? p = some (.phi phi span) ∧ Merges cfg placed entry target p phi :=
  h.exists_merges_of_apart (fun var hvar n hmem =>
    hfresh var (phiVars_subset var hvar) n (phiVars_subset _ hmem)) hp hreach

end Converted

end FlowGraph

end Flowgraph

import Flowgraph.Proofs.Ssa.Phi
import Flowgraph.Proofs.Ssa.Placement
import Flowgraph.Proofs.Ssa.Shape

/-!
# The walk that numbers definitions

The walk enters the nodes of the dominator tree in preorder. `Renaming.Entered`: an entered node has
been renamed, and the slots of edges from entered nodes have been filled. Every node is entered
once, with the versions that its immediate dominator left, and no number is given twice because
counters grow along the preorder (`Renaming.walk_spec`).
-/

namespace Flowgraph

open List

namespace Renaming

open FlowGraph (SameShape)

variable {cfg : FlowGraph} {entry : NodeId → Versions} {done : List NodeId} {vars : List String}
  {id : NodeId} {ids : List NodeId} {state : Renaming}

/-! ### Slots and successors -/

/-- The slots of a predecessor. -/
theorem mem_slotsFrom {predecessor : NodeId} {slot : Nat} :
    slot ∈ slotsFrom cfg id predecessor ↔ (cfg.predecessors id)[slot]? = some predecessor := by
  simp only [slotsFrom, mem_filterMap, Prod.exists, mem_zipIdx_iff_getElem?,
    Option.ite_none_right_eq_some, Option.some.injEq]
  constructor
  · rintro ⟨node, index, hnode, rfl, rfl⟩
    exact hnode
  · exact fun hslot => ⟨predecessor, slot, hslot, rfl, rfl⟩

/-- Slots are listed once. -/
theorem nodup_slotsFrom (cfg : FlowGraph) (id predecessor : NodeId) :
    (slotsFrom cfg id predecessor).Nodup := by
  have hindices : (cfg.predecessors id).zipIdx.Pairwise fun first second => first.2 ≠ second.2 := by
    have hnodup : ((cfg.predecessors id).zipIdx.map (·.2)).Nodup := by
      rw [zipIdx_map_snd]
      exact nodup_range'
    exact pairwise_map.mp hnodup
  refine List.Pairwise.filterMap _ (fun first second hne => ?_) hindices
  simp only [Option.ite_none_right_eq_some, Option.some.injEq]
  rintro _ ⟨-, rfl⟩ _ ⟨-, rfl⟩
  exact hne

/-- Collapsing loses no node. -/
theorem mem_collapse : id ∈ collapse ids ↔ id ∈ ids := by
  fun_induction collapse ids with
  | case1 => rfl
  | case2 => rfl
  | case3 first rest ih => simp [ih]
  | case4 first other rest hne ih => simp [ih]

/-- Collapsing removes repetitions. -/
theorem nodup_collapse (hlength : ids.length ≤ 2) : (collapse ids).Nodup := by
  match ids, hlength with
  | [], _ => exact nodup_nil
  | [id], _ => exact nodup_singleton id
  | [id, other], _ =>
    rw [collapse]
    split
    · exact nodup_singleton other
    · next hne => simpa [collapse] using hne

/-- The end of a node fills the slots of the edges to another. -/
def fillFrom (cfg : FlowGraph) (versions : Versions) (id other : NodeId) : Node → Node :=
  Node.mapSlots fun slot arg =>
    if (cfg.predecessors other)[slot]? = some id then versions.current arg else arg

/-- One payload is set. -/
theorem node?_setPayload (cfg : FlowGraph) (id other : NodeId) (node : Node) :
    (cfg.withGraph (cfg.setPayload id node)).node? other =
      if id = other then (cfg.node? other).map fun _ => node else cfg.node? other :=
  Graph.payload?_setPayload ..

/-- One successor is filled. -/
theorem node?_fillSuccessor (versions : Versions) (id successor other : NodeId) :
    (fillSuccessor versions id cfg successor).node? other =
      if successor = other then (cfg.node? other).map (fillFrom cfg versions id other)
      else cfg.node? other := by
  rw [fillSuccessor]
  split
  · next phi span hphi =>
    rw [node?_setPayload, Phi.foldl_fillSlot (nodup_slotsFrom ..)]
    split
    · next heq =>
      subst heq
      simp only [hphi, Option.map_some, fillFrom, Node.mapSlots, mem_slotsFrom]
    · rfl
  · next hother =>
    split
    · next heq =>
      subst heq
      cases hnode : cfg.node? successor with
      | none => rfl
      | some node =>
        cases node
        case phi phi span => exact absurd hnode (hother phi span)
        all_goals rfl
    · rfl

/-- The slots behind a node are filled, and no other slot. -/
theorem node?_foldl_fillSuccessor (versions : Versions) (id : NodeId) {successors : List NodeId}
    (hnodup : successors.Nodup) (other : NodeId) :
    (successors.foldl (fillSuccessor versions id) cfg).node? other =
      if other ∈ successors then (cfg.node? other).map (fillFrom cfg versions id other)
      else cfg.node? other := by
  induction successors generalizing cfg with
  | nil => simp
  | cons first rest ih =>
    obtain ⟨hfirst, hrest⟩ := nodup_cons.mp hnodup
    have hshape := sameShape_fillSuccessor versions id cfg first
    have hfill : fillFrom (fillSuccessor versions id cfg first) versions id other =
        fillFrom cfg versions id other := by
      simp only [fillFrom, hshape.predecessors]
    rw [foldl_cons, ih hrest, hfill, node?_fillSuccessor]
    by_cases heq : first = other
    · subst heq
      simp [hfirst]
    · simp [heq, Ne.symm heq]

/-! ### Entering a node -/

/-- The versions at the end of a node. -/
def exitOf (cfg : FlowGraph) (entry : NodeId → Versions) (id : NodeId) : Versions :=
  (({ versions := entry id } : Scope).defineAll (cfg.definitionsAt id)).1.versions

section Exit

/-- The versions behind a live node. -/
theorem exitOf_eq {node : Node} (hnode : cfg.node? id = some node) :
    exitOf cfg entry id = (({ versions := entry id } : Scope).renameNode node).1.versions := by
  rw [exitOf, FlowGraph.definitionsAt_eq hnode, Scope.renameNode_fst]

variable (htracks : (entry id).Tracks vars) (hdefs : ∀ var ∈ cfg.definitionsAt id, var ∈ vars)
include htracks hdefs

/-- Exits track the variables. -/
theorem tracks_exitOf : (exitOf cfg entry id).Tracks vars := by
  have hscope := htracks.toScope
  exact Scope.tracks_defineAll hscope hdefs

/-- Counters never fall in a node. -/
theorem count_le_exitOf (var : String) :
    (entry id).count var ≤ (exitOf cfg entry id).count var := by
  have hscope := htracks.toScope
  exact Scope.count_le_defineAll hscope hdefs var

/-- A variable that a node does not define keeps its version. -/
theorem top_exitOf {var : String} (hvar : var ∉ cfg.definitionsAt id) :
    (exitOf cfg entry id).top var = (entry id).top var := by
  have hscope := htracks.toScope
  exact Scope.top_defineAll_of_not_mem hscope hdefs hvar

end Exit

/-- The argument that a slot holds after some nodes were entered. -/
def slotText (cfg : FlowGraph) (entry : NodeId → Versions) (done : List NodeId) (id : NodeId)
    (slot : Nat) (arg : String) : String :=
  match (cfg.predecessors id)[slot]? with
  | some source => if source ∈ done then (exitOf cfg entry source).current arg else arg
  | none => arg

/-- The text of a node after some nodes were entered. -/
def nodeText (cfg : FlowGraph) (entry : NodeId → Versions) (done : List NodeId) (id : NodeId)
    (node : Node) : Node :=
  let filled := node.mapSlots (slotText cfg entry done id)
  if id ∈ done then (({ versions := entry id } : Scope).renameNode filled).2 else filled

/-- A graph after some nodes of another were entered. -/
structure Entered (cfg : FlowGraph) (entry : NodeId → Versions) (done : List NodeId)
    (state : FlowGraph) : Prop where
  shape : SameShape cfg state
  text : ∀ id, state.node? id = (cfg.node? id).map (nodeText cfg entry done id)

/-- Before the first node. -/
theorem Entered.nil (cfg : FlowGraph) (entry : NodeId → Versions) : Entered cfg entry [] cfg := by
  refine ⟨.refl cfg, fun id => ?_⟩
  have hslots : slotText cfg entry [] id = fun _ arg => arg := by
    funext slot arg
    rw [slotText]
    split <;> simp
  have htext : nodeText cfg entry [] id = fun node => node := by
    funext node
    simp [nodeText, hslots, Node.mapSlots_id]
  rw [htext, Option.map_id']

/-- The order does not matter. -/
theorem Entered.congr {state : FlowGraph} {done' : List NodeId} (h : Entered cfg entry done state)
    (hdone : ∀ id, id ∈ done' ↔ id ∈ done) : Entered cfg entry done' state := by
  refine ⟨h.shape, fun id => ?_⟩
  have hslots : slotText cfg entry done' id = slotText cfg entry done id := by
    funext slot arg
    simp only [slotText, hdone]
  rw [h.text]
  congr 1
  funext node
  simp only [nodeText, hslots, hdone]

section Enter

variable {versions : Versions} {other : NodeId}

/-- Other entries do not matter. -/
theorem exitOf_update_of_ne (hne : other ≠ id) :
    exitOf cfg (Function.update entry id versions) other = exitOf cfg entry other := by
  rw [exitOf, Function.update_of_ne hne, exitOf]

/-- Slots of edges from the entered node are filled, others stay. -/
theorem slotText_step (hnew : id ∉ done) (other : NodeId) (slot : Nat) (arg : String) :
    slotText cfg (Function.update entry id versions) (id :: done) other slot arg =
      if (cfg.predecessors other)[slot]? = some id then
        (exitOf cfg (Function.update entry id versions) id).current
          (slotText cfg entry done other slot arg)
      else slotText cfg entry done other slot arg := by
  rw [slotText, slotText]
  cases hsource : (cfg.predecessors other)[slot]? with
  | none => rfl
  | some source =>
    by_cases heq : source = id
    · subst heq
      simp [hnew]
    · simp [heq, exitOf_update_of_ne heq]

/-- The text of every node after one more was entered. -/
theorem nodeText_step (hnew : id ∉ done) (other : NodeId) (node : Node) :
    nodeText cfg (Function.update entry id versions) (id :: done) other node =
      fillFrom cfg (exitOf cfg (Function.update entry id versions) id) id other
        (if other = id then (({ versions } : Scope).renameNode (nodeText cfg entry done id node)).2
        else nodeText cfg entry done other node) := by
  have hfilled :
      node.mapSlots (slotText cfg (Function.update entry id versions) (id :: done) other) =
      fillFrom cfg (exitOf cfg (Function.update entry id versions) id) id other
        (node.mapSlots (slotText cfg entry done other)) := by
    rw [fillFrom, Node.mapSlots_mapSlots]
    congr 1
    funext slot arg
    exact slotText_step hnew other slot arg
  by_cases heq : other = id
  · subst heq
    simp only [nodeText, mem_cons_self, if_true, if_neg hnew, Function.update_self, hfilled]
    exact Scope.renameNode_mapSlots ..
  · simp only [nodeText, mem_cons, heq, false_or, if_false, Function.update_of_ne heq, hfilled]
    split
    · exact Scope.renameNode_mapSlots ..
    · rfl

/-- Where no edge leads from a node nothing is filled. -/
theorem fillFrom_of_not_successor (hcfg : cfg.Sound) (hother : other ∉ cfg.successors id)
    (node : Node) : fillFrom cfg versions id other node = node := by
  have hnone : ∀ slot, (cfg.predecessors other)[slot]? ≠ some id := fun slot hslot =>
    hother (hcfg.graph.mem_predecessors_iff.mp (mem_of_getElem? hslot))
  simp only [fillFrom, hnone, if_false, Node.mapSlots_id]

/-- Entering a node renames it and fills the slots behind it. -/
theorem Entered.enter (h : Entered cfg entry done state.cfg) (hcfg : cfg.Sound)
    (hfan : (collapse (cfg.successors id)).Nodup) (hlive : cfg.contains id)
    (hnew : id ∉ done) :
    Entered cfg (Function.update entry id state.versions) (id :: done) (state.enter id).1.cfg ∧
      (state.enter id).1.versions =
        exitOf cfg (Function.update entry id state.versions) id ∧
      (state.enter id).2 =
        (({ versions := state.versions } : Scope).defineAll (cfg.definitionsAt id)).1.defined := by
  obtain ⟨node, hnode⟩ := FlowGraph.exists_node hlive
  have hold : state.cfg.node? id = some (nodeText cfg entry done id node) := by
    rw [h.text, show cfg.node? id = some node from hnode]
    rfl
  have hscope : (({ versions := state.versions } : Scope).renameNode
      (nodeText cfg entry done id node)).1 =
        (({ versions := state.versions } : Scope).defineAll (cfg.definitionsAt id)).1 := by
    rw [Scope.renameNode_fst, FlowGraph.definitionsAt_eq hnode, nodeText, if_neg hnew,
      Scope.definitions_mapSlots]
  have hexit : exitOf cfg (Function.update entry id state.versions) id =
      (({ versions := state.versions } : Scope).defineAll (cfg.definitionsAt id)).1.versions := by
    rw [exitOf, Function.update_self]
  have hshape := h.shape.trans (sameShape_enter state id)
  rw [Renaming.enter, hold] at hshape ⊢
  refine ⟨⟨hshape, fun other => ?_⟩, (congrArg Scope.versions hscope).trans hexit.symm,
    congrArg Scope.defined hscope⟩
  dsimp only
  rw [hscope, ← hexit]
  generalize hset : state.cfg.withGraph (state.cfg.setPayload id
    (({ versions := state.versions } : Scope).renameNode (nodeText cfg entry done id node)).2) = set
  have hsetShape : SameShape cfg set := hset ▸ h.shape.trans (.setPayload ..)
  have hsetText : set.node? other = (cfg.node? other).map fun node =>
      if other = id then (({ versions := state.versions } : Scope).renameNode
        (nodeText cfg entry done id node)).2
      else nodeText cfg entry done other node := by
    rw [← hset, node?_setPayload, h.text]
    by_cases heq : id = other
    · subst heq
      simp [show cfg.node? id = some node from hnode]
    · simp [heq, Ne.symm heq]
  have hfill : fillFrom set (exitOf cfg (Function.update entry id state.versions) id) id other =
      fillFrom cfg (exitOf cfg (Function.update entry id state.versions) id) id other := by
    simp only [fillFrom, hsetShape.predecessors]
  rw [hsetShape.successors, node?_foldl_fillSuccessor _ id hfan other, hfill, hsetText]
  by_cases hother : other ∈ cfg.successors id
  · rw [if_pos (mem_collapse.mpr hother), Option.map_map]
    exact congrArg (Option.map · _) (funext fun node => (nodeText_step hnew other node).symm)
  · rw [if_neg fun hmem => hother (mem_collapse.mp hmem)]
    refine congrArg (Option.map · _) (funext fun node => ?_)
    rw [nodeText_step hnew other node, fillFrom_of_not_successor hcfg hother]

end Enter

/-! ### The whole walk -/

/-- Nodes entered in turn, with counters from `first` to `last`. The children of a node in the
dominator tree are among them and are entered with the stacks that it leaves. -/
structure Numbered (cfg : FlowGraph) (vars : List String) (entry : NodeId → Versions)
    (first last : Versions) (ids : List NodeId) : Prop where
  tracks : ∀ id ∈ ids, (entry id).Tracks vars
  first_le : ∀ id ∈ ids, ∀ var, first.count var ≤ (entry id).count var
  le_last : ∀ id ∈ ids, ∀ var, (exitOf cfg entry id).count var ≤ last.count var
  le : ∀ var, first.count var ≤ last.count var
  ordered : ids.Pairwise fun id other =>
    ∀ var, (exitOf cfg entry id).count var ≤ (entry other).count var
  nested : ∀ id ∈ ids, ∀ child ∈ cfg.dominatorTree.childrenOf id,
    child ∈ ids ∧ (entry child).live = (exitOf cfg entry id).live

namespace Numbered

variable {first middle last : Versions} {others : List NodeId}

/-- No node is numbered. -/
theorem nil (cfg : FlowGraph) (vars : List String) (entry : NodeId → Versions) (first : Versions) :
    Numbered cfg vars entry first first [] := by
  constructor <;> simp

/-- Lists are numbered in turn. -/
theorem append (h : Numbered cfg vars entry first middle ids)
    (h' : Numbered cfg vars entry middle last others) :
    Numbered cfg vars entry first last (ids ++ others) where
  tracks id hid := (mem_append.mp hid).elim (h.tracks id) (h'.tracks id)
  first_le id hid var := (mem_append.mp hid).elim (h.first_le id · var)
    fun hid => Nat.le_trans (h.le var) (h'.first_le id hid var)
  le_last id hid var := (mem_append.mp hid).elim
    (fun hid => Nat.le_trans (h.le_last id hid var) (h'.le var)) (h'.le_last id · var)
  le var := Nat.le_trans (h.le var) (h'.le var)
  ordered := pairwise_append.mpr ⟨h.ordered, h'.ordered, fun id hid other hother var =>
    Nat.le_trans (h.le_last id hid var) (h'.first_le other hother var)⟩
  nested id hid child hchild := (mem_append.mp hid).elim
    (fun hid => (h.nested id hid child hchild).imp_left (mem_append_left _))
    (fun hid => (h'.nested id hid child hchild).imp_left (mem_append_right _))

/-- Only the nodes listed matter. -/
theorem congr {entry' : NodeId → Versions} (h : Numbered cfg vars entry first last ids)
    (hagree : ∀ id ∈ ids, entry' id = entry id) : Numbered cfg vars entry' first last ids := by
  have hexit : ∀ id ∈ ids, exitOf cfg entry' id = exitOf cfg entry id := by
    intro id hid
    rw [exitOf, hagree id hid, exitOf]
  refine ⟨fun id hid => ?_, fun id hid => ?_, fun id hid => ?_, h.le, ?_,
    fun id hid child hchild => ?_⟩
  · exact hagree id hid ▸ h.tracks id hid
  · exact hagree id hid ▸ h.first_le id hid
  · exact hexit id hid ▸ h.le_last id hid
  · refine h.ordered.imp_of_mem fun {id other} hid hother hle => ?_
    rw [hexit id hid, hagree other hother]
    exact hle
  · obtain ⟨hmem, hlive⟩ := h.nested id hid child hchild
    rw [hagree child hmem, hexit id hid]
    exact ⟨hmem, hlive⟩

/-- A node is entered before those below it. -/
theorem cons (h : Numbered cfg vars entry (exitOf cfg entry id) last ids)
    (htracks : (entry id).Tracks vars) (hdefs : ∀ var ∈ cfg.definitionsAt id, var ∈ vars)
    (hchildren : ∀ child ∈ cfg.dominatorTree.childrenOf id,
      child ∈ ids ∧ (entry child).live = (exitOf cfg entry id).live) :
    Numbered cfg vars entry (entry id) last (id :: ids) := by
  have hle := count_le_exitOf htracks hdefs
  refine ⟨forall_mem_cons.mpr ⟨htracks, h.tracks⟩,
    forall_mem_cons.mpr ⟨fun _ => Nat.le_refl _, fun other hother var => ?_⟩,
    forall_mem_cons.mpr ⟨h.le, h.le_last⟩, fun var => Nat.le_trans (hle var) (h.le var),
    pairwise_cons.mpr ⟨h.first_le, h.ordered⟩,
    forall_mem_cons.mpr ⟨fun child hchild => ?_, fun other hother child hchild => ?_⟩⟩
  · exact Nat.le_trans (hle var) (h.first_le other hother var)
  · exact (hchildren child hchild).imp_left (mem_cons_of_mem _)
  · exact (h.nested other hother child hchild).imp_left (mem_cons_of_mem _)

/-- Only counters matter at the end. -/
theorem of_counters {last' : Versions} (h : Numbered cfg vars entry first last ids)
    (hcounters : last'.counters = last.counters) : Numbered cfg vars entry first last' ids := by
  have hcount : ∀ var, last'.count var = last.count var := fun var => by
    rw [Versions.count, hcounters, Versions.count]
  exact ⟨h.tracks, h.first_le, fun id hid var => hcount var ▸ h.le_last id hid var,
    fun var => hcount var ▸ h.le var, h.ordered, h.nested⟩

end Numbered

/-- What a walk over some nodes does to a state. -/
structure Walked (cfg : FlowGraph) (vars : List String) (ids done : List NodeId)
    (before after : Renaming) (entry entry' : NodeId → Versions) : Prop where
  agree : ∀ other ∉ ids, entry' other = entry other
  entered : Entered cfg entry' (ids ++ done) after.cfg
  numbered : Numbered cfg vars entry' before.versions after.versions ids
  live : after.versions.live = before.versions.live
  tracks : after.versions.Tracks vars

/-- Walks compose. -/
theorem Walked.trans {entry' entry'' : NodeId → Versions} {others : List NodeId}
    {first middle last : Renaming} (h : Walked cfg vars ids done first middle entry entry')
    (h' : Walked cfg vars others (ids ++ done) middle last entry' entry'')
    (hdisjoint : ∀ id ∈ ids, id ∉ others) :
    Walked cfg vars (ids ++ others) done first last entry entry'' where
  agree other hother := by
    rw [mem_append, not_or] at hother
    rw [h'.agree other hother.2, h.agree other hother.1]
  entered := h'.entered.congr fun id => by
    simp only [mem_append]
    tauto
  numbered := (h.numbered.congr fun id hid => h'.agree id (hdisjoint id hid)).append h'.numbered
  live := h'.live.trans h.live
  tracks := h'.tracks

/-- The walks over the trees below several nodes in a row. -/
theorem walked_forest {depth : Nat} {roots : List NodeId}
    (hroots : ∀ root ∈ roots, ∀ {state : Renaming} {entry : NodeId → Versions} {done : List NodeId},
      Entered cfg entry done state.cfg → state.versions.Tracks vars →
      (∀ other ∈ cfg.dominatorTree.preorderFrom depth root, other ∉ done) → ∃ entry',
        Walked cfg vars (cfg.dominatorTree.preorderFrom depth root) done state
          (walk cfg.dominatorTree depth state root) entry entry' ∧ entry' root = state.versions)
    (hself : ∀ root ∈ roots, root ∈ cfg.dominatorTree.preorderFrom depth root)
    (hnodup : (roots.flatMap (cfg.dominatorTree.preorderFrom depth)).Nodup)
    (hstate : Entered cfg entry done state.cfg) (htracks : state.versions.Tracks vars)
    (hnew : ∀ other ∈ roots.flatMap (cfg.dominatorTree.preorderFrom depth), other ∉ done) :
    ∃ entry', Walked cfg vars (roots.flatMap (cfg.dominatorTree.preorderFrom depth)) done state
      (roots.foldl (walk cfg.dominatorTree depth) state) entry entry' ∧
        ∀ root ∈ roots, (entry' root).live = state.versions.live := by
  induction roots generalizing state entry done with
  | nil => exact ⟨entry, ⟨fun _ _ => rfl, hstate, .nil .., rfl, htracks⟩, by simp⟩
  | cons root rest ih =>
    obtain ⟨hroot, hrest⟩ := forall_mem_cons.mp hself
    rw [flatMap_cons] at hnodup hnew ⊢
    obtain ⟨-, hnodup, hdisjoint⟩ := nodup_append.mp hnodup
    have hapart : ∀ other ∈ cfg.dominatorTree.preorderFrom depth root,
        other ∉ rest.flatMap (cfg.dominatorTree.preorderFrom depth) :=
      fun other hother hmem => hdisjoint other hother other hmem rfl
    obtain ⟨entry', hwalk, hentry⟩ := hroots root mem_cons_self hstate htracks
      fun other hother => hnew other (mem_append_left _ hother)
    obtain ⟨entry'', hforest, hlive⟩ := ih (fun other hother =>
      hroots other (mem_cons_of_mem _ hother))
      hrest hnodup hwalk.entered hwalk.tracks fun other hother hmem => by
        rcases mem_append.mp hmem with hmem | hmem
        · exact hapart other hmem hother
        · exact hnew other (mem_append_right _ hother) hmem
    refine ⟨entry'', hwalk.trans hforest hapart,
      forall_mem_cons.mpr ⟨?_, fun other hother => ?_⟩⟩
    · rw [hforest.agree root (hapart root hroot), hentry]
    · rw [hlive other hother, hwalk.live]

/-- The walk from a node enters all nodes below it. -/
theorem walk_spec (hcfg : cfg.Sound) (hfan : ∀ id, (collapse (cfg.successors id)).Nodup)
    (hdefs : ∀ id, cfg.Reaches cfg.start id → ∀ var ∈ cfg.definitionsAt id, var ∈ vars)
    (depth : Nat) (hid : cfg.Reaches cfg.start id)
    (hdepth : cfg.walk.entered.size ≤ cfg.rank id + depth)
    (hstate : Entered cfg entry done state.cfg) (htracks : state.versions.Tracks vars)
    (hnew : ∀ other ∈ cfg.dominatorTree.preorderFrom depth id, other ∉ done) : ∃ entry',
      Walked cfg vars (cfg.dominatorTree.preorderFrom depth id) done state
        (walk cfg.dominatorTree depth state id) entry entry' ∧ entry' id = state.versions := by
  induction depth generalizing id state entry done with
  | zero =>
    have := (hcfg.node_rank hid).1
    omega
  | succ depth ih =>
    obtain ⟨hnodup, -⟩ := hcfg.preorderFrom_spec (depth + 1) hid hdepth
    rw [DominatorTree.preorderFrom] at hnodup hnew ⊢
    obtain ⟨hfresh, hnodup⟩ := nodup_cons.mp hnodup
    obtain ⟨hidNew, hbelow⟩ := forall_mem_cons.mp hnew
    have hchild : ∀ child ∈ cfg.dominatorTree.childrenOf id, cfg.Reaches cfg.start child ∧
        cfg.walk.entered.size ≤ cfg.rank child + depth := by
      intro child hchild
      have himm := hcfg.idom?_eq_some_iff.mp (hcfg.mem_childrenOf.mp hchild)
      have hlt := hcfg.rank_lt himm.1
      exact ⟨himm.1.2.1, by omega⟩
    have hself : ∀ child ∈ cfg.dominatorTree.childrenOf id,
        child ∈ cfg.dominatorTree.preorderFrom depth child := by
      intro child hchild'
      obtain ⟨hreach, hle⟩ := hchild child hchild'
      exact ((hcfg.preorderFrom_spec depth hreach hle).2 child).mpr (.refl hreach)
    obtain ⟨hentered, hversions, hdefined⟩ := hstate.enter hcfg (hfan id)
      (hid.contains hcfg.graph hcfg.start) hidNew
    have htracks' : (Function.update entry id state.versions id).Tracks vars := by
      rwa [Function.update_self]
    obtain ⟨entry', hforest, hlive⟩ := walked_forest
      (fun child hmem _ _ _ => ih (hchild child hmem).1 (hchild child hmem).2) hself hnodup hentered
      (hversions ▸ tracks_exitOf htracks' (hdefs id hid)) fun other hother hmem => by
        rcases mem_cons.mp hmem with rfl | hmem
        · exact hfresh hother
        · exact hbelow other hother hmem
    have hentry : entry' id = state.versions := by
      rw [hforest.agree id hfresh, Function.update_self]
    have hexit : exitOf cfg entry' id = (state.enter id).1.versions := by
      rw [hversions, exitOf, hentry, exitOf, Function.update_self]
    -- The walks below the node restore the stacks at its end, and leaving it those at its entry.
    have hscope := htracks.toScope
    obtain ⟨made, hmade, hpop⟩ := Scope.live_foldl_pop hscope (hdefs id hid)
      (hforest.live.trans (by rw [← hexit, exitOf, hentry]))
    rw [append_nil, ← hdefined] at hmade
    rw [walk]
    dsimp only
    rw [leave, hmade]
    have hcounters := Versions.counters_foldl_pop made
      ((cfg.dominatorTree.childrenOf id).foldl (walk cfg.dominatorTree depth)
      (state.enter id).1).versions
    refine ⟨entry', ⟨fun other hother => ?_, ?_, ?_, hpop, ?_⟩, hentry⟩
    · rw [hforest.agree other (not_mem_of_not_mem_cons hother),
        Function.update_of_ne (ne_of_not_mem_cons hother)]
    · refine hforest.entered.congr fun other => ?_
      simp only [cons_append, mem_cons, mem_append]
      tauto
    · have hnumbered := hforest.numbered
      rw [← hexit] at hnumbered
      have hcons := (hnumbered.cons (hentry ▸ htracks) (hdefs id hid) fun child hmem =>
        ?_).of_counters hcounters
      · rwa [hentry] at hcons
      · exact ⟨mem_flatMap.mpr ⟨child, hmem, hself child hmem⟩, by
          rw [hlive child hmem, hexit]⟩
    · exact htracks.of_live hpop fun var => by rw [hcounters, hforest.tracks.counted]

end Renaming

end Flowgraph

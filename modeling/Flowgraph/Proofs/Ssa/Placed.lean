import Flowgraph.Proofs.Flow.WellFormed
import Flowgraph.Proofs.Ssa.Phi
import Flowgraph.Proofs.Ssa.Placement
import Flowgraph.Proofs.Ssa.Shape

/-!
# Graphs with phi blocks

`FlowGraph.Placed`: the edges of the original graph lead to the phi block of their target, if it has
one, and a phi block leads to its node. Dominance carries over, and with it the closure under
frontiers: a node at which the dominance of a definition ends is a phi block for the variable
(`Placed.phiVars_of_inFrontier`).
-/

namespace Flowgraph

open List

variable {target source : NodeId} {link : Link}

open Graph

namespace Graph

variable {α : Type} {g : Graph α}

/-- Let some of the edges to a node lead to another. -/
def redirectAll (g : Graph α) (links : List Link) (target first : NodeId) : Graph α :=
  links.foldl (fun g link => g.redirect ⟨link.1, target, link.2⟩ ⟨link.1, first, link.2⟩) g

/-- Redirection keeps the nodes. -/
@[simp] theorem contains_redirectAll (links : List Link) (target first id : NodeId) :
    (g.redirectAll links target first).contains id = g.contains id :=
  foldl_keeps (f := (·.contains id)) (fun _ _ _ => contains_redirect ..) g

/-- Redirection keeps the payloads. -/
@[simp] theorem payload?_redirectAll (links : List Link) (target first id : NodeId) :
    (g.redirectAll links target first).payload? id = g.payload? id :=
  foldl_keeps (f := (·.payload? id)) (fun _ _ _ => payload?_redirect ..) g

/-- The links out after redirection. -/
theorem mem_outgoing_redirectAll (hg : g.Sound) {links : List Link} {target first : NodeId}
    (hne : target ≠ first) (hfirst : g.contains first)
    (hlinks : ∀ link ∈ links, g.contains link.1) {id : NodeId} {link : Link} :
    link ∈ (g.redirectAll links target first).outgoing id ↔
      (link ∈ g.outgoing id ∧ ¬ (link.1 = target ∧ (id, link.2) ∈ links)) ∨
        (link.1 = first ∧ (id, link.2) ∈ links) := by
  induction links generalizing g with
  | nil => simp [redirectAll]
  | cons head rest ih =>
    obtain ⟨hhead, hrest⟩ := forall_mem_cons.mp hlinks
    have hsound : (g.redirect ⟨head.1, target, head.2⟩ ⟨head.1, first, head.2⟩).Sound :=
      ((Grown.refl hg).redirect hhead hfirst).sound
    have hmem := ih hsound (by simpa using hfirst) (by simpa using hrest)
    rw [redirectAll, foldl_cons, ← redirectAll, hmem, mem_outgoing_redirect hg hhead]
    obtain ⟨node, label⟩ := link
    obtain ⟨source, label'⟩ := head
    simp only [mem_cons, Prod.mk.injEq]
    constructor
    · rintro (⟨⟨hlink, hnot⟩ | ⟨rfl, rfl, rfl⟩, hrest⟩ | ⟨rfl, hrest⟩)
      · refine .inl ⟨hlink, ?_⟩
        rintro ⟨htarget, ⟨hid, hlabel⟩ | hin⟩
        · exact hnot ⟨hid, htarget, hlabel⟩
        · exact hrest ⟨htarget, hin⟩
      · exact .inr ⟨rfl, .inl ⟨rfl, rfl⟩⟩
      · exact .inr ⟨rfl, .inr hrest⟩
    · rintro (⟨hlink, hnot⟩ | ⟨rfl, ⟨rfl, rfl⟩ | hrest⟩)
      · exact .inl ⟨.inl ⟨hlink, fun ⟨hid, htarget, hlabel⟩ => hnot ⟨htarget, .inl ⟨hid, hlabel⟩⟩⟩,
          fun ⟨htarget, hin⟩ => hnot ⟨htarget, .inr hin⟩⟩
      · exact .inl ⟨.inr ⟨rfl, rfl, rfl⟩, fun h => hne h.1.symm⟩
      · exact .inr ⟨rfl, hrest⟩

end Graph

namespace FlowGraph

variable {cfg placed : FlowGraph} {front : NodeId → Option NodeId} {id : NodeId} {var : String}

/-! ### One node in front of another -/

section Prepend

variable {node : Node}

/-- The links that move. -/
theorem mem_movableIncoming (h : cfg.Sound) : link ∈ cfg.movableIncoming target ↔
    (target, link.2) ∈ cfg.outgoing link.1 ∧
      ¬ (link.1 = target ∧ cfg.keepsSelfEdge target) := by
  have hmem : link ∈ cfg.incoming target ↔ (target, link.2) ∈ cfg.outgoing link.1 :=
    h.graph.mirrored.symm
  rw [movableIncoming]
  split
  · next hkeeps => simp [hmem, hkeeps]
  · next hkeeps => simp [hmem, hkeeps]

/-- Links that move are listed once. -/
theorem Sound.nodup_movableIncoming (h : cfg.Sound) (id : NodeId) :
    (cfg.movableIncoming id).Nodup := by
  rw [movableIncoming]
  split
  · exact (h.graph.incoming_nodup id).filter _
  · exact h.graph.incoming_nodup id

/-- Prepending one node. -/
theorem toGraph_prependNode : (cfg.prependChain target [node]).toGraph =
    ((cfg.insert node).redirectAll (cfg.movableIncoming target) target cfg.nextId).addEdge
      ⟨cfg.nextId, target, none⟩ := by
  simp only [prependChain, withGraph, chainEnds, Graph.insertChain, redirectAll,
    foldl_cons, foldl_nil, length_singleton, Nat.sub_self, Graph.joinRun,
    Nat.add_zero]

/-- The live nodes with one in front. -/
theorem contains_prependNode (id : NodeId) : (cfg.prependChain target [node]).contains id =
    (decide (id = cfg.nextId) || cfg.contains id) := by
  simp [toGraph_prependNode, Graph.contains_insert]

/-- The nodes with one in front. -/
theorem node?_prependNode (id : NodeId) : (cfg.prependChain target [node]).node? id =
    if id = cfg.nextId then some node else cfg.node? id := by
  simp [node?, toGraph_prependNode, payload?_insert]

/-- The links out with one in front. -/
theorem Sound.mem_outgoing_prependNode (h : cfg.Sound) (htarget : cfg.contains target) :
    link ∈ (cfg.prependChain target [node]).outgoing id ↔
      ((link ∈ cfg.outgoing id ∧ ¬ (link.1 = target ∧ (id, link.2) ∈ cfg.movableIncoming target)) ∨
        (link.1 = cfg.nextId ∧ (id, link.2) ∈ cfg.movableIncoming target)) ∨
      (id = cfg.nextId ∧ link = (target, none)) := by
  have hne : target ≠ cfg.nextId := Nat.ne_of_lt (lt_nextId_of_contains htarget)
  have hnew := cfg.contains_insert_self node
  have hlinks : ∀ link ∈ cfg.movableIncoming target, (cfg.insert node).contains link.1 := by
    intro link hlink
    simp [Graph.contains_insert, h.contains_of_mem_movableIncoming hlink]
  rw [toGraph_prependNode, mem_outgoing_addEdge (by simpa using hnew),
    mem_outgoing_redirectAll (h.graph.insert node) hne hnew hlinks]
  simp

end Prepend

/-! ### Graphs with phi blocks -/

/-- An edge leads to the phi block of its target if there is one, except that a spin keeps its own
edge. -/
def entrance (cfg : FlowGraph) (front : NodeId → Option NodeId) (source target : NodeId) : NodeId :=
  if source = target ∧ cfg.keepsSelfEdge target then target else (front target).getD target

/-- Phi blocks stand in front of some nodes, given by `front`. -/
structure Placed (cfg placed : FlowGraph) (front : NodeId → Option NodeId) : Prop where
  sound : placed.Sound
  start : placed.start = cfg.start
  node : ∀ {id}, cfg.contains id → placed.node? id = cfg.node? id
  live : ∀ {id}, placed.contains id →
    cfg.contains id ∨ ∃ target, front target = some id
  phi : ∀ {target id}, front target = some id → cfg.contains id = false ∧
    cfg.movableIncoming target ≠ [] ∧ ∃ span, placed.node? id =
      some (.phi (.ofVars (cfg.movableIncoming target).length (cfg.phiVars target)) span)
  unique : ∀ {target other id}, front target = some id → front other = some id → target = other
  outgoing : ∀ {id link}, cfg.contains id → (link ∈ placed.outgoing id ↔
    ∃ target, (target, link.2) ∈ cfg.outgoing id ∧ link.1 = cfg.entrance front id target)
  outgoing_phi : ∀ {target id link}, front target = some id →
    (link ∈ placed.outgoing id ↔ link = (target, none))

namespace Placed

/-- Nothing is placed. -/
theorem refl (h : cfg.Sound) : Placed cfg cfg fun _ => none where
  sound := h
  start := rfl
  node _ := rfl
  live hid := .inl hid
  phi := by simp
  unique := by simp
  outgoing := by
    intro id link hid
    simp [entrance]
  outgoing_phi := by simp

section Step

section

variable (h : Placed cfg placed front)
include h

/-- Old nodes stay live. -/
theorem contains (hid : cfg.contains id) : placed.contains id :=
  (contains_congr (h.node hid)).trans hid

/-- Targets are old nodes. -/
theorem contains_target (hid : front target = some id) : cfg.contains target := by
  obtain ⟨-, hmovable, -⟩ := h.phi hid
  obtain ⟨link, hlink⟩ := exists_mem_of_ne_nil _ hmovable
  rw [movableIncoming] at hlink
  split at hlink
  · exact contains_of_mem_incoming (mem_filter.mp hlink).1
  · exact contains_of_mem_incoming hlink

/-- Phi blocks are live. -/
theorem contains_phi (hid : front target = some id) : placed.contains id := by
  obtain ⟨-, -, span, hnode⟩ := h.phi hid
  exact contains_of_payload? hnode

/-- Phi blocks are new nodes. -/
theorem ne_phi {p : NodeId} (hid : cfg.contains id) (hp : front target = some p) :
    id ≠ p := by
  rintro rfl
  exact Bool.noConfusion (hid.symm.trans (h.phi hp).1)

end

/-- Without a phi, nodes are entered. -/
theorem entrance_of_none (htarget : front target = none) :
    cfg.entrance front source target = target := by
  simp [entrance, htarget]

/-- An edge leads to a node without phi block only if it did before. -/
theorem entrance_eq (h : Placed cfg placed front) {other : NodeId}
    (hlive : cfg.contains target) (heq : cfg.entrance front source other = target) :
    other = target := by
  rw [entrance] at heq
  split at heq
  · exact heq
  · cases hother : front other with
    | none => simpa [hother] using heq
    | some p =>
      rw [hother, Option.getD_some] at heq
      exact absurd heq.symm (h.ne_phi hlive hother)

section

variable (h : Placed cfg placed front) (hcfg : cfg.Sound) (hlive : cfg.contains target)
  (hnone : front target = none)
include h hcfg hlive hnone

/-- The edges that are to move are those of the original graph. -/
theorem mem_movableIncoming_iff :
    link ∈ placed.movableIncoming target ↔ link ∈ cfg.movableIncoming target := by
  have hkeeps : placed.keepsSelfEdge target = cfg.keepsSelfEdge target := by
    simp only [keepsSelfEdge, kind?, h.node hlive]
  rw [mem_movableIncoming h.sound, mem_movableIncoming hcfg, hkeeps]
  refine and_congr_left fun _ => ?_
  by_cases hsource : cfg.contains link.1
  · rw [h.outgoing hsource]
    constructor
    · rintro ⟨other, hother, heq⟩
      rwa [h.entrance_eq hlive heq.symm] at hother
    · exact fun hlink => ⟨target, hlink, (entrance_of_none hnone).symm⟩
  · refine ⟨fun hlink => ?_, fun hlink => absurd (contains_of_mem_outgoing hlink) hsource⟩
    obtain ⟨other, hother⟩ := (h.live (contains_of_mem_outgoing hlink)).resolve_left hsource
    obtain ⟨rfl, -⟩ := Prod.mk.inj ((h.outgoing_phi hother).mp hlink)
    simp [hnone] at hother

/-- As many links move as before. -/
theorem length_movableIncoming :
    (placed.movableIncoming target).length = (cfg.movableIncoming target).length := by
  refine (List.Perm.length_eq ((perm_ext_iff_of_nodup ?_ ?_).mpr fun link =>
    h.mem_movableIncoming_iff hcfg hlive hnone))
  · exact h.sound.nodup_movableIncoming target
  · exact hcfg.nodup_movableIncoming target

/-- The ways out of an old node after one more phi block. -/
theorem mem_outgoing_prepend {node : Node} (hid : cfg.contains id) :
    link ∈ (placed.prependChain target [node]).outgoing id ↔ ∃ other,
      (other, link.2) ∈ cfg.outgoing id ∧
        link.1 = cfg.entrance (Function.update front target (some placed.nextId)) id other := by
  have hnew : id ≠ placed.nextId := Nat.ne_of_lt (lt_nextId_of_contains (h.contains hid))
  have hmovable : (id, link.2) ∈ placed.movableIncoming target ↔ _ :=
    h.mem_movableIncoming_iff hcfg hlive hnone
  rw [mem_movableIncoming hcfg] at hmovable
  rw [h.sound.mem_outgoing_prependNode (h.contains hlive), hmovable, h.outgoing hid]
  constructor
  · rintro ((⟨⟨other, hother, heq⟩, hstays⟩ | ⟨heq, hmoves, hnot⟩) | ⟨heq, -⟩)
    · refine ⟨other, hother, ?_⟩
      by_cases hsame : other = target
      · subst hsame
        rw [entrance_of_none hnone] at heq
        have hself : id = other ∧ cfg.keepsSelfEdge other := by
          by_contra hnot
          exact hstays ⟨heq, hother, hnot⟩
        simp only [entrance, if_pos hself, heq]
      · simpa only [entrance, Function.update_of_ne hsame] using heq
    · exact ⟨target, hmoves, by simp only [entrance, if_neg hnot, Function.update_self,
        Option.getD_some, heq]⟩
    · exact absurd heq hnew
  · rintro ⟨other, hother, heq⟩
    by_cases hsame : other = target
    · subst hsame
      by_cases hself : id = other ∧ cfg.keepsSelfEdge other
      · rw [entrance, if_pos hself] at heq
        exact .inl (.inl ⟨⟨other, hother, heq.trans (entrance_of_none hnone).symm⟩,
          fun hmoves => hmoves.2.2 hself⟩)
      · rw [entrance, if_neg hself, Function.update_self, Option.getD_some] at heq
        exact .inl (.inr ⟨heq, hother, hself⟩)
    · rw [entrance, Function.update_of_ne hsame, ← entrance] at heq
      refine .inl (.inl ⟨⟨other, hother, heq⟩, fun hmoves => hsame ?_⟩)
      exact h.entrance_eq hlive (heq.symm.trans hmoves.1)

/-- One more phi block is put in. -/
theorem prepend (hmovable : cfg.movableIncoming target ≠ []) (span : Span) :
    Placed cfg (placed.prependChain target
        [.phi (.ofVars (cfg.movableIncoming target).length (cfg.phiVars target)) span])
      (Function.update front target (some placed.nextId)) := by
  have hold : ∀ {other id}, Function.update front target (some placed.nextId) other = some id →
      other = target ∧ id = placed.nextId ∨ front other = some id ∧ id ≠ placed.nextId := by
    intro other id hother
    by_cases hsame : other = target
    · subst hsame
      rw [Function.update_self] at hother
      exact .inl ⟨rfl, (Option.some.inj hother).symm⟩
    · rw [Function.update_of_ne hsame] at hother
      exact .inr ⟨hother, Nat.ne_of_lt (lt_nextId_of_contains (h.contains_phi hother))⟩
  have hdead : cfg.contains placed.nextId = false := by
    by_contra hcontains
    have hlt := lt_nextId_of_contains (h.contains (by simpa using hcontains))
    exact Nat.lt_irrefl _ hlt
  refine ⟨h.sound.prependChain (h.contains hlive) (by simp), h.start, fun {id} hid => ?_,
    fun {id} hid => ?_, fun {other id} hother => ?_, fun {other another id} hother hanother => ?_,
    fun hid => h.mem_outgoing_prepend hcfg hlive hnone hid, fun {other id link} hother => ?_⟩
  · rw [node?_prependNode, if_neg fun heq => Bool.noConfusion (hdead.symm.trans (heq ▸ hid)),
      h.node hid]
  · rw [contains_prependNode, Bool.or_eq_true, decide_eq_true_eq] at hid
    rcases hid with rfl | hid
    · exact .inr ⟨target, Function.update_self ..⟩
    · rcases h.live hid with hid | ⟨other, hother⟩
      · exact .inl hid
      · refine .inr ⟨other, ?_⟩
        rwa [Function.update_of_ne fun heq => by simp [heq, hnone] at hother]
  · rcases hold hother with ⟨rfl, rfl⟩ | ⟨hother, hne⟩
    · exact ⟨hdead, hmovable, span, by rw [node?_prependNode, if_pos rfl]⟩
    · obtain ⟨hnot, hmoves, span', hnode⟩ := h.phi hother
      exact ⟨hnot, hmoves, span', by rw [node?_prependNode, if_neg hne, hnode]⟩
  · rcases hold hother with ⟨rfl, rfl⟩ | ⟨hother, hne⟩ <;>
      rcases hold hanother with ⟨rfl, heq⟩ | ⟨hanother, hne'⟩
    · rfl
    · exact absurd rfl hne'
    · exact absurd heq hne
    · exact h.unique hother hanother
  · rw [h.sound.mem_outgoing_prependNode (h.contains hlive),
      h.mem_movableIncoming_iff hcfg hlive hnone, mem_movableIncoming hcfg]
    have hnot : cfg.contains id = false := by
      rcases hold hother with ⟨-, rfl⟩ | ⟨hother, -⟩
      · exact hdead
      · exact (h.phi hother).1
    simp only [outgoing_eq_nil hnot, not_mem_nil, false_and, and_false, not_false_eq_true,
      and_true, or_false]
    rcases hold hother with ⟨rfl, rfl⟩ | ⟨hother, hne⟩
    · simp [outgoing_eq_nil (contains_nextId placed.toGraph)]
    · simp [h.outgoing_phi hother, hne]

end

/-- Putting in one more phi block keeps a property. -/
def Keeps (cfg : FlowGraph) (P : FlowGraph → (NodeId → Option NodeId) → Prop) : Prop :=
  ∀ {placed front target} (span : Span), Placed cfg placed front → cfg.contains target →
    front target = none → P placed front →
    P (placed.prependChain target
        [.phi (.ofVars (cfg.movableIncoming target).length (cfg.phiVars target)) span])
      (Function.update front target (some placed.nextId))

/-- What each phi block keeps holds after putting in several. -/
theorem foldl_placePhi {P : FlowGraph → (NodeId → Option NodeId) → Prop} (hcfg : cfg.Sound)
    (hstep : Keeps cfg P) (h : Placed cfg placed front) (hP : P placed front) (ids : List NodeId)
    (hnodup : ids.Nodup) (hlive : ∀ id ∈ ids, cfg.contains id) (hnone : ∀ id ∈ ids, front id = none)
    (hmovable : ∀ id ∈ ids, cfg.movableIncoming id ≠ []) (count : Nat) :
    ∃ front' result, (ids.map fun id => (id, cfg.phiVars id)).foldl placePhi (placed, count) =
        (result, count + ids.length) ∧
      Placed cfg result front' ∧ P result front' ∧
      ∀ id, (front' id).isSome ↔ (front id).isSome ∨ id ∈ ids := by
  induction ids generalizing placed front count with
  | nil => exact ⟨front, placed, rfl, h, hP, by simp⟩
  | cons target rest ih =>
    obtain ⟨hfresh, hnodup⟩ := nodup_cons.mp hnodup
    obtain ⟨htarget, hlive⟩ := forall_mem_cons.mp hlive
    obtain ⟨hnot, hnone⟩ := forall_mem_cons.mp hnone
    obtain ⟨hmoves, hmovable⟩ := forall_mem_cons.mp hmovable
    have hlength := h.length_movableIncoming hcfg htarget hnot
    have hnone' : ∀ id ∈ rest, Function.update front target (some placed.nextId) id = none := by
      intro id hid
      have hne : id ≠ target := fun heq => hfresh (heq ▸ hid)
      rw [Function.update_of_ne hne, hnone id hid]
    obtain ⟨front', result, hresult, hplaced, hP', hfront⟩ :=
      ih (h.prepend hcfg htarget hnot hmoves _)
        (hstep (placed.spanOf target) h htarget hnot hP) hnodup hlive hnone' hmovable (count + 1)
    refine ⟨front', result, ?_, hplaced, hP', fun id => ?_⟩
    · rw [map_cons, foldl_cons, placePhi, if_neg (by simpa [hlength] using hmoves),
        hlength, hresult, length_cons, Nat.add_assoc, Nat.add_comm 1]
    · rw [hfront, mem_cons]
      by_cases hsame : id = target <;> simp [hsame]

end Step

end Placed

/-- Phi blocks in front of all nodes that need one. -/
structure FullyPlaced (cfg placed : FlowGraph) (front : NodeId → Option NodeId) : Prop
    extends Placed cfg placed front where
  eq : placed = cfg.placePhis.1
  wellFormed : cfg.WellFormed
  complete : ∀ {id var}, var ∈ cfg.phiVars id → ∃ p, front id = some p

/-- Nodes with a phi are entered. -/
theorem WellFormed.movableIncoming_ne_nil (h : cfg.WellFormed) (hvar : var ∈ cfg.phiVars id) :
    cfg.movableIncoming id ≠ [] := by
  obtain ⟨x, hx⟩ := h.sound.exists_inFrontier (mem_phiVars.mp hvar).2
  have hne : id ≠ cfg.start := by
    rintro rfl
    obtain ⟨n, -, hsucc, -⟩ := hx
    have hpred := h.sound.graph.mem_predecessors_iff.mpr hsucc
    simp [Graph.predecessors, h.incoming_start] at hpred
  obtain ⟨source, hother, hsucc⟩ := exists_other_predecessor hx.reaches hne
  obtain ⟨label, hlink⟩ := Graph.mem_successors.mp hsucc
  refine ne_nil_of_mem (a := (source, label)) ((mem_movableIncoming h.sound).mpr ⟨hlink, ?_⟩)
  exact fun hself => hother hself.1

/-- The nodes that need a phi block. -/
def phiTargets (cfg : FlowGraph) : List NodeId :=
  cfg.nodes.filter fun id => !(cfg.phiVars id).isEmpty

/-- Targets are listed once. -/
theorem nodup_phiTargets (cfg : FlowGraph) : cfg.phiTargets.Nodup :=
  (nodup_range.filter _).filter _

/-- Targets have phi variables. -/
theorem Sound.mem_phiTargets (h : cfg.Sound) :
    id ∈ cfg.phiTargets ↔ ∃ var, var ∈ cfg.phiVars id := by
  rw [phiTargets, mem_filter, mem_nodes, Bool.not_eq_true',
    isEmpty_eq_false_iff_exists_mem]
  refine and_iff_right_of_imp ?_
  rintro ⟨var, hvar⟩
  obtain ⟨x, hx⟩ := h.exists_inFrontier (mem_phiVars.mp hvar).2
  exact hx.reaches.contains h.graph h.start

/-- What each phi block keeps holds after putting in all. -/
theorem WellFormed.exists_placed (h : cfg.WellFormed)
    {P : FlowGraph → (NodeId → Option NodeId) → Prop} (hopening : P cfg fun _ => none)
    (hstep : Placed.Keeps cfg P) :
    ∃ front placed, cfg.placePhis = (placed, cfg.phiTargets.length) ∧ Placed cfg placed front ∧
      P placed front ∧ ∀ id, (front id).isSome ↔ id ∈ cfg.phiTargets := by
  obtain ⟨front, placed, hresult, hplaced, hP, hfront⟩ := Placed.foldl_placePhi h.sound hstep
    (Placed.refl h.sound) hopening cfg.phiTargets (nodup_phiTargets cfg)
    (fun id hid => mem_nodes.mp (mem_filter.mp hid).1) (fun _ _ => rfl)
    (fun id hid => by
      obtain ⟨var, hvar⟩ := h.sound.mem_phiTargets.mp hid
      exact h.movableIncoming_ne_nil hvar) 0
  rw [phiTargets, ← placements_eq, Nat.zero_add, ← phiTargets] at hresult
  exact ⟨front, placed, hresult, hplaced, hP, by simpa using hfront⟩

/-- The conversion puts phi blocks where they are needed. -/
theorem WellFormed.exists_fullyPlaced (h : cfg.WellFormed) :
    ∃ front, FullyPlaced cfg cfg.placePhis.1 front := by
  obtain ⟨front, placed, hresult, hplaced, -, hfront⟩ :=
    h.exists_placed (P := fun _ _ => True) trivial fun _ _ _ _ _ => trivial
  rw [hresult]
  refine ⟨front, hplaced, by rw [hresult], h, fun {id var} hvar => Option.isSome_iff_exists.mp ?_⟩
  exact (hfront id).mpr (h.sound.mem_phiTargets.mpr ⟨var, hvar⟩)

/-! ### Dominance with and without phi blocks -/

/-- A node is another or the phi block in front of it. -/
def Stands (front : NodeId → Option NodeId) (id target : NodeId) : Prop :=
  id = target ∨ front target = some id

namespace Placed

variable {x X p : NodeId} {other : NodeId}

/-- Entrances stand for their node. -/
theorem stands_entrance (source target : NodeId) :
    Stands front (cfg.entrance front source target) target := by
  rw [entrance]
  split
  · exact .inl rfl
  · cases hfront : front target with
    | none => exact .inl rfl
    | some p => exact .inr hfront

variable (h : Placed cfg placed front)
include h

/-- A node of the original graph stands for itself only. -/
theorem eq_of_stands (hid : cfg.contains id) (hstands : Stands front id target) :
    id = target :=
  hstands.resolve_right fun hp => h.ne_phi hid hp rfl

/-- Nodes stand for one node. -/
theorem stands_unique (hother : cfg.contains other) (htarget : cfg.contains target)
    (hid : Stands front id target) (hid' : Stands front id other) : target = other := by
  rcases hid with rfl | hid
  · exact h.eq_of_stands htarget hid'
  · rcases hid' with rfl | hid'
    · exact absurd rfl (h.ne_phi hother hid)
    · exact h.unique hid hid'

/-- An edge leads from a phi block to its node, or is an old one. -/
theorem successor_cases (hid : target ∈ placed.successors id) : front target = some id ∨
      cfg.contains id ∧ ∃ next ∈ cfg.successors id, target = cfg.entrance front id next := by
  obtain ⟨label, hlink⟩ := Graph.mem_successors.mp hid
  rcases h.live (contains_of_mem_outgoing hlink) with hlive | ⟨other, hother⟩
  · obtain ⟨next, hnext, heq⟩ := (h.outgoing hlive).mp hlink
    exact .inr ⟨hlive, next, Graph.mem_successors.mpr ⟨label, hnext⟩, heq⟩
  · obtain ⟨rfl, -⟩ := Prod.mk.inj ((h.outgoing_phi hother).mp hlink)
    exact .inl hother

/-- Phi blocks lead to their target. -/
theorem successors_phi (hid : front target = some id) : target ∈ placed.successors id :=
  Graph.mem_successors.mpr ⟨none, (h.outgoing_phi hid).mpr rfl⟩

/-- Successors are their entrances. -/
theorem entrance_mem_successors (hnext : target ∈ cfg.successors id) :
    cfg.entrance front id target ∈ placed.successors id := by
  obtain ⟨label, hlink⟩ := Graph.mem_successors.mp hnext
  exact Graph.mem_successors.mpr ⟨label,
    (h.outgoing (contains_of_mem_outgoing hlink)).mpr ⟨target, hlink, rfl⟩⟩

/-- Where control gets with phi blocks it gets without them. -/
theorem reaches_of_reaches (hcfg : cfg.Sound) (hid : placed.Reaches placed.start id) :
    ∃ target, Stands front id target ∧ cfg.Reaches cfg.start target := by
  refine hid.closed (S := fun id => ∃ target, Stands front id target ∧ cfg.Reaches cfg.start target)
    ⟨cfg.start, .inl h.start, .refl _⟩ ?_
  rintro id ⟨target, hstands, hreach⟩ next hnext
  rcases h.successor_cases hnext with hphi | ⟨hlive, other, hother, rfl⟩
  · have hnot : id ≠ target := by
      rintro rfl
      exact h.ne_phi (hreach.contains hcfg.graph hcfg.start) hphi rfl
    obtain rfl := h.unique hphi (hstands.resolve_left hnot)
    exact ⟨next, .inl rfl, hreach⟩
  · obtain rfl := h.eq_of_stands hlive hstands
    exact ⟨other, stands_entrance id other, hreach.tail hother⟩

/-- Placing reaches no other node. -/
theorem reaches_original (hcfg : cfg.Sound) (hlive : cfg.contains id)
    (hid : placed.Reaches placed.start id) : cfg.Reaches cfg.start id := by
  obtain ⟨target, hstands, hreach⟩ := h.reaches_of_reaches hcfg hid
  exact h.eq_of_stands hlive hstands ▸ hreach

section

variable (hcfg : cfg.Sound) (hx : Stands front x X) (hX : cfg.contains X)
include hcfg hx hX

/-- An edge that does not lead to a node leads to it by no phi block. -/
theorem path_of_successor (hnext : target ∈ cfg.successors id) (hne : target ≠ X) :
    Relation.ReflTransGen (fun u v => placed.Adjacent u v ∧ v ≠ x) id target := by
  have htarget := hcfg.graph.contains_successor hnext
  have hother : ∀ {y}, Stands front y target → y ≠ x := by
    rintro y hy rfl
    exact hne (h.stands_unique hX htarget hy hx)
  have hfirst := h.entrance_mem_successors hnext
  have hstands : Stands front (cfg.entrance front id target) target := stands_entrance id target
  rcases hstands with heq | hphi
  · exact .single ⟨heq ▸ hfirst, hother (.inl rfl)⟩
  · exact .tail (.single ⟨hfirst, hother (.inr hphi)⟩) ⟨h.successors_phi hphi, hother (.inl rfl)⟩

/-- A way round a node is a way round its phi block too. -/
theorem bypass_of_bypass (hbypass : Bypass cfg.Adjacent cfg.start X id) :
    Bypass placed.Adjacent cfg.start x id := by
  obtain ⟨hne, hpath⟩ := hbypass
  refine ⟨fun heq => hne (h.eq_of_stands hcfg.start (heq ▸ hx)), ?_⟩
  induction hpath with
  | refl => exact .refl
  | tail _ hlast ih => exact ih.trans (h.path_of_successor hcfg hx hX hlast.1 hlast.2)

/-- Dominance carries over to the original graph. -/
theorem dominates_of_dominates (hlive : cfg.contains id) (hdom : placed.Dominates x id) :
    cfg.Dominates X id := by
  obtain ⟨hreach, hnot⟩ := dominates_iff.mp hdom
  refine dominates_iff.mpr ⟨h.reaches_original hcfg hlive hreach, fun hbypass => hnot ?_⟩
  rw [h.start]
  exact h.bypass_of_bypass hcfg hx hX hbypass

end

section

variable (hcfg : cfg.WellFormed)
include hcfg

/-- The start has no phi block. -/
theorem ne_start (hp : front target = some p) : target ≠ cfg.start := by
  rintro rfl
  obtain ⟨-, hmovable, -⟩ := h.phi hp
  simp [movableIncoming, hcfg.incoming_start] at hmovable

/-- No edge leads to the start. -/
theorem start_not_mem_successors : placed.start ∉ placed.successors id := by
  rw [h.start]
  intro hstart
  rcases h.successor_cases hstart with hphi | ⟨-, next, hnext, heq⟩
  · exact h.ne_start hcfg hphi rfl
  · rw [h.entrance_eq hcfg.sound.start heq.symm] at hnext
    have hpred := hcfg.sound.graph.mem_predecessors_iff.mpr hnext
    simp [Graph.predecessors, hcfg.incoming_start] at hpred

/-- A way round a node or its phi block is one round the node in the original graph, unless it ends
at the phi block. -/
theorem bypass_original {y : NodeId} (hx : Stands front x X)
    (hbypass : Bypass placed.Adjacent cfg.start x y) :
    (∃ Y, Stands front y Y ∧ Y ≠ X ∧ cfg.contains Y ∧ Bypass cfg.Adjacent cfg.start X Y) ∨
      x = X ∧ front X = some y := by
  obtain ⟨hne, hpath⟩ := hbypass
  have hstart : cfg.start ≠ X := by
    rintro rfl
    rcases hx with rfl | hp
    · exact hne rfl
    · exact h.ne_start hcfg hp rfl
  induction hpath with
  | refl => exact .inl ⟨cfg.start, .inl rfl, hstart, hcfg.sound.start, hstart, .refl⟩
  | @tail y next _ hlast ih =>
    obtain ⟨hnext, havoid⟩ := hlast
    rcases ih with ⟨Y, hY, hYX, hlive, hbypass⟩ | ⟨rfl, hp⟩
    · rcases h.successor_cases hnext with hphi | ⟨hy, other, hother, rfl⟩
      · have hyY : y ≠ Y := fun heq => h.ne_phi hlive hphi heq.symm
        obtain rfl := h.unique hphi (hY.resolve_left hyY)
        exact .inl ⟨next, .inl rfl, hYX, hlive, hbypass⟩
      · obtain rfl := h.eq_of_stands hy hY
        by_cases hotherX : other = X
        · subst hotherX
          -- The edge enters the node to go round, so it must end at the phi block.
          rw [entrance, if_neg fun hself => hYX hself.1] at havoid ⊢
          cases hp : front other with
          | none =>
            rw [hp, Option.getD_none] at havoid
            exact absurd (hx.resolve_right (by simp [hp])).symm havoid
          | some p =>
            rw [hp, Option.getD_some] at havoid
            refine .inr ⟨hx.resolve_right fun hp' => havoid ?_, by simp⟩
            exact Option.some.inj (hp.symm.trans hp')
        · refine .inl ⟨other, stands_entrance .., hotherX,
            hcfg.sound.graph.contains_successor hother, hbypass.1, ?_⟩
          exact hbypass.2.tail ⟨hother, hotherX⟩
    · rcases h.successor_cases hnext with hphi | ⟨hy, -⟩
      · exact absurd (h.unique hphi hp) havoid
      · exact absurd rfl (h.ne_phi hy hp)

/-- Strict dominance carries over from the original graph. -/
theorem strictlyDominates {m M : NodeId} (hx : Stands front x X) (hm : Stands front m M)
    (hreach : placed.Reaches placed.start m) (hdom : cfg.StrictlyDominates X M) :
    placed.StrictlyDominates x m := by
  have hM : cfg.contains M := hdom.2.1.contains hcfg.sound.graph hcfg.sound.start
  have hX : cfg.contains X :=
    hdom.2.reaches_left.contains hcfg.sound.graph hcfg.sound.start
  refine ⟨?_, dominates_iff.mpr ⟨hreach, fun hbypass => ?_⟩⟩
  · rintro rfl
    exact hdom.1 (h.stands_unique hM hX hx hm)
  · rw [h.start] at hbypass
    rcases h.bypass_original hcfg hx hbypass with ⟨Y, hY, -, hlive, hround⟩ | ⟨rfl, hp⟩
    · obtain rfl := h.stands_unique hlive hM hm hY
      exact (dominates_iff.mp hdom.2).2 hround
    · exact hdom.1 (h.stands_unique hM hX (.inr hp) hm)

/-- A phi block dominates its node. -/
theorem phi_strictlyDominates (hp : front target = some p) (hlive : cfg.contains target)
    (hreach : placed.Reaches placed.start target) : placed.StrictlyDominates p target := by
  refine ⟨fun heq => h.ne_phi hlive hp heq.symm, dominates_iff.mpr ⟨hreach, fun hbypass => ?_⟩⟩
  rw [h.start] at hbypass
  rcases h.bypass_original hcfg (.inr hp) hbypass with ⟨Y, hY, hne, -⟩ | ⟨rfl, -⟩
  · exact hne (h.eq_of_stands hlive hY).symm
  · exact h.ne_phi hlive hp rfl

/-- The ways out of a node keep their order and their labels. -/
theorem outgoing_eq (hlive : cfg.contains id) : placed.outgoing id =
      (cfg.outgoing id).map fun link => (cfg.entrance front id link.1, link.2) := by
  refine hcfg.outgoing_eq_map h.sound.graph (fun link => cfg.entrance front id link.1)
    fun link => (h.outgoing hlive).trans ?_
  constructor
  · rintro ⟨target, htarget, heq⟩
    exact ⟨_, htarget, Prod.ext heq rfl⟩
  · rintro ⟨old, hold, rfl⟩
    exact ⟨old.1, hold, rfl⟩

end

/-- Phi blocks have one link out. -/
theorem outgoing_phi_eq (hp : front target = some p) : placed.outgoing p = [(target, none)] :=
  h.sound.graph.outgoing_eq_singleton fun _ => h.outgoing_phi hp

/-- An edge leads to a phi block if it led to the node behind it. -/
theorem entrance_eq_phi (hp : front target = some p) (hother : cfg.contains other) :
    cfg.entrance front source other = p ↔
      other = target ∧ ¬ (source = target ∧ cfg.keepsSelfEdge target) := by
  rw [entrance]
  constructor
  · intro heq
    split at heq
    · exact absurd heq (h.ne_phi hother hp)
    · next hself =>
      cases hfront : front other with
      | none => exact absurd (by simpa [hfront] using heq) (h.ne_phi hother hp)
      | some q =>
        rw [hfront, Option.getD_some] at heq
        obtain rfl := h.unique (heq ▸ hfront) hp
        exact ⟨rfl, hself⟩
  · rintro ⟨rfl, hself⟩
    rw [if_neg hself, hp, Option.getD_some]

/-- The edges into a phi block are those that moved to it. -/
theorem mem_incoming_phi (hcfg : cfg.Sound) (hp : front target = some p) {link : Link} :
    link ∈ placed.incoming p ↔ link ∈ cfg.movableIncoming target := by
  obtain ⟨source, label⟩ := link
  rw [← h.sound.graph.mirrored, mem_movableIncoming hcfg]
  by_cases hsource : cfg.contains source
  · rw [h.outgoing hsource]
    constructor
    · rintro ⟨other, hother, heq⟩
      obtain ⟨rfl, hself⟩ :=
        (h.entrance_eq_phi hp (hcfg.graph.contains_target hother)).mp heq.symm
      exact ⟨hother, hself⟩
    · rintro ⟨hother, hself⟩
      exact ⟨target, hother, ((h.entrance_eq_phi hp (h.contains_target hp)).mpr ⟨rfl, hself⟩).symm⟩
  · constructor
    · intro hlink
      obtain ⟨other, hother⟩ := (h.live (contains_of_mem_outgoing hlink)).resolve_left hsource
      obtain ⟨rfl, -⟩ := Prod.mk.inj ((h.outgoing_phi hother).mp hlink)
      exact absurd rfl (h.ne_phi (h.contains_target hother) hp)
    · exact fun hlink => absurd (contains_of_mem_outgoing hlink.1) hsource

/-- Phi blocks are entered by what moves. -/
theorem length_incoming_phi (hcfg : cfg.Sound) (hp : front target = some p) :
    (placed.incoming p).length = (cfg.movableIncoming target).length :=
  List.Perm.length_eq ((perm_ext_iff_of_nodup (h.sound.graph.incoming_nodup p)
    (hcfg.nodup_movableIncoming target)).mpr fun _ => h.mem_incoming_phi hcfg hp)

/-- A node has at most two successors. -/
theorem length_successors_le (hcfg : cfg.WellFormed) (id : NodeId) :
    (placed.successors id).length ≤ 2 := by
  rw [Graph.successors, length_map]
  by_cases hid : placed.contains id
  · rcases h.live hid with hlive | ⟨target, hp⟩
    · rw [h.outgoing_eq hcfg hlive, length_map]
      rcases hcfg.outgoing_cases id with hnone | ⟨link, hlink⟩ | ⟨onTrue, onFalse, hlinks⟩
      · simp [hnone]
      · simp [hlink]
      · simp [hlinks]
    · simp [h.outgoing_phi_eq hp]
  · simp [outgoing_eq_nil (Bool.not_eq_true _ ▸ hid : placed.contains id = false)]

/-- Old nodes define what they did. -/
theorem definitionsAt_eq (hlive : cfg.contains id) :
    placed.definitionsAt id = cfg.definitionsAt id := by
  rw [definitionsAt, h.node hlive, definitionsAt]

/-- Phi blocks define their variables. -/
theorem mem_definitionsAt_phi (hp : front target = some p) :
    var ∈ placed.definitionsAt p ↔ var ∈ cfg.phiVars target := by
  obtain ⟨-, -, span, hnode⟩ := h.phi hp
  rw [FlowGraph.definitionsAt_eq hnode, Node.definitions, Phi.mem_targets_ofVars]

/-- A definition is one of the node stood for, or of its phi block. -/
theorem site_of_definition (hcfg : cfg.Sound) (hreach : placed.Reaches placed.start x)
    (hvar : var ∈ placed.definitionsAt x) :
    var ∈ cfg.definedVars ∧ ∃ X, Stands front x X ∧ cfg.contains X ∧
      (X ∈ cfg.sites var ∨ X ∈ cfg.phiSites cfg.frontiers var) := by
  obtain ⟨X, hX, hreachX⟩ := h.reaches_of_reaches hcfg hreach
  have hlive := hreachX.contains hcfg.graph hcfg.start
  rcases hX with rfl | hp
  · rw [h.definitionsAt_eq hlive] at hvar
    exact ⟨hcfg.mem_definedVars.mpr ⟨x, hreachX, hvar⟩, x, .inl rfl, hlive,
      .inl (hcfg.mem_sites.mpr ⟨hreachX, hvar⟩)⟩
  · have hphi := mem_phiVars.mp ((h.mem_definitionsAt_phi hp).mp hvar)
    exact ⟨hphi.1, X, .inr hp, hlive, .inr hphi.2⟩

end Placed

/-- Where the dominance of a definition ends is a phi block for it. -/
theorem FullyPlaced.phiVars_of_inFrontier (h : FullyPlaced cfg placed front) {x m : NodeId}
    (hvar : var ∈ placed.definitionsAt x) (hfrontier : placed.InFrontier x m) :
    ∃ target, front target = some m ∧ var ∈ cfg.phiVars target := by
  obtain ⟨n, hdom, hsucc, hnot⟩ := hfrontier
  have hcfg := h.wellFormed.sound
  have hreach := hdom.1.tail hsucc
  obtain ⟨hdefined, X, hX, hlive, hsite⟩ := h.site_of_definition hcfg hdom.reaches_left hvar
  rcases h.successor_cases hsucc with hphi | ⟨hn, target, htarget, rfl⟩
  · -- The only way on from a phi block is to its node, which it dominates.
    have hphiDom := h.phi_strictlyDominates h.wellFormed hphi (h.contains_target hphi) hreach
    refine absurd ⟨?_, hdom.trans hphiDom.2⟩ hnot
    rintro rfl
    exact hphiDom.1 (h.sound.dominates_antisymm hphiDom.2 hdom)
  · have hdomX := h.dominates_of_dominates hcfg hX hlive hn hdom
    by_cases hself : n = target ∧ cfg.keepsSelfEdge target
    · -- The edge is the own edge of a spin, which defines nothing.
      obtain ⟨rfl, hkeeps⟩ := hself
      rw [entrance, if_pos ⟨rfl, hkeeps⟩] at hnot
      obtain rfl : x = n := by
        by_contra hne
        exact hnot ⟨hne, hdom⟩
      rw [h.definitionsAt_eq hn] at hvar
      cases hnode : cfg.node? x with
      | none => simp [FlowGraph.definitionsAt, hnode] at hvar
      | some node =>
        have hkind : node.kind = .spin := by simpa [keepsSelfEdge, kind?, hnode] using hkeeps
        cases node <;> simp_all [Node.kind, FlowGraph.definitionsAt, Node.definitions]
    · have hfrontier : cfg.InFrontier X target := by
        refine ⟨n, hdomX, htarget, fun hstrict => hnot ?_⟩
        exact h.strictlyDominates h.wellFormed hX (Placed.stands_entrance ..) hreach hstrict
      have hvars : var ∈ cfg.phiVars target :=
        mem_phiVars.mpr ⟨hdefined, hcfg.phiSites_closed hsite hfrontier⟩
      obtain ⟨p, hp⟩ := h.complete hvars
      exact ⟨target, by rw [entrance, if_neg hself, hp, Option.getD_some], hvars⟩

end FlowGraph

end Flowgraph

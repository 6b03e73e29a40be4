import Flowgraph.Proofs.Flow.Assembled
import Flowgraph.Proofs.Ssa.RoundTrip
import Mathlib.Data.Set.Card

/-!
# Taking out phi blocks that follow one another

A phi block may lead to another one, or to the first of the copies that have taken the place of one.
`FlowGraph.Cleared` says what has become of the edges after some phi blocks were taken out: an edge
leads by copies to the first node on its way that is still there. There is one as long as no cycle
consists of phi blocks only. So the way back ends, and leaves a well-formed graph without a phi
block that control reaches (`FlowGraph.WellFormed.cleared_fromSsa`). Other phi blocks stay, and so
do the edges that enter them.
-/

namespace Flowgraph

open List Relation Graph

namespace FlowGraph

variable {ssa cfg cfg' : FlowGraph} {p behind id source first next target : NodeId}
  {gone : Set NodeId} {label : Label} {route : NodeId → Link → NodeId} {phi : Phi} {span : Span}
  {detour : Link → NodeId × List NodeId}

namespace Bypassed

variable {link : Link} {nodes : List Node} {ids : List NodeId}

variable (h : Bypassed cfg cfg' p behind phi detour) (hcfg : cfg.Sound)
include h hcfg

/-- A lane to the phi block goes on by copies to what is behind it. -/
theorem lane_onward {source : NodeId} (hlane : cfg.Lane p first nodes ids) (hids : p ∉ ids)
    (hedge : (first, label) ∈ cfg.outgoing source) :
    ∃ link ∈ cfg.incoming p, ∃ slot span, cfg'.Lane behind (diverted p detour source (first, label))
      (nodes ++ copiesFor phi slot span) (ids ++ (detour link).2) := by
  induction hlane generalizing source label with
  | nil =>
    have hlink := hcfg.graph.mirrored.mp hedge
    obtain ⟨slot, hlane⟩ := h.exists_lane hlink
    rw [diverted, if_pos rfl]
    exact ⟨_, hlink, slot, _, hlane⟩
  | @cons id next node nodes ids hnode hnext _ ih =>
    rw [mem_cons, not_or] at hids
    obtain ⟨link, hlink, slot, span, hrest⟩ :=
      ih hids.2 (by rw [hnext]; exact mem_singleton_self _)
    have hother : id ≠ p := Ne.symm hids.1
    refine ⟨link, hlink, slot, span, ?_⟩
    rw [diverted, if_neg hother]
    exact .cons ((h.node (contains_of_payload? hnode) hother).trans hnode)
      (h.outgoing_eq_singleton hother hnext) hrest

/-- The edges that enter the phi block come from other nodes. -/
theorem source_ne (hlink : link ∈ cfg.incoming p) : link.1 ≠ p := by
  obtain ⟨label, hout⟩ := h.exit
  intro heq
  have hself := hcfg.graph.mirrored.mpr hlink
  rw [heq, hout, mem_singleton] at hself
  exact h.apart (Prod.mk.inj hself).1.symm

/-- What is behind the phi block, and each copy, is entered from where the way begins or from a
copy. -/
theorem exists_source (hlink : link ∈ cfg.incoming p) (hid : id = behind ∨ id ∈ (detour link).2) :
    ∃ entry ∈ cfg'.incoming id, entry.1 = link.1 ∨ entry.1 ∈ (detour link).2 := by
  obtain ⟨slot, hlane⟩ := h.exists_lane hlink
  rcases hlane.entered_of_mem hid with rfl | ⟨source, hsource, hedge⟩
  · have hout : (p, link.2) ∈ cfg.outgoing link.1 := hcfg.graph.mirrored.mpr hlink
    refine ⟨link, h.sound.graph.mirrored.mp ?_, .inl rfl⟩
    rw [h.outgoing (contains_of_mem_outgoing hout) (h.source_ne hcfg hlink)]
    exact ⟨_, hout, by rw [diverted, if_pos rfl]⟩
  · exact ⟨(source, none), h.sound.graph.mirrored.mp hedge, .inr hsource⟩

/-- An edge that neither leaves nor enters the phi block stays. -/
theorem incoming_kept (hid : id ≠ p) (hlink : link ∈ cfg.incoming id) (hsource : link.1 ≠ p) :
    link ∈ cfg'.incoming id := by
  have hout : (id, link.2) ∈ cfg.outgoing link.1 := hcfg.graph.mirrored.mpr hlink
  refine h.sound.graph.mirrored.mp ?_
  rw [h.outgoing (contains_of_mem_outgoing hout) hsource]
  exact ⟨_, hout, by rw [diverted, if_neg hid]⟩

/-- Only what is behind the phi block was entered from there. -/
theorem eq_behind (hlink : link ∈ cfg.incoming id) (hsource : link.1 = p) : id = behind := by
  obtain ⟨label, hout⟩ := h.exit
  have hedge := hcfg.graph.mirrored.mpr hlink
  rw [hsource, hout, mem_singleton] at hedge
  exact (Prod.mk.inj hedge).1

/-- What was entered still is, if the phi block was. -/
theorem entered (hid : id ≠ p) (hp : cfg.incoming p ≠ []) (hentered : cfg.incoming id ≠ []) :
    cfg'.incoming id ≠ [] := by
  obtain ⟨link, hlink⟩ := exists_mem_of_ne_nil _ hentered
  by_cases hsource : link.1 = p
  · obtain ⟨first, hfirst⟩ := exists_mem_of_ne_nil _ hp
    obtain ⟨entry, hentry, -⟩ := h.exists_source hcfg hfirst (.inl (h.eq_behind hcfg hlink hsource))
    exact ne_nil_of_mem hentry
  · exact ne_nil_of_mem (h.incoming_kept hcfg hid hlink hsource)

/-- What was entered from another node still is, if the phi block was entered. -/
theorem entered_other (hid : id ≠ p) (hp : cfg.incoming p ≠ []) (hnot : p ∉ cfg.successors id)
    (hentered : ∃ link ∈ cfg.incoming id, link.1 ≠ id) :
    ∃ link ∈ cfg'.incoming id, link.1 ≠ id := by
  obtain ⟨link, hlink, hother⟩ := hentered
  by_cases hsource : link.1 = p
  · obtain ⟨first, hfirst⟩ := exists_mem_of_ne_nil _ hp
    obtain ⟨entry, hentry, hcases⟩ := h.exists_source hcfg hfirst
      (.inl (h.eq_behind hcfg hlink hsource))
    refine ⟨entry, hentry, fun heq => ?_⟩
    rw [heq] at hcases
    rcases hcases with rfl | hcopy
    · exact hnot (Graph.mem_successors.mpr ⟨first.2, hcfg.graph.mirrored.mpr hfirst⟩)
    · exact hid (h.fresh hfirst id hcopy (contains_of_mem_incoming hlink))
  · exact ⟨link, h.incoming_kept hcfg hid hlink hsource, hother⟩

end Bypassed

/-! ### Taking out phi blocks one after another -/

/-- Where control gets from a node by nodes that are gone. -/
inductive Leads (ssa : FlowGraph) (gone : Set NodeId) : NodeId → NodeId → Prop where
  | here {id : NodeId} : id ∉ gone → Leads ssa gone id id
  | onward {id next target : NodeId} {label : Label} :
      id ∈ gone → ssa.outgoing id = [(next, label)] →
      Leads ssa gone next target → Leads ssa gone id target

namespace Leads

/-- A way that ends elsewhere stays when one more node is gone. -/
theorem insert_of_ne (h : Leads ssa gone source target) (hne : target ≠ p) :
    Leads ssa (insert p gone) source target := by
  induction h with
  | here hnot => exact .here fun hmem => (Set.mem_insert_iff.mp hmem).elim hne hnot
  | onward hgone hout _ ih => exact .onward (Set.mem_insert_of_mem _ hgone) hout (ih hne)

/-- A way to a node goes on when the node is gone. -/
theorem insert_onward (h : Leads ssa gone source p) (hout : ssa.outgoing p = [(next, label)])
    (hrest : Leads ssa (insert p gone) next target) : Leads ssa (insert p gone) source target := by
  induction h with
  | here => exact .onward (Set.mem_insert ..) hout hrest
  | onward hgone hnext _ ih => exact .onward (Set.mem_insert_of_mem _ hgone) hnext (ih hout hrest)

/-- From a node there is only one way by nodes that are gone. -/
theorem unique {other : NodeId} (h : Leads ssa gone source target)
    (hother : Leads ssa gone source other) : other = target := by
  induction h with
  | here hnot =>
    cases hother with
    | here => rfl
    | onward hgone => exact absurd hgone hnot
  | onward hgone hout _ ih =>
    cases hother with
    | here hnot => exact absurd hgone hnot
    | onward _ hout' hrest =>
      obtain ⟨rfl, -⟩ := Prod.mk.inj (singleton_inj.mp (hout.symm.trans hout'))
      exact ih hrest

/-- A way ends where it begins, or behind a node that is gone. -/
theorem eq_or_exists (h : Leads ssa gone source target) :
    source = target ∨ ∃ last ∈ gone, target ∈ ssa.successors last := by
  induction h with
  | here => exact .inl rfl
  | @onward id next target label hgone hout _ ih =>
    rcases ih with rfl | hlast
    · exact .inr ⟨id, hgone, mem_successors_of_eq hout⟩
    · exact .inr hlast

end Leads

/-- The phi blocks that control reaches. -/
def reachablePhis (cfg : FlowGraph) : Set NodeId :=
  {id | cfg.Reaches cfg.start id ∧ cfg.kind? id = some .phi}

/-- A copy that takes the place of a phi block that is gone. -/
def CopyOf (ssa : FlowGraph) (gone : Set NodeId) (node : Node) : Prop :=
  ∃ p ∈ gone, ∃ phi span slot copySpan, ssa.node? p = some (.phi phi span) ∧
    node ∈ copiesFor phi slot copySpan

/-- Copies stay copies. -/
theorem CopyOf.insert {node : Node} (h : CopyOf ssa gone node) (p : NodeId) :
    CopyOf ssa (insert p gone) node := by
  obtain ⟨q, hq, hrest⟩ := h
  exact ⟨q, Set.mem_insert_of_mem _ hq, hrest⟩

/-- An edge from a phi block to another one. -/
def PhiEdge (cfg : FlowGraph) (source target : NodeId) : Prop :=
  cfg.kind? source = some .phi ∧ cfg.kind? target = some .phi ∧ target ∈ cfg.successors source

/-- If phi blocks lead to later ones only, no cycle consists of them. -/
theorem not_transGen_phiEdge (h : ∀ source ∈ cfg.nodes, cfg.kind? source = some .phi →
    ∀ target ∈ cfg.successors source, cfg.kind? target = some .phi → source < target)
    (id : NodeId) :
    ¬ TransGen cfg.PhiEdge id id := by
  have hedge : ∀ {source target}, cfg.PhiEdge source target → source < target := by
    rintro source target ⟨hsource, htarget, hmem⟩
    exact h source (mem_nodes.mpr (contains_of_kind? hsource)) hsource target hmem htarget
  have hpath : ∀ {target}, TransGen cfg.PhiEdge id target → id < target := by
    intro target htrans
    induction htrans with
    | single hfirst => exact hedge hfirst
    | tail _ hlast ih => exact Nat.lt_trans ih (hedge hlast)
  exact fun hcycle => Nat.lt_irrefl id (hpath hcycle)

/-- Ways by phi blocks are ways along edges between them. -/
theorem Leads.phiPath {source target : NodeId} (h : Leads ssa gone source target)
    (hgone : ∀ id ∈ gone, ssa.kind? id = some .phi) (htarget : ssa.kind? target = some .phi) :
    ssa.kind? source = some .phi ∧ ReflTransGen ssa.PhiEdge source target := by
  induction h with
  | here => exact ⟨htarget, .refl⟩
  | @onward id next target label hid hout _ ih =>
    obtain ⟨hnext, hpath⟩ := ih htarget
    have hmem : next ∈ ssa.successors id := mem_successors_of_eq hout
    exact ⟨hgone id hid, .head ⟨hgone id hid, hnext, hmem⟩ hpath⟩

/-- A node that is there and stays. -/
def Stays (ssa : FlowGraph) (gone : Set NodeId) (id : NodeId) : Prop :=
  ssa.contains id ∧ id ∉ gone

/-- One more node goes. -/
theorem stays_insert : Stays ssa (insert p gone) id ↔ Stays ssa gone id ∧ id ≠ p := by
  rw [Stays, Stays, Set.mem_insert_iff, not_or]
  tauto

/-- A way by copies that have taken the place of phi blocks. -/
def CopyWay (ssa cfg : FlowGraph) (gone : Set NodeId) (first target : NodeId) : Prop :=
  ∃ nodes ids, cfg.Lane target first nodes ids ∧ (∀ node ∈ nodes, CopyOf ssa gone node) ∧
    ∀ copy ∈ ids, ¬ Stays ssa gone copy

/-- Some reached phi blocks were replaced by copies. -/
structure Cleared (ssa cfg : FlowGraph) (gone : Set NodeId) (route : NodeId → Link → NodeId) :
    Prop where
  sound : cfg.Sound
  start : cfg.start = ssa.start
  phis : gone ⊆ ssa.reachablePhis
  node : ∀ {id}, Stays ssa gone id → cfg.node? id = ssa.node? id
  copy : ∀ {id}, cfg.contains id → ¬ Stays ssa gone id →
    ∃ node next, cfg.node? id = some node ∧ CopyOf ssa gone node ∧ cfg.outgoing id = [(next, none)]
  outgoing : ∀ {id other}, Stays ssa gone id →
    (other ∈ cfg.outgoing id ↔ ∃ link ∈ ssa.outgoing id, other = (route id link, link.2))
  direct : ∀ {id link}, link.1 ∉ gone → route id link = link.1
  way : ∀ {id link}, Stays ssa gone id → link ∈ ssa.outgoing id →
    ∃ target, Leads ssa gone link.1 target ∧ CopyWay ssa cfg gone (route id link) target
  entered : ∀ {id}, cfg.contains id → (Stays ssa gone id → ssa.incoming id ≠ []) →
    cfg.incoming id ≠ []
  apart : ∀ {id label}, Stays ssa gone id → ssa.outgoing id = [(id, label)] →
    (∃ link ∈ ssa.incoming id, link.1 ≠ id) → ∃ link ∈ cfg.incoming id, link.1 ≠ id
  aside : ∀ {id}, Stays ssa gone id → (∀ p ∈ ssa.reachablePhis, id ∉ ssa.successors p) →
    cfg.incoming id = ssa.incoming id

namespace Cleared

/-- Nothing is cleared. -/
theorem refl (h : ssa.Sound) : Cleared ssa ssa ∅ fun _ link => link.1 where
  sound := h
  start := rfl
  phis := Set.empty_subset _
  node _ := rfl
  copy hid hnot := absurd ⟨hid, Set.notMem_empty _⟩ hnot
  outgoing := by simp
  direct _ := rfl
  way {id link} _ _ := ⟨link.1, .here (Set.notMem_empty _), [], [], .nil, by simp, by simp⟩
  entered {id} hid hstays := hstays ⟨hid, Set.notMem_empty _⟩
  apart _ _ hother := hother
  aside _ _ := rfl

variable (h : Cleared ssa cfg gone route)
include h

/-- Nodes that stay are live. -/
theorem contains (hid : Stays ssa gone id) : cfg.contains id :=
  (contains_congr (h.node hid)).trans hid.1

/-- The edges that leave a node keep their order and their labels. -/
theorem outgoing_eq_map (hssa : ssa.WellFormed) (hid : Stays ssa gone id) :
    cfg.outgoing id = (ssa.outgoing id).map fun link => (route id link, link.2) :=
  hssa.outgoing_eq_map h.sound.graph (route id) fun _ => h.outgoing hid

/-- Labels out of a node stay different. -/
theorem distinctLabels (hssa : ssa.WellFormed) : cfg.DistinctLabels := by
  intro id link other hlink hother hlabel
  by_cases hid : Stays ssa gone id
  · obtain ⟨old, hold, rfl⟩ := (h.outgoing hid).mp hlink
    obtain ⟨old', hold', rfl⟩ := (h.outgoing hid).mp hother
    rw [hssa.distinctLabels hold hold' hlabel]
  · obtain ⟨node, next, -, -, hout⟩ := h.copy (contains_of_mem_outgoing hlink) hid
    rw [hout, mem_singleton] at hlink hother
    rw [hlink, hother]

end Cleared

namespace CopyWay

variable {middle : NodeId}

/-- Ways are empty or start at a copy. -/
theorem first_cases (h : CopyWay ssa cfg gone first target) :
    first = target ∨ ¬ Stays ssa gone first := by
  obtain ⟨nodes, ids, hlane, -, hids⟩ := h
  exact hlane.first_cases.imp_right (hids first)

/-- Ways compose. -/
theorem trans (h : CopyWay ssa cfg gone first middle) (hrest : CopyWay ssa cfg gone middle target) :
    CopyWay ssa cfg gone first target := by
  obtain ⟨nodes, ids, hlane, hnodes, hids⟩ := h
  obtain ⟨others, otherIds, hotherLane, hothers, hotherIds⟩ := hrest
  exact ⟨nodes ++ others, ids ++ otherIds, hlane.append hotherLane,
    forall_mem_append.mpr ⟨hnodes, hothers⟩, forall_mem_append.mpr ⟨hids, hotherIds⟩⟩

/-- A way that ends elsewhere stays when a phi block is taken out. -/
theorem insert_of_ne (h : CopyWay ssa cfg gone first target)
    (hb : Bypassed cfg cfg' p behind phi detour)
    (hp : Stays ssa gone p) (hne : target ≠ p) : CopyWay ssa cfg' (insert p gone) first target := by
  obtain ⟨nodes, ids, hlane, hnodes, hids⟩ := h
  exact ⟨nodes, ids, hb.lane_kept hlane hne fun hmem => hids p hmem hp,
    fun node hnode => (hnodes node hnode).insert p,
    fun copy hcopy hstays => hids copy hcopy (stays_insert.mp hstays).1⟩

/-- A way to a phi block goes on when the block is taken out. -/
theorem insert_onward (h : CopyWay ssa cfg gone first p) (hcfg : Cleared ssa cfg gone route)
    (hb : Bypassed cfg cfg' p behind phi detour) (hp : Stays ssa gone p)
    (hphi : ssa.node? p = some (.phi phi span))
    (hedge : (first, label) ∈ cfg.outgoing source) :
    CopyWay ssa cfg' (insert p gone) (diverted p detour source (first, label)) behind := by
  obtain ⟨nodes, ids, hlane, hnodes, hids⟩ := h
  obtain ⟨link, hlink, slot, copySpan, hlane⟩ :=
    hb.lane_onward hcfg.sound hlane (fun hmem => hids p hmem hp) hedge
  refine ⟨_, _, hlane,
    forall_mem_append.mpr ⟨fun node hnode => (hnodes node hnode).insert p,
    fun node hnode => ?_⟩,
    forall_mem_append.mpr ⟨fun copy hcopy hstays => ?_, fun copy hcopy hstays => ?_⟩⟩
  · exact ⟨p, Set.mem_insert .., phi, span, slot, copySpan, hphi, hnode⟩
  · exact hids copy hcopy (stays_insert.mp hstays).1
  · obtain ⟨hstays, hne⟩ := stays_insert.mp hstays
    exact hne (hb.fresh hlink copy hcopy (hcfg.contains hstays))

end CopyWay

namespace Cleared

variable (h : Cleared ssa cfg gone route)
include h

/-- Behind a phi block is another node, if no cycle consists of phi blocks. -/
theorem target_ne (hacyclic : ∀ id, ¬ TransGen ssa.PhiEdge id id)
    (hp : ssa.kind? p = some .phi) (hout : ssa.outgoing p = [(next, label)])
    (hleads : Leads ssa gone next target) : target ≠ p := by
  rintro rfl
  obtain ⟨hnext, hpath⟩ := hleads.phiPath (fun id hid => (h.phis hid).2) hp
  have hmem : next ∈ ssa.successors target := mem_successors_of_eq hout
  exact hacyclic target (.head' ⟨hp, hnext, hmem⟩ hpath)

section

variable (hout : ssa.outgoing p = [(next, label)])
  (hb : Bypassed cfg cfg' p (route p (next, label)) phi detour)
  (hleads : Leads ssa gone next target)
  (hbehind : CopyWay ssa cfg gone (route p (next, label)) target)
include hout hb hleads hbehind

/-- What becomes of a way when the next phi block is taken out. -/
theorem way_insert (hp : Stays ssa gone p) (hphi : ssa.node? p = some (.phi phi span))
    (hne : target ≠ p) {link : Link} (hid : Stays ssa gone id) (hlink : link ∈ ssa.outgoing id) :
    ∃ end_, Leads ssa (insert p gone) link.1 end_ ∧
      CopyWay ssa cfg' (insert p gone) (diverted p detour id (route id link, link.2)) end_ := by
  obtain ⟨end_, hold, hway⟩ := h.way hid hlink
  -- A way that ended at the block goes on to where the block led; the copies of the two ways are
  -- put together.
  by_cases heq : end_ = p
  · subst heq
    have hedge : (route id link, link.2) ∈ cfg.outgoing id :=
      (h.outgoing hid).mpr ⟨link, hlink, rfl⟩
    exact ⟨target, hold.insert_onward hout (hleads.insert_of_ne hne),
      (hway.insert_onward h hb hp hphi hedge).trans (hbehind.insert_of_ne hb hp hne)⟩
  · have hroute : route id link ≠ p := by
      rintro rfl
      exact hway.first_cases.elim (fun hend => heq hend.symm) fun hnot => hnot hp
    rw [diverted, if_neg hroute]
    exact ⟨end_, hold.insert_of_ne heq, hway.insert_of_ne hb hp heq⟩

/-- Only what is behind a phi block gets other incoming edges. -/
theorem incoming_insert (hp : p ∈ ssa.reachablePhis) (hid : Stays ssa gone id) (hne : id ≠ p)
    (haside : ∀ p ∈ ssa.reachablePhis, id ∉ ssa.successors p) :
    cfg'.incoming id = cfg.incoming id := by
  refine hb.incoming (h.contains hid) hne fun heq => ?_
  -- What stands behind the block is no copy, so it is where the last phi block on the way led.
  rw [← heq] at hbehind
  obtain rfl := hbehind.first_cases.resolve_right (not_not_intro hid)
  rcases hleads.eq_or_exists with rfl | ⟨last, hlast, hmem⟩
  · exact haside p hp (mem_successors_of_eq hout)
  · exact haside last (h.phis hlast) hmem

/-- One more phi block is taken out. -/
theorem of_bypassed (hssa : ssa.WellFormed) (hgone : p ∉ gone) (hreach : ssa.Reaches ssa.start p)
    (hphi : ssa.node? p = some (.phi phi span)) (hentered : ssa.incoming p ≠ [])
    (hne : target ≠ p) :
    Cleared ssa cfg' (insert p gone) fun id link =>
      diverted p detour id (route id link, link.2) := by
  have hp : Stays ssa gone p := ⟨contains_of_payload? hphi, hgone⟩
  have hphis : p ∈ ssa.reachablePhis := ⟨hreach, kind?_eq_some hphi⟩
  have hin : cfg.incoming p ≠ [] := h.entered (h.contains hp) fun _ => hentered
  refine {
    sound := hb.sound, start := hb.start.trans h.start, phis := Set.insert_subset hphis h.phis
    node := ?node, copy := ?copy, outgoing := ?outgoing, direct := ?direct, way := ?way
    entered := ?entered, apart := ?apart, aside := ?aside }
  case node =>
    intro id hid
    obtain ⟨hid, hother⟩ := stays_insert.mp hid
    exact (hb.node (h.contains hid) hother).trans (h.node hid)
  case copy =>
    intro id hid hnot
    rcases hb.live hid with ⟨hold, hother⟩ | ⟨link, hlink, hcopy⟩
    · obtain ⟨node, after, hnode, hcopyOf, hafter⟩ :=
        h.copy hold fun hstays => hnot (stays_insert.mpr ⟨hstays, hother⟩)
      exact ⟨node, _, (hb.node hold hother).trans hnode, hcopyOf.insert p,
        hb.outgoing_eq_singleton hother hafter⟩
    · obtain ⟨slot, hlane⟩ := hb.exists_lane hlink
      obtain ⟨node, hmem, hnode, after, hafter, -⟩ := hlane.node_of_mem hcopy
      exact ⟨node, after, hnode, ⟨p, Set.mem_insert .., phi, span, slot, _, hphi, hmem⟩, hafter⟩
  case outgoing =>
    intro id other hid
    obtain ⟨hid, hother⟩ := stays_insert.mp hid
    rw [hb.outgoing (h.contains hid) hother, h.outgoing_eq_map hssa hid]
    simp only [mem_map, exists_exists_and_eq_and]
  case direct =>
    intro id link hnot
    rw [Set.mem_insert_iff, not_or] at hnot
    rw [h.direct hnot.2, diverted, if_neg hnot.1]
  case way =>
    intro id link hid hlink
    exact h.way_insert hout hb hleads hbehind hp hphi hne (stays_insert.mp hid).1 hlink
  case entered =>
    intro id hid hold
    rcases hb.live hid with ⟨hlive, hother⟩ | ⟨link, hlink, hcopy⟩
    · exact hb.entered h.sound hother hin
        (h.entered hlive fun hstays => hold (stays_insert.mpr ⟨hstays, hother⟩))
    · obtain ⟨entry, hentry, -⟩ := hb.exists_source h.sound hlink (.inr hcopy)
      exact ne_nil_of_mem hentry
  case apart =>
    intro id label hid hself hsome
    obtain ⟨hid, hother⟩ := stays_insert.mp hid
    refine hb.entered_other h.sound hother hin (fun hmem => ?_) (h.apart hid hself hsome)
    have hcfg : cfg.outgoing id = [(id, label)] := by
      rw [h.outgoing_eq_map hssa hid, hself, map_singleton, h.direct hid.2]
    rw [Graph.successors_eq hcfg] at hmem
    exact hother (mem_singleton.mp hmem).symm
  case aside =>
    intro id hid haside
    obtain ⟨hid, hother⟩ := stays_insert.mp hid
    exact (h.incoming_insert hout hb hleads hbehind hphis hid hother haside).trans
      (h.aside hid haside)

end

variable (hssa : ssa.WellFormed) (hacyclic : ∀ id, ¬ TransGen ssa.PhiEdge id id)
include hssa hacyclic

/-- A phi block that control reaches can be taken out next. -/
theorem exists_revertPhi (hgone : p ∉ gone) (hreach : ssa.Reaches ssa.start p)
    (hphi : ssa.node? p = some (.phi phi span)) :
    ∃ cfg' route', cfg.revertPhi p phi = .done cfg' ∧ Cleared ssa cfg' (insert p gone) route' := by
  have hp : Stays ssa gone p := ⟨contains_of_payload? hphi, hgone⟩
  have hkind := kind?_eq_some hphi
  have hfits := wellFormed_iff_fitting.mp hssa
  obtain ⟨next, label, hout⟩ : ∃ next label, ssa.outgoing p = [(next, label)] :=
    hfits.outgoing hkind
  obtain ⟨target, hleads, hbehind⟩ := h.way hp (by rw [hout]; exact mem_singleton_self _)
  have hne : target ≠ p := h.target_ne hacyclic hkind hout hleads
  have hbehindNe : route p (next, label) ≠ p := by
    intro heq
    rw [heq] at hbehind
    exact hbehind.first_cases.elim (Ne.symm hne) fun hnot => hnot hp
  have hcfgOut : cfg.outgoing p = [(route p (next, label), label)] := by
    rw [h.outgoing_eq_map hssa hp, hout, map_singleton]
  have hstart : p ≠ ssa.start := by
    rintro rfl
    cases hkind.symm.trans hfits.start
  have hentered : ssa.incoming p ≠ [] := by
    rcases hreach.cases_tail with heq | ⟨source, -, hmem⟩
    · exact absurd heq hstart
    · obtain ⟨label, hedge⟩ := Graph.mem_successors.mp hmem
      exact ne_nil_of_mem (hssa.sound.graph.mirrored.mp hedge)
  obtain ⟨cfg', detour, hdone, hb⟩ := h.sound.exists_bypassed (h.distinctLabels hssa) hcfgOut
    hbehindNe (h.start ▸ hstart) phi
  exact ⟨cfg', _, hdone, h.of_bypassed hout hb hleads hbehind hssa hgone hreach hphi hentered hne⟩

/-- Reached phi blocks can be taken out one after another. -/
theorem exists_revertAll {phis : List (NodeId × Phi)}
    (hphis : ∀ entry ∈ phis, ssa.Reaches ssa.start entry.1 ∧
      ∃ span, ssa.node? entry.1 = some (.phi entry.2 span))
    (hnodup : (phis.map Prod.fst).Nodup) (hgone : ∀ entry ∈ phis, entry.1 ∉ gone) :
    ∃ cfg' route', cfg.revertAll phis = (cfg', .done ()) ∧
      Cleared ssa cfg' (gone ∪ {id | id ∈ phis.map Prod.fst}) route' := by
  induction phis generalizing cfg gone route with
  | nil => exact ⟨cfg, route, rfl, by simpa using h⟩
  | cons entry phis ih =>
    obtain ⟨hentry, hphis⟩ := forall_mem_cons.mp hphis
    obtain ⟨hfirst, hgone⟩ := forall_mem_cons.mp hgone
    obtain ⟨hnot, hnodup⟩ := nodup_cons.mp hnodup
    obtain ⟨hreach, span, hphi⟩ := hentry
    obtain ⟨middle, route', hdone, hmiddle⟩ := h.exists_revertPhi hssa hacyclic hfirst hreach hphi
    have hnew : ∀ other ∈ phis, other.1 ∉ insert entry.1 gone := by
      intro other hother hmem
      rcases Set.mem_insert_iff.mp hmem with heq | hmem
      · exact hnot (heq ▸ mem_map_of_mem hother)
      · exact hgone other hother hmem
    obtain ⟨cfg', route'', hall, hcleared⟩ := ih hmiddle hphis hnodup hnew
    refine ⟨cfg', route'', ?_, ?_⟩
    · rw [revertAll, hdone]
      exact hall
    · convert hcleared using 1
      ext id
      simp only [map_cons, mem_cons, Set.mem_union, Set.mem_ofPred_eq, Set.mem_insert_iff]
      tauto

end Cleared

/-! ### The graph without phi blocks -/

/-- The reached phi blocks, as a set. -/
theorem Sound.setOf_mem_reachedPhis (h : ssa.Sound) :
    {id | id ∈ ssa.reachedPhis.map Prod.fst} = ssa.reachablePhis :=
  Set.ext fun _ => mem_map_reachedPhis h

/-- The number of reached phi blocks. -/
theorem Sound.ncard_reachablePhis (h : ssa.Sound) :
    ssa.reachablePhis.ncard = ssa.reachedPhis.length := by
  have hset : ssa.reachablePhis = ↑(ssa.reachedPhis.map Prod.fst).toFinset := by
    rw [← h.setOf_mem_reachedPhis, coe_toFinset]
  rw [hset, Set.ncard_coe_finset, toFinset_card_of_nodup (nodup_reachedPhis h),
    length_map]

/-- The way back takes out all phi blocks that control reaches. -/
theorem WellFormed.exists_cleared (h : ssa.WellFormed)
    (hacyclic : ∀ id, ¬ TransGen ssa.PhiEdge id id) :
    ∃ cfg route, ssa.fromSsa = (cfg, .done ssa.reachablePhis.ncard) ∧
      Cleared ssa cfg ssa.reachablePhis route := by
  obtain ⟨cfg, route, hall, hcleared⟩ := (Cleared.refl h.sound).exists_revertAll h hacyclic
    (fun entry hentry => (mem_reachedPhis h.sound).mp hentry) (nodup_reachedPhis h.sound)
    fun _ _ => Set.notMem_empty _
  rw [Set.empty_union, h.sound.setOf_mem_reachedPhis] at hcleared
  refine ⟨cfg, route, ?_, hcleared⟩
  rw [fromSsa, hall, h.sound.ncard_reachablePhis]
  rfl

namespace Cleared

variable {kind : Kind}

/-- A node that did not stay is an assignment. -/
theorem kind_cases (h : Cleared ssa cfg gone route) (hkind : cfg.kind? id = some kind) :
    (Stays ssa gone id ∧ ssa.kind? id = some kind) ∨
      (kind = .assign ∧ ¬ Stays ssa gone id ∧ ∃ next, cfg.outgoing id = [(next, none)]) := by
  by_cases hid : Stays ssa gone id
  · rw [kind?, h.node hid] at hkind
    exact .inl ⟨hid, hkind⟩
  · obtain ⟨node, next, hnode, hcopy, hout⟩ := h.copy (contains_of_kind? hkind) hid
    obtain ⟨q, -, phi, span, slot, copySpan, -, hmem⟩ := hcopy
    obtain ⟨name, -, arg, rfl⟩ := mem_copiesFor hmem
    obtain rfl := Option.some.inj ((kind?_eq_some hnode).symm.trans hkind)
    exact .inr ⟨rfl, hid, next, hout⟩

/-- Links out fit after clearing. -/
theorem outgoingFits (h : Cleared ssa cfg gone route) (hssa : ssa.WellFormed)
    (hkind : cfg.kind? id = some kind) : cfg.OutgoingFits id kind := by
  rcases h.kind_cases hkind with ⟨hid, hold⟩ | ⟨rfl, -, next, hout⟩
  · have hfits := (wellFormed_iff_fitting.mp hssa).outgoing hold
    refine hfits.map (h.outgoing_eq_map hssa hid) ?_
    rintro rfl link hlink
    obtain ⟨label, hself⟩ := hfits
    rw [hself, mem_singleton] at hlink
    rw [hlink, h.direct hid.2]
  · exact ⟨next, none, hout⟩

variable (h : Cleared ssa cfg ssa.reachablePhis route)
include h

section

variable (hssa : ssa.WellFormed) (hreach : cfg.Reaches cfg.start id)
include hssa hreach

/-- Control comes to a node that stayed only if it did before. -/
theorem reaches (hid : Stays ssa ssa.reachablePhis id) : ssa.Reaches ssa.start id := by
  induction hreach with
  | refl =>
    rw [h.start]
    exact .refl _
  | @tail source id _ hmem ih =>
    by_contra hnot
    -- A node that control did not reach is entered as before, from nodes that control did not
    -- reach.
    have haside : ∀ p ∈ ssa.reachablePhis, id ∉ ssa.successors p :=
      fun p hp hmem => hnot (hp.1.tail hmem)
    obtain ⟨label, hedge⟩ := Graph.mem_successors.mp hmem
    have hold : (source, label) ∈ ssa.incoming id := by
      rw [← h.aside hid haside]
      exact h.sound.graph.mirrored.mp hedge
    have hedge := hssa.sound.graph.mirrored.mpr hold
    have hsource : ¬ ssa.Reaches ssa.start source := fun hsource =>
      hnot (hsource.tail (Graph.mem_successors.mpr ⟨label, hedge⟩))
    exact hsource (ih ⟨contains_of_mem_outgoing hedge, fun hgone => hsource hgone.1⟩)

/-- No phi block is left. -/
theorem kind?_ne_phi : cfg.kind? id ≠ some .phi := by
  intro hkind
  rcases h.kind_cases hkind with ⟨hid, hold⟩ | ⟨hkind, -⟩
  · exact hid.2 ⟨h.reaches hssa hreach hid, hold⟩
  · cases hkind

end

/-- A phi block that control does not reach is entered as before. -/
theorem incoming_phi (hid : Stays ssa ssa.reachablePhis id) (hkind : ssa.kind? id = some .phi) :
    cfg.incoming id = ssa.incoming id :=
  h.aside hid fun _ hp hmem => hid.2 ⟨hp.1.tail hmem, hkind⟩

/-- Links in fit after clearing. -/
theorem incomingFits (hssa : ssa.WellFormed) (hkind : cfg.kind? id = some kind) :
    cfg.IncomingFits id kind := by
  have hfitting := wellFormed_iff_fitting.mp hssa
  have hlive : cfg.contains id := contains_of_kind? hkind
  rcases h.kind_cases hkind with ⟨hid, hold⟩ | ⟨rfl, hnot, -⟩
  · by_cases hphi : kind = .phi
    · subst hphi
      intro hmem
      obtain ⟨label, hedge⟩ := Graph.mem_successors.mp hmem
      have hself := h.sound.graph.mirrored.mp hedge
      rw [h.incoming_phi hid hold] at hself
      exact hfitting.incoming hold (Graph.mem_successors.mpr
        ⟨label, hssa.sound.graph.mirrored.mpr hself⟩)
    · refine (hfitting.incoming hold).of_entered hphi h.start (fun hnone => ?_)
        (fun hsome => h.entered hlive fun _ => hsome) ?_
      · rw [h.aside hid fun p _ hmem => ?_, hnone]
        obtain ⟨label, hedge⟩ := Graph.mem_successors.mp hmem
        simpa [hnone] using hssa.sound.graph.mirrored.mp hedge
      · rintro rfl hother
        obtain ⟨label, hself⟩ := hfitting.outgoing hold
        exact h.apart hid hself hother
  · exact h.entered hlive fun hstays => absurd hstays hnot

/-- Clearing keeps a graph well-formed. -/
theorem wellFormed (hssa : ssa.WellFormed) : cfg.WellFormed := by
  have hfitting := wellFormed_iff_fitting.mp hssa
  refine wellFormed_iff_fitting.mpr ⟨h.sound, ?_, h.outgoingFits hssa, h.incomingFits hssa,
    fun {id phi span} hphi => ?_⟩
  · have hstart : Stays ssa ssa.reachablePhis ssa.start := by
      refine ⟨contains_of_kind? hfitting.start, fun hgone => ?_⟩
      cases hgone.2.symm.trans hfitting.start
    rw [h.start, kind?, h.node hstart]
    exact hfitting.start
  · rcases h.kind_cases (kind?_eq_some hphi) with ⟨hid, hold⟩ | ⟨hkind, -⟩
    · rw [h.incoming_phi hid hold]
      exact hfitting.slots ((h.node hid).symm.trans hphi)
    · cases hkind

end Cleared

/-- If no cycle of a well-formed graph consists of phi blocks only, the way back from single
assignment form takes out all phi blocks that control reaches. The graph is well-formed again, and
control reaches no phi block in it. The other nodes stay, with their edges in order. Such an edge
leads where it did, unless this was a phi block that is gone, and where it led by these to a node it
leads by copies to that node. A phi block that stays is entered as before. None stays if control
reached them all, and the edges then lead round all phi blocks. -/
theorem WellFormed.cleared_fromSsa (h : ssa.WellFormed)
    (hacyclic : ∀ id, ¬ Relation.TransGen ssa.PhiEdge id id) :
    ∃ (cfg : FlowGraph) (route : NodeId → Link → NodeId),
      ssa.fromSsa = (cfg, .done ssa.reachablePhis.ncard) ∧ cfg.WellFormed ∧
      (∀ id, cfg.Reaches cfg.start id → cfg.kind? id ≠ some .phi) ∧
      (∀ id, Stays ssa ssa.reachablePhis id → cfg.node? id = ssa.node? id ∧
        cfg.outgoing id = (ssa.outgoing id).map fun link => (route id link, link.2)) ∧
      (∀ id link, link.1 ∉ ssa.reachablePhis → route id link = link.1) ∧
      (∀ id link target, Stays ssa ssa.reachablePhis id → link ∈ ssa.outgoing id →
        Leads ssa ssa.reachablePhis link.1 target →
        CopyWay ssa cfg ssa.reachablePhis (route id link) target) ∧
      (∀ id, Stays ssa ssa.reachablePhis id → ssa.kind? id = some .phi →
        cfg.incoming id = ssa.incoming id) ∧
      ((∀ id, ssa.kind? id = some .phi → ssa.Reaches ssa.start id) →
        ssa.reachablePhis = {id | ssa.kind? id = some .phi} ∧ ∀ id, cfg.kind? id ≠ some .phi) := by
  obtain ⟨cfg, route, hdone, hcleared⟩ := h.exists_cleared hacyclic
  refine ⟨cfg, route, hdone, hcleared.wellFormed h, fun id => hcleared.kind?_ne_phi h,
    fun id hid => ⟨hcleared.node hid, hcleared.outgoing_eq_map h hid⟩,
    fun id link hlink => hcleared.direct hlink, fun id link target hid hlink hleads => ?_,
    fun id => hcleared.incoming_phi, fun hall => ⟨?_, fun id hkind => ?_⟩⟩
  · obtain ⟨found, hfound, hway⟩ := hcleared.way hid hlink
    rwa [hleads.unique hfound] at hway
  · exact Set.ext fun id => ⟨And.right, fun hkind => ⟨hall id hkind, hkind⟩⟩
  · rcases hcleared.kind_cases hkind with ⟨hid, hold⟩ | ⟨hkind, -⟩
    · exact hid.2 ⟨hall id hold, hold⟩
    · cases hkind

/-- Two phi blocks one behind the other. Both arms of a branch enter the first, and an arm of an
unreached branch the second. -/
def cascading : FlowGraph :=
  .ofNodes .dummy [.branch (.temp "c") .dummy, .phi ⟨2, .ofList [("x", ["a", "b"])]⟩ .dummy,
      .phi ⟨2, .ofList [("y", ["x", "z"])]⟩ .dummy, .ret .dummy, .assign "z" (.const 1) .dummy,
      .branch (.temp "z") .dummy]
    [⟨0, 1, none⟩, ⟨1, 2, some true⟩, ⟨1, 2, some false⟩, ⟨2, 3, none⟩, ⟨3, 4, none⟩, ⟨5, 6, none⟩,
      ⟨6, 5, some true⟩, ⟨6, 3, some false⟩]

/-- A phi block in a loop that control does not reach. -/
def detached : FlowGraph :=
  .ofNodes .dummy [.ret .dummy, .assign "x" (.const 1) .dummy, .phi ⟨1, ∅⟩ .dummy]
    [⟨0, 1, none⟩, ⟨2, 3, none⟩, ⟨3, 2, none⟩]

/-- An arm leads by copies to the end. A phi block out of reach stays and is entered as before. -/
theorem cleared_fromSsa_cascading : cascading.WellFormed ∧
    (∀ id, ¬ Relation.TransGen cascading.PhiEdge id id) ∧
    (∃ cfg first, cascading.fromSsa = (cfg, .done 2) ∧ cfg.WellFormed ∧
      (∀ id, cfg.kind? id ≠ some .phi) ∧ (first, some true) ∈ cfg.outgoing 1 ∧
      CopyWay cascading cfg {id | cascading.kind? id = some .phi} first 4) ∧
    ∃ cfg, detached.fromSsa = (cfg, .done 0) ∧ cfg.kind? 3 = some .phi ∧
      cfg.incoming 3 = [(2, none)] := by
  have hwell : cascading.WellFormed := ⟨by decide +kernel, .dummy, rfl⟩
  have hacyclic : ∀ id, ¬ Relation.TransGen cascading.PhiEdge id id :=
    not_transGen_phiEdge (by decide +kernel)
  have hcount : cascading.reachablePhis.ncard = 2 := by
    rw [hwell.sound.ncard_reachablePhis]
    decide +kernel
  have hall : ∀ id, cascading.kind? id = some .phi → cascading.Reaches cascading.start id := by
    intro id hkind
    have hreached : ∀ id ∈ cascading.nodes, cascading.kind? id = some .phi →
        id ∈ cascading.reached := by decide +kernel
    exact hwell.sound.mem_reached.mp (hreached id (mem_nodes.mpr (contains_of_kind? hkind)) hkind)
  obtain ⟨cfg, route, hdone, hcfg, -, hstays, -, hway, -, hnone⟩ :=
    WellFormed.cleared_fromSsa hwell hacyclic
  obtain ⟨hphis, hnone⟩ := hnone hall
  rw [hphis] at hstays hway
  have hupper : cascading.outgoing 2 = [(3, none)] := by decide +kernel
  have hlower : cascading.outgoing 3 = [(4, none)] := by decide +kernel
  have hleads : Leads cascading {id | cascading.kind? id = some .phi} 2 4 :=
    .onward (by decide +kernel) hupper (.onward (by decide +kernel) hlower
      (.here (by decide +kernel)))
  have htest : Stays cascading {id | cascading.kind? id = some .phi} 1 :=
    ⟨by decide +kernel, by decide +kernel⟩
  rw [hcount] at hdone
  refine ⟨hwell, hacyclic, ⟨cfg, route 1 (2, some true), hdone, hcfg, hnone, ?_, ?_⟩, ?_⟩
  · rw [(hstays 1 htest).2]
    exact mem_map.mpr ⟨(2, some true), by decide +kernel, rfl⟩
  · exact hway 1 (2, some true) 4 htest (by decide +kernel) hleads
  · have hwell : detached.WellFormed := ⟨by decide +kernel, .dummy, rfl⟩
    obtain ⟨cfg, route, hdone, -, -, hstays, -, -, hentered, -⟩ :=
      WellFormed.cleared_fromSsa hwell (not_transGen_phiEdge (by decide +kernel))
    have hnone : detached.reachedPhis.length = 0 := by decide +kernel
    have hstay : Stays detached detached.reachablePhis 3 := by
      refine ⟨by decide +kernel, fun hgone => ?_⟩
      have hmem := (mem_map_reachedPhis hwell.sound).mpr hgone
      rw [length_eq_zero_iff.mp hnone] at hmem
      cases hmem
    rw [hwell.sound.ncard_reachablePhis, hnone] at hdone
    refine ⟨cfg, hdone, ?_, ?_⟩
    · rw [kind?, (hstays 3 hstay).1]
      decide +kernel
    · rw [hentered 3 hstay (by decide +kernel)]
      decide +kernel

/-- A phi block that control does not reach is not replaced by copies. -/
theorem not_copyWay_detached : detached.WellFormed ∧
    (∀ id, ¬ Relation.TransGen detached.PhiEdge id id) ∧
    detached.fromSsa = (detached, .done 0) ∧ (3, none) ∈ detached.outgoing 2 ∧
    Leads detached {id | detached.kind? id = some .phi} 3 2 ∧
    ∀ first, (first, none) ∈ detached.outgoing 2 →
      ¬ CopyWay detached detached {id | detached.kind? id = some .phi} first 2 := by
  have hnone : detached.reachedPhis.length = 0 := by decide +kernel
  have hout : detached.outgoing 2 = [(3, none)] := by decide +kernel
  have hphi : detached.kind? 3 = some .phi := by decide +kernel
  have hnot : detached.kind? 2 ≠ some .phi := by decide +kernel
  refine ⟨⟨by decide +kernel, .dummy, rfl⟩, not_transGen_phiEdge (by decide +kernel), ?_,
    ?_, ?_, ?_⟩
  · rw [fromSsa, length_eq_zero_iff.mp hnone]
    rfl
  · rw [hout]
    exact mem_singleton_self _
  · exact .onward hphi (show detached.outgoing 3 = [(2, none)] by decide +kernel) (.here hnot)
  · intro first hfirst hway
    rw [hout, mem_singleton] at hfirst
    obtain rfl := (Prod.mk.inj hfirst).1
    obtain ⟨nodes, ids, hlane, hnodes, -⟩ := hway
    have hmem := hlane.first_cases.resolve_left (by decide)
    obtain ⟨node, hnode, hfound, -⟩ := hlane.node_of_mem hmem
    obtain ⟨q, -, phi, span, slot, copySpan, -, hcopy⟩ := hnodes node hnode
    obtain ⟨name, -, arg, rfl⟩ := mem_copiesFor hcopy
    cases (kind?_eq_some hfound).symm.trans hphi

end FlowGraph

end Flowgraph

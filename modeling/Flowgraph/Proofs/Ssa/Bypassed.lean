import Flowgraph.Proofs.Flow.Lane
import Flowgraph.Proofs.Flow.WellFormed
import Flowgraph.Proofs.Ssa.Shape

/-!
# Taking out a phi block

A phi block is removed, and each edge that entered it is led past it by a lane of the copies of its
slot. `FlowGraph.Detours` describes several such ways to one target, and `FlowGraph.Bypassed` what
one phi block that is taken out does to the graph around it (`FlowGraph.Sound.exists_bypassed`).
-/

namespace Flowgraph

open List Graph

namespace FlowGraph

variable {cfg cfg' middle ssa : FlowGraph} {p behind id target : NodeId} {label : Label} {phi : Phi}
  {detour : Link → NodeId × List NodeId}

/-! ### Several ways to one target -/

/-- New ways by lanes to a target, one for each entry. A route is the first node of a way and the
nodes on it. -/
structure Detours (cfg cfg' : FlowGraph) (target : NodeId) (entries : List (Link × Nat))
    (copies : Nat → List Node) (route : Link → NodeId × List NodeId) : Prop where
  sound : cfg'.Sound
  start : cfg'.start = cfg.start
  node : ∀ {id}, cfg.contains id → cfg'.node? id = cfg.node? id
  live : ∀ {id}, cfg'.contains id →
    cfg.contains id ∨ ∃ entry ∈ entries, id ∈ (route entry.1).2
  fresh : ∀ entry ∈ entries, ∀ id ∈ (route entry.1).2, cfg.contains id = false
  outgoing : ∀ {id other}, cfg.contains id → (other ∈ cfg'.outgoing id ↔
    other ∈ cfg.outgoing id ∨
      ∃ entry ∈ entries, id = entry.1.1 ∧ other = ((route entry.1).1, entry.1.2))
  incoming : ∀ {id}, cfg.contains id → id ≠ target → cfg'.incoming id = cfg.incoming id
  lane : ∀ entry ∈ entries,
    cfg'.Lane target (route entry.1).1 (copies entry.2) (route entry.1).2

namespace Detours

variable {entries : List (Link × Nat)} {copies : Nat → List Node}
  {route : Link → NodeId × List NodeId} {first : NodeId} {ids : List NodeId}

/-- A lane of the old graph stays, unless new ways begin on it. -/
theorem keeps_lane (h : Detours cfg cfg' target entries copies route) {end_ : NodeId}
    {nodes : List Node} (hlane : cfg.Lane end_ first nodes ids)
    (hsources : ∀ entry ∈ entries, entry.1.1 ∉ ids) : cfg'.Lane end_ first nodes ids := by
  refine hlane.congr (fun id hid => ?_) fun id hid => ?_
  · obtain ⟨node, -, hnode, -⟩ := hlane.node_of_mem hid
    exact h.node (Graph.contains_of_payload? hnode)
  · obtain ⟨node, -, hnode, next, hnext, -⟩ := hlane.node_of_mem hid
    rw [hnext]
    refine h.sound.graph.outgoing_eq_singleton fun other => ?_
    rw [h.outgoing (Graph.contains_of_payload? hnode), hnext, mem_singleton]
    refine ⟨fun hother => hother.resolve_right ?_, .inl⟩
    intro ⟨entry, hentry, hsource, _⟩
    exact hsources entry hentry (hsource ▸ hid)

/-- No edge is led past. -/
theorem nil (h : cfg.Sound) (target : NodeId) (copies : Nat → List Node)
    (route : Link → NodeId × List NodeId) : Detours cfg cfg target [] copies route where
  sound := h
  start := rfl
  node _ := rfl
  live := .inl
  fresh := by simp
  outgoing := by simp
  incoming _ _ := rfl
  lane := by simp

/-- One way and then the others. -/
theorem cons {link : Link} {slot : Nat}
    (hfirst : Detour cfg middle link target first (copies slot) ids)
    (hrest : Detours middle cfg' target entries copies route)
    (hlive : ∀ entry ∈ entries, cfg.contains entry.1.1)
    (hnot : ∀ entry ∈ entries, entry.1 ≠ link) :
    Detours cfg cfg' target ((link, slot) :: entries) copies
      (Function.update route link (first, ids)) := by
  have hmiddle : ∀ {id}, cfg.contains id → middle.contains id := fun hid =>
    (contains_congr (hfirst.node hid)).trans hid
  have hroute : ∀ entry ∈ entries, Function.update route link (first, ids) entry.1 =
      route entry.1 :=
    fun entry hentry => Function.update_of_ne (hnot entry hentry) ..
  refine ⟨hrest.sound, hrest.start.trans hfirst.start,
    fun hid => (hrest.node (hmiddle hid)).trans (hfirst.node hid), fun {id} hid => ?_,
    forall_mem_cons.mpr ⟨?_, fun entry hentry id hid => ?_⟩, fun {id other} hid => ?_,
    fun hid hne => (hrest.incoming (hmiddle hid) hne).trans (hfirst.incoming hid hne),
    forall_mem_cons.mpr ⟨?_, fun entry hentry => ?_⟩⟩
  · rcases hrest.live hid with hid | ⟨entry, hentry, hid⟩
    · refine (hfirst.live hid).imp_right fun hid => ⟨(link, slot), mem_cons_self, ?_⟩
      rw [Function.update_self]
      exact hid
    · exact .inr ⟨entry, mem_cons_of_mem _ hentry, by rwa [hroute entry hentry]⟩
  · rw [Function.update_self]
    exact hfirst.fresh
  · rw [hroute entry hentry] at hid
    refine Bool.eq_false_iff.mpr fun hcontains => ?_
    exact Bool.noConfusion ((hrest.fresh entry hentry id hid).symm.trans (hmiddle hcontains))
  · rw [hrest.outgoing (hmiddle hid), hfirst.outgoing hid, exists_mem_cons_iff,
      Function.update_self, or_assoc]
    refine or_congr_right (or_congr_right ?_)
    refine exists_congr fun entry => and_congr_right fun hentry => ?_
    rw [hroute entry hentry]
  · rw [Function.update_self]
    refine hrest.keeps_lane hfirst.lane fun entry hentry hmem => ?_
    exact Bool.noConfusion ((hfirst.fresh _ hmem).symm.trans (hlive entry hentry))
  · rw [hroute entry hentry]
    exact hrest.lane entry hentry

end Detours

/-- An edge that is led past a phi block goes by a lane of copies. -/
theorem Sound.detour_bypass (h : cfg.Sound) (phi : Phi) (span : Span) {link : Link} (slot : Nat)
    (hsource : cfg.contains link.1) (htarget : cfg.contains target)
    (hnew : (target, link.2) ∉ cfg.outgoing link.1) : ∃ first ids,
      Detour cfg (bypass phi target span cfg (link, slot)) link target first
        (copiesFor phi slot span) ids := by
  by_cases hcopies : copiesFor phi slot span = []
  · refine ⟨target, [], ?_⟩
    simp only [bypass, hcopies, isEmpty_nil, if_pos]
    exact h.detour_addEdge hsource htarget
  · refine ⟨cfg.nextId, List.range' cfg.nextId (copiesFor phi slot span).length, ?_⟩
    simp only [bypass, List.isEmpty_iff, if_neg hcopies]
    exact h.detour_splitEdge hsource htarget hnew hcopies

/-- All edges that are led past a phi block go by lanes of copies. -/
theorem Sound.detours_bypass (h : cfg.Sound) (phi : Phi) (span : Span) {entries : List (Link × Nat)}
    (hlive : ∀ entry ∈ entries, cfg.contains entry.1.1)
    (htarget : cfg.contains target)
    (hnew : ∀ entry ∈ entries, (target, entry.1.2) ∉ cfg.outgoing entry.1.1)
    (hnodup : (entries.map Prod.fst).Nodup) : ∃ route,
      Detours cfg (entries.foldl (bypass phi target span) cfg) target entries
        (copiesFor phi · span) route := by
  induction entries generalizing cfg with
  | nil => exact ⟨fun _ => (target, []), .nil h ..⟩
  | cons entry rest ih =>
    obtain ⟨link, slot⟩ := entry
    obtain ⟨hlink, hrest⟩ := forall_mem_cons.mp hlive
    obtain ⟨hnewLink, hnewRest⟩ := forall_mem_cons.mp hnew
    obtain ⟨hnotMem, hnodup⟩ := nodup_cons.mp hnodup
    have hnot : ∀ entry ∈ rest, entry.1 ≠ link := fun entry hentry heq =>
      hnotMem (mem_map.mpr ⟨entry, hentry, heq⟩)
    obtain ⟨first, ids, hfirst⟩ := h.detour_bypass phi span slot hlink htarget hnewLink
    have hcontains : ∀ {id}, cfg.contains id →
        (bypass phi target span cfg (link, slot)).contains id := fun hid =>
      (contains_congr (hfirst.node hid)).trans hid
    have hnewRest' : ∀ entry ∈ rest, (target, entry.1.2) ∉
        (bypass phi target span cfg (link, slot)).outgoing entry.1.1 := by
      intro entry hentry hmem
      rcases (hfirst.outgoing (hrest entry hentry)).mp hmem with hold | ⟨hsource, hlabel⟩
      · exact hnewRest entry hentry hold
      · exact hnot entry hentry (Prod.ext hsource (Prod.mk.inj hlabel).2)
    obtain ⟨route, hroute⟩ := ih hfirst.sound (fun entry hentry => hcontains (hrest entry hentry))
      (hcontains htarget) hnewRest' hnodup
    exact ⟨_, .cons hfirst hroute hrest hnot⟩

/-! ### One phi block -/

/-- Where an edge leads when those to one node are diverted. -/
def diverted (p : NodeId) (detour : Link → NodeId × List NodeId) (id : NodeId) (link : Link) :
    NodeId :=
  if link.1 = p then (detour (id, link.2)).1 else link.1

/-- A graph without a phi block: each edge that entered it leads by the copies of its slot to what
is behind. -/
structure Bypassed (cfg cfg' : FlowGraph) (p behind : NodeId) (phi : Phi)
    (detour : Link → NodeId × List NodeId) : Prop where
  exit : ∃ label, cfg.outgoing p = [(behind, label)]
  apart : behind ≠ p
  sound : cfg'.Sound
  start : cfg'.start = cfg.start
  node : ∀ {id}, cfg.contains id → id ≠ p → cfg'.node? id = cfg.node? id
  live : ∀ {id}, cfg'.contains id →
    (cfg.contains id ∧ id ≠ p) ∨ ∃ link ∈ cfg.incoming p, id ∈ (detour link).2
  fresh : ∀ {link}, link ∈ cfg.incoming p → ∀ id ∈ (detour link).2, cfg.contains id → id = p
  outgoing : ∀ {id other}, cfg.contains id → id ≠ p → (other ∈ cfg'.outgoing id ↔
    ∃ link ∈ cfg.outgoing id, other = (diverted p detour id link, link.2))
  incoming : ∀ {id}, cfg.contains id → id ≠ p → id ≠ behind →
    cfg'.incoming id = cfg.incoming id
  lane : ∀ {slot : Nat} {link : Link}, (cfg.incoming p)[slot]? = some link →
    cfg'.Lane behind (detour link).1 (copiesFor phi slot (cfg.spanOf behind)) (detour link).2

/-- What is not removed stays. -/
theorem contains_remove (hid : cfg.contains id) (hne : id ≠ p) :
    (cfg.withGraph (cfg.erase p)).contains id :=
  (Graph.contains_erase ..).trans (by simp [hid, Ne.symm hne])

/-- Ways round a removed node, one for each edge that entered it. -/
theorem Bypassed.of_detours (h : cfg.Sound) (hout : cfg.outgoing p = [(behind, label)])
    (hne : behind ≠ p)
    (hdetours : Detours (cfg.withGraph (cfg.erase p)) cfg' behind (cfg.incoming p).zipIdx
      (copiesFor phi · (cfg.spanOf behind)) detour) : Bypassed cfg cfg' p behind phi detour := by
  have hentry : ∀ entry ∈ (cfg.incoming p).zipIdx, entry.1 ∈ cfg.incoming p := fun entry hentry =>
    fst_mem_of_mem_zipIdx hentry
  have hslot : ∀ {link}, link ∈ cfg.incoming p → ∃ slot,
      (link, slot) ∈ (cfg.incoming p).zipIdx := by
    intro link hlink
    obtain ⟨slot, hslot⟩ := getElem?_of_mem hlink
    exact ⟨slot, mem_zipIdx_iff_getElem?.mpr hslot⟩
  refine {
    exit := ⟨label, hout⟩, apart := hne, sound := hdetours.sound, start := hdetours.start
    node := ?node, live := ?live, fresh := ?fresh, outgoing := ?outgoing, incoming := ?incoming
    lane := fun {slot link} hslot =>
      hdetours.lane (link, slot) (mem_zipIdx_iff_getElem?.mpr hslot) }
  case node =>
    intro id hid hother
    refine (hdetours.node (contains_remove hid hother)).trans ?_
    exact (payload?_erase ..).trans (if_neg (Ne.symm hother))
  case live =>
    intro id hid
    rcases hdetours.live hid with hold | ⟨entry, hmem, hid⟩
    · have hboth : p ≠ id ∧ cfg.contains id := by
        simpa using (Graph.contains_erase ..).symm.trans hold
      exact .inl ⟨hboth.2, Ne.symm hboth.1⟩
    · exact .inr ⟨entry.1, hentry entry hmem, hid⟩
  case fresh =>
    intro link hlink id hid hcontains
    obtain ⟨slot, hslot⟩ := hslot hlink
    by_contra hother
    have hdead := hdetours.fresh _ hslot id hid
    exact Bool.noConfusion (hdead.symm.trans (contains_remove hcontains hother))
  case outgoing =>
    intro id other hid hother
    rw [hdetours.outgoing (contains_remove hid hother)]
    constructor
    · rintro (hold | ⟨entry, hmem, rfl, rfl⟩)
      · obtain ⟨-, hotherNe, hold⟩ := (mem_outgoing_erase ..).mp hold
        exact ⟨other, hold, by rw [diverted, if_neg hotherNe]⟩
      · have hedge := h.graph.mirrored.mpr (hentry entry hmem)
        exact ⟨(p, entry.1.2), hedge, by rw [diverted, if_pos rfl]⟩
    · rintro ⟨link, hlink, rfl⟩
      by_cases heq : link.1 = p
      · subst heq
        obtain ⟨slot, hslot⟩ := hslot (h.graph.mirrored.mp hlink)
        exact .inr ⟨_, hslot, rfl, by rw [diverted, if_pos rfl]⟩
      · rw [diverted, if_neg heq]
        exact .inl ((mem_outgoing_erase ..).mpr ⟨Ne.symm hother, heq, hlink⟩)
  case incoming =>
    intro id hid hother hbehind
    rw [hdetours.incoming (contains_remove hid hother) hbehind]
    refine (incoming_erase ..).trans ((if_neg (Ne.symm hother)).trans ?_)
    -- The only edge from the removed node leads to what is behind it.
    refine filter_eq_self.mpr fun link hlink => ?_
    rw [bne_iff_ne]
    intro heq
    have hedge := h.graph.mirrored.mpr hlink
    rw [heq, hout, mem_singleton] at hedge
    exact hbehind (Prod.mk.inj hedge).1

/-- A phi block with one way out, to another node, can be taken out. -/
theorem Sound.exists_bypassed (h : cfg.Sound) (hlabels : cfg.DistinctLabels)
    (hout : cfg.outgoing p = [(behind, label)]) (hne : behind ≠ p) (hstart : p ≠ cfg.start)
    (phi : Phi) :
    ∃ cfg' detour, cfg.revertPhi p phi = .done cfg' ∧ Bypassed cfg cfg' p behind phi detour := by
  have hentry : ∀ entry ∈ (cfg.incoming p).zipIdx, (p, entry.1.2) ∈ cfg.outgoing entry.1.1 :=
    fun entry hmem => h.graph.mirrored.mpr (fst_mem_of_mem_zipIdx hmem)
  have hsource : ∀ entry ∈ (cfg.incoming p).zipIdx,
      (cfg.withGraph (cfg.erase p)).contains entry.1.1 := by
    intro entry hmem
    have hedge := hentry entry hmem
    refine contains_remove (contains_of_mem_outgoing hedge) fun heq => hne ?_
    rw [heq, hout, mem_singleton] at hedge
    exact (Prod.mk.inj hedge).1.symm
  have hnew : ∀ entry ∈ (cfg.incoming p).zipIdx,
      (behind, entry.1.2) ∉ (cfg.withGraph (cfg.erase p)).outgoing entry.1.1 := by
    intro entry hmem hold
    have hold' := ((mem_outgoing_erase ..).mp hold).2.2
    exact hne (Prod.mk.inj (hlabels hold' (hentry entry hmem) rfl)).1
  have hlive : cfg.contains behind :=
    h.graph.contains_target (by rw [hout]; exact mem_singleton_self _)
  have hnodup : ((cfg.incoming p).zipIdx.map Prod.fst).Nodup := by
    rw [zipIdx_map_fst]
    exact h.graph.incoming_nodup p
  obtain ⟨detour, hdetours⟩ := (h.remove hstart).detours_bypass phi (cfg.spanOf behind) hsource
    (contains_remove hlive hne) hnew hnodup
  refine ⟨_, detour, ?_, .of_detours h hout hne hdetours⟩
  rw [FlowGraph.revertPhi, Graph.successors_eq hout]
  exact (if_neg hne).trans (if_neg hstart)

namespace Bypassed

variable {first : NodeId} {link : Link} {nodes : List Node} {ids : List NodeId}

variable (h : Bypassed cfg cfg' p behind phi detour)
include h

/-- What is not taken out stays. -/
theorem contains (hid : cfg.contains id) (hne : id ≠ p) : cfg'.contains id :=
  (contains_congr (h.node hid hne)).trans hid

/-- A single way out stays a single one. -/
theorem outgoing_eq_singleton (hne : id ≠ p) (hout : cfg.outgoing id = [link]) :
    cfg'.outgoing id = [(diverted p detour id link, link.2)] := by
  have hlive : cfg.contains id :=
    contains_of_mem_outgoing (by rw [hout]; exact mem_singleton_self _)
  refine h.sound.graph.outgoing_eq_singleton fun other => ?_
  simp [h.outgoing hlive hne, hout]

/-- A lane stays if it does not pass the phi block. -/
theorem lane_kept (hlane : cfg.Lane target first nodes ids) (htarget : target ≠ p)
    (hids : p ∉ ids) : cfg'.Lane target first nodes ids := by
  have hother : ∀ id ∈ ids, id ≠ p := fun id hid heq => hids (heq ▸ hid)
  refine hlane.congr (fun id hid => ?_) fun id hid => ?_
  · obtain ⟨node, -, hnode, -⟩ := hlane.node_of_mem hid
    exact h.node (contains_of_payload? hnode) (hother id hid)
  · obtain ⟨node, -, -, next, hnext, hcases⟩ := hlane.node_of_mem hid
    have hne : next ≠ p := by
      rcases hcases with rfl | hmem
      · exact htarget
      · exact hother next hmem
    rw [h.outgoing_eq_singleton (hother id hid) hnext, hnext, diverted, if_neg hne]

/-- An edge that entered the phi block leads by copies to what is behind. -/
theorem exists_lane (hlink : link ∈ cfg.incoming p) : ∃ slot,
    cfg'.Lane behind (detour link).1 (copiesFor phi slot (cfg.spanOf behind)) (detour link).2 := by
  obtain ⟨slot, hslot⟩ := getElem?_of_mem hlink
  exact ⟨slot, h.lane hslot⟩

end Bypassed

/-! ### The phi blocks that are taken out -/

/-- The phi blocks that are taken out are those that control reaches. -/
theorem mem_reachedPhis (h : ssa.Sound) {p : NodeId} {phi : Phi} : (p, phi) ∈ ssa.reachedPhis ↔
    ssa.Reaches ssa.start p ∧ ∃ span, ssa.node? p = some (.phi phi span) := by
  rw [reachedPhis, mem_filterMap]
  constructor
  · intro ⟨id, hid, hsome⟩
    obtain ⟨node, hnode, hsome⟩ := Option.bind_eq_some_iff.mp hsome
    obtain ⟨found, hfound, hpair⟩ := Option.bind_eq_some_iff.mp hsome
    cases hpair
    refine ⟨h.mem_reached.mp hid, ?_⟩
    cases node with
    | phi mappings span =>
      cases hfound
      exact ⟨span, hnode⟩
    | _ => cases hfound
  · intro ⟨hreach, span, hnode⟩
    exact ⟨p, h.mem_reached.mpr hreach, by simp [hnode, Node.phi?]⟩

/-- Each phi block is taken out once. -/
theorem nodup_reachedPhis (h : ssa.Sound) : (ssa.reachedPhis.map Prod.fst).Nodup := by
  have hnodup : ssa.reached.Nodup := Graph.nodup_breadthFirst h.graph h.start
  have hfst : ∀ {id : NodeId} {entry : NodeId × Phi}, (do
      let phi ← (← ssa.node? id).phi?
      return (id, phi) : Option (NodeId × Phi)) = some entry → entry.1 = id := by
    intro id entry hentry
    obtain ⟨node, -, hentry⟩ := Option.bind_eq_some_iff.mp hentry
    obtain ⟨phi, -, hentry⟩ := Option.bind_eq_some_iff.mp hentry
    cases hentry
    rfl
  refine pairwise_map.mpr (List.Pairwise.filterMap _ ?_ hnodup)
  intro id id' hne entry hentry entry' hentry'
  rw [hfst hentry, hfst hentry']
  exact hne

/-- The numbers of the phi blocks that are taken out. -/
theorem mem_map_reachedPhis (h : ssa.Sound) : id ∈ ssa.reachedPhis.map Prod.fst ↔
    ssa.Reaches ssa.start id ∧ ssa.kind? id = some .phi := by
  rw [mem_map]
  constructor
  · rintro ⟨entry, hentry, rfl⟩
    obtain ⟨hreach, span, hnode⟩ := (mem_reachedPhis h).mp hentry
    exact ⟨hreach, kind?_eq_some hnode⟩
  · rintro ⟨hreach, hkind⟩
    obtain ⟨phi, span, hnode⟩ := exists_phi_of_kind? hkind
    exact ⟨(id, phi), (mem_reachedPhis h).mpr ⟨hreach, span, hnode⟩, rfl⟩

end FlowGraph

end Flowgraph

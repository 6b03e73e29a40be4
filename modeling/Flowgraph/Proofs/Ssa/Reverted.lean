import Flowgraph.Proofs.Ssa.Bypassed

/-!
# Graphs whose phi blocks were taken out

`FlowGraph.Reverting`: some phi blocks of a graph were replaced by copies. An edge that led to one
leads by a lane of copies to the node behind it, and the others lead where they did. Phi blocks of a
`FlowGraph.Revertible` graph do not lead to each other, so the slots of those still to come are left
alone, and all that control reaches are replaced (`Revertible.exists_reverting`).
-/

namespace Flowgraph

open List

namespace FlowGraph

variable {cfg cfg' ssa : FlowGraph} {target : NodeId}

/-- Phi blocks can be taken out: they lead to and are entered from other nodes, and no node has two
ways out with one label. -/
structure Revertible (ssa : FlowGraph) : Prop where
  sound : ssa.Sound
  labels : ssa.DistinctLabels
  start : ssa.kind? ssa.start ≠ some .phi
  target : ∀ {p}, ssa.kind? p = some .phi →
    ∃ target, ssa.outgoing p = [(target, none)] ∧ ssa.kind? target ≠ some .phi
  source : ∀ {p link}, ssa.kind? p = some .phi → link ∈ ssa.incoming p →
    ssa.kind? link.1 ≠ some .phi

/-- Some phi blocks were replaced by copies on the edges to them. -/
structure Reverting (ssa cfg : FlowGraph) (gone : List NodeId)
    (route : NodeId → Link → NodeId × List NodeId) : Prop where
  sound : cfg.Sound
  start : cfg.start = ssa.start
  phis : ∀ id ∈ gone, ssa.kind? id = some .phi
  node : ∀ {id}, ssa.contains id → id ∉ gone → cfg.node? id = ssa.node? id
  live : ∀ {id}, cfg.contains id → (ssa.contains id ∧ id ∉ gone) ∨
    ∃ source link, link ∈ ssa.outgoing source ∧ link.1 ∈ gone ∧ id ∈ (route source link).2
  fresh : ∀ {source link}, link ∈ ssa.outgoing source → ∀ id ∈ (route source link).2,
    ssa.contains id → id ∈ gone
  outgoing : ∀ {id other}, ssa.contains id → id ∉ gone → (other ∈ cfg.outgoing id ↔
    ∃ link ∈ ssa.outgoing id, other = ((route id link).1, link.2))
  kept : ∀ {id link}, link.1 ∉ gone → route id link = (link.1, [])
  incoming : ∀ {p}, ssa.kind? p = some .phi → p ∉ gone → cfg.incoming p = ssa.incoming p
  lane : ∀ {p phi span target}, p ∈ gone → ssa.node? p = some (.phi phi span) →
    ssa.outgoing p = [(target, none)] → ∀ {slot : Nat} {link : Link},
    (ssa.incoming p)[slot]? = some link →
    cfg.Lane target (route link.1 (p, link.2)).1 (copiesFor phi slot (ssa.spanOf target))
      (route link.1 (p, link.2)).2

namespace Reverting

variable {gone : List NodeId} {route : NodeId → Link → NodeId × List NodeId} {id : NodeId}

/-- Nothing is reverted. -/
theorem refl (h : ssa.Revertible) : Reverting ssa ssa [] fun _ link => (link.1, []) where
  sound := h.sound
  start := rfl
  phis := by simp
  node _ _ := rfl
  live hid := .inl ⟨hid, by simp⟩
  fresh := by simp
  outgoing := by simp
  kept _ := rfl
  incoming _ _ := rfl
  lane := by simp

/-- Nodes that are not gone are live. -/
theorem contains (h : Reverting ssa cfg gone route) (hid : ssa.contains id)
    (hnot : id ∉ gone) : cfg.contains id :=
  (contains_congr (h.node hid hnot)).trans hid

/-- Only phi blocks go. -/
theorem not_mem_of_kind (h : Reverting ssa cfg gone route) (hkind : ssa.kind? id ≠ some .phi) :
    id ∉ gone := fun hmem => hkind (h.phis id hmem)

section Step

variable {p : NodeId} {phi : Phi} {span : Span} {link : Link}

/-- The way out of a phi block that is still there. -/
theorem outgoing_phi (h : Reverting ssa cfg gone route) (hgone : p ∉ gone)
    (hp : ssa.outgoing p = [(target, none)]) (htarget : ssa.kind? target ≠ some .phi) :
    cfg.outgoing p = [(target, none)] := by
  have hmem : (target, none) ∈ ssa.outgoing p := by rw [hp]; exact mem_singleton_self _
  refine h.sound.graph.outgoing_eq_singleton fun other => ?_
  have hkept : route p (target, none) = (target, []) := h.kept (h.not_mem_of_kind htarget)
  rw [h.outgoing (Graph.contains_of_mem_outgoing hmem) hgone, hp]
  simp [hkept]

/-- The routes of edges to one phi block, beside the others. -/
def divert (p : NodeId) (detour : Link → NodeId × List NodeId)
    (route : NodeId → Link → NodeId × List NodeId) (id : NodeId) (link : Link) :
    NodeId × List NodeId :=
  if link.1 = p then detour (id, link.2) else route id link

variable {detour : Link → NodeId × List NodeId} (hssa : ssa.Revertible)
  (h : Reverting ssa cfg gone route)
include hssa h

/-- No two ways out of a node get one label. -/
theorem distinctLabels : cfg.DistinctLabels := by
  intro id link other hlink hother hlabel
  rcases h.live (Graph.contains_of_mem_outgoing hlink) with
    ⟨hid, hnot⟩ | ⟨source, edge, hedge, hgone, hid⟩
  · obtain ⟨old, hold, rfl⟩ := (h.outgoing hid hnot).mp hlink
    obtain ⟨old', hold', rfl⟩ := (h.outgoing hid hnot).mp hother
    rw [hssa.labels hold hold' hlabel]
  · have hkind := h.phis _ hgone
    obtain ⟨phi, span, hphi⟩ := exists_phi_of_kind? hkind
    obtain ⟨target, hout, -⟩ := hssa.target hkind
    obtain ⟨slot, hslot⟩ := getElem?_of_mem (hssa.sound.graph.mirrored.mp hedge)
    obtain ⟨_, -, -, next, hnext, -⟩ := (h.lane hgone hphi hout hslot).node_of_mem hid
    rw [hnext, mem_singleton] at hlink hother
    rw [hlink, hother]

/-- Where an edge leads when one more phi block is taken out. -/
theorem diverted_eq (hp : ssa.kind? p = some .phi) (hgone : p ∉ gone)
    (hid : ssa.contains id) (hnot : id ∉ gone) (hlink : link ∈ ssa.outgoing id) :
    diverted p detour id ((route id link).1, link.2) = (divert p detour route id link).1 := by
  by_cases heq : link.1 = p
  · have hkept : route id link = (link.1, []) := h.kept (heq ▸ hgone)
    rw [diverted, hkept, if_pos heq, divert, if_pos heq]
  · -- An edge leads to a phi block that is still there only if it did so before.
    have hroute : (route id link).1 ≠ p := by
      intro hroute
      have hout : (p, link.2) ∈ cfg.outgoing id :=
        (h.outgoing hid hnot).mpr ⟨link, hlink, by rw [hroute]⟩
      rw [h.sound.graph.mirrored, h.incoming hp hgone, ← hssa.sound.graph.mirrored] at hout
      exact heq (by rw [hssa.labels hlink hout rfl])
    rw [diverted, if_neg hroute, divert, if_neg heq]

variable (hp : ssa.node? p = some (.phi phi span)) (hgone : p ∉ gone)
include hp hgone

/-- A graph without one more phi block has one phi block fewer. -/
theorem of_bypassed (hout : ssa.outgoing p = [(target, none)])
    (htarget : ssa.kind? target ≠ some .phi) (hb : Bypassed cfg cfg' p target phi detour) :
    Reverting ssa cfg' (p :: gone) (divert p detour route) := by
  have hkind : ssa.kind? p = some .phi := kind?_eq_some hp
  have hlive : ssa.contains p := contains_of_kind? hkind
  have hin : cfg.incoming p = ssa.incoming p := h.incoming hkind hgone
  have hkeep : ∀ {id}, id ∉ p :: gone → id ≠ p ∧ id ∉ gone := fun hnot => by
    simpa [not_or] using hnot
  refine {
    sound := hb.sound, start := hb.start.trans h.start, node := ?node, live := ?live
    phis := forall_mem_cons.mpr ⟨hkind, h.phis⟩, fresh := ?fresh, outgoing := ?outgoing
    kept := ?kept, incoming := ?incoming, lane := ?lane }
  case node =>
    intro id hid hnot
    obtain ⟨hne, hnot⟩ := hkeep hnot
    exact (hb.node (h.contains hid hnot) hne).trans (h.node hid hnot)
  case live =>
    intro id hid
    rcases hb.live hid with ⟨hold, hne⟩ | ⟨link, hlink, hid⟩
    · rcases h.live hold with ⟨hlive, hnot⟩ | ⟨source, link, hlink, hlinkGone, hid⟩
      · exact .inl ⟨hlive, by simp [hne, hnot]⟩
      · have hother : link.1 ≠ p := fun heq => hgone (heq ▸ hlinkGone)
        refine .inr ⟨source, link, hlink, mem_cons_of_mem _ hlinkGone, ?_⟩
        rwa [divert, if_neg hother]
    · rw [hin] at hlink
      refine .inr ⟨link.1, (p, link.2), hssa.sound.graph.mirrored.mpr hlink, mem_cons_self, ?_⟩
      rwa [divert, if_pos rfl]
  case fresh =>
    intro source link hlink id hid hcontains
    by_cases heq : link.1 = p
    · rw [divert, if_pos heq] at hid
      have hentry : (source, link.2) ∈ cfg.incoming p := by
        rw [hin, ← heq]
        exact hssa.sound.graph.mirrored.mp hlink
      by_contra hnot
      obtain ⟨hne, hnot⟩ := hkeep hnot
      exact hne (hb.fresh hentry id hid (h.contains hcontains hnot))
    · rw [divert, if_neg heq] at hid
      exact mem_cons_of_mem _ (h.fresh hlink id hid hcontains)
  case outgoing =>
    intro id other hid hnot
    obtain ⟨hne, hnot⟩ := hkeep hnot
    rw [hb.outgoing (h.contains hid hnot) hne]
    constructor
    · rintro ⟨way, hway, rfl⟩
      obtain ⟨link, hlink, rfl⟩ := (h.outgoing hid hnot).mp hway
      exact ⟨link, hlink, by rw [h.diverted_eq hssa hkind hgone hid hnot hlink]⟩
    · rintro ⟨link, hlink, rfl⟩
      refine ⟨_, (h.outgoing hid hnot).mpr ⟨link, hlink, rfl⟩, ?_⟩
      rw [h.diverted_eq hssa hkind hgone hid hnot hlink]
  case kept =>
    intro id link hnot
    obtain ⟨hne, hnot⟩ := hkeep hnot
    rw [divert, if_neg hne, h.kept hnot]
  case incoming =>
    intro q hq hnot
    obtain ⟨hne, hnot⟩ := hkeep hnot
    have hother : q ≠ target := fun heq => htarget (heq ▸ hq)
    rw [hb.incoming (h.contains (contains_of_kind? hq) hnot) hne hother, h.incoming hq hnot]
  case lane =>
    intro q psi span' end_ hq hpsi hqout slot link hslot
    by_cases heq : q = p
    · subst heq
      obtain ⟨rfl, rfl⟩ : psi = phi ∧ span' = span := by simpa [hpsi] using hp
      obtain rfl : end_ = target := by simpa [hqout] using hout
      have hspan : cfg.spanOf end_ = ssa.spanOf end_ := by
        rw [spanOf, h.node (hssa.sound.graph.contains_target
          (by rw [hout]; exact mem_singleton_self _)) (h.not_mem_of_kind htarget), spanOf]
      rw [divert, if_pos rfl, ← hspan]
      exact hb.lane (hin ▸ hslot)
    · have hqgone := (mem_cons.mp hq).resolve_left heq
      have hlink : (q, link.2) ∈ ssa.outgoing link.1 :=
        hssa.sound.graph.mirrored.mpr (mem_of_getElem? hslot)
      obtain ⟨found, hfound, hend⟩ := hssa.target (h.phis q hqgone)
      obtain rfl : found = end_ := by simpa [hqout] using hfound.symm
      rw [divert, if_neg heq]
      refine hb.lane_kept (h.lane hqgone hpsi hqout hslot) (fun heq => hend (heq ▸ hkind))
        fun hmem => ?_
      exact hgone (h.fresh hlink p hmem hlive)

/-- One more phi block is taken out. -/
theorem revertPhi :
    ∃ cfg' route', cfg.revertPhi p phi = .done cfg' ∧ Reverting ssa cfg' (p :: gone) route' := by
  have hkind : ssa.kind? p = some .phi := kind?_eq_some hp
  obtain ⟨target, hout, htarget⟩ := hssa.target hkind
  have hstart : p ≠ cfg.start := by
    rw [h.start]
    exact fun heq => hssa.start (heq ▸ hkind)
  obtain ⟨cfg', detour, hdone, hb⟩ := h.sound.exists_bypassed (h.distinctLabels hssa)
    (h.outgoing_phi hgone hout htarget) (fun heq => htarget (heq ▸ hkind)) hstart phi
  exact ⟨cfg', _, hdone, h.of_bypassed hssa hp hgone hout htarget hb⟩

end Step

/-- All listed phi blocks are taken out. -/
theorem revertAll (hssa : ssa.Revertible) (h : Reverting ssa cfg gone route)
    {phis : List (NodeId × Phi)}
    (hphis : ∀ entry ∈ phis, ∃ span, ssa.node? entry.1 = some (.phi entry.2 span))
    (hnodup : (phis.map Prod.fst).Nodup) (hgone : ∀ entry ∈ phis, entry.1 ∉ gone) :
    ∃ cfg' route', cfg.revertAll phis = (cfg', .done ()) ∧
      Reverting ssa cfg' ((phis.map Prod.fst).reverse ++ gone) route' := by
  induction phis generalizing cfg gone route with
  | nil => exact ⟨cfg, route, rfl, h⟩
  | cons entry rest ih =>
    obtain ⟨⟨span, hp⟩, hrest⟩ := forall_mem_cons.mp hphis
    obtain ⟨hnot, hnotRest⟩ := forall_mem_cons.mp hgone
    obtain ⟨hnotMem, hnodup⟩ := nodup_cons.mp hnodup
    obtain ⟨next, route', hnext, hreverting⟩ := h.revertPhi hssa hp hnot
    obtain ⟨final, route'', hfinal, hall⟩ := ih hreverting hrest hnodup fun other hother => by
      rw [mem_cons, not_or]
      exact ⟨fun heq => hnotMem (mem_map.mpr ⟨other, hother, heq⟩), hnotRest other hother⟩
    refine ⟨final, route'', ?_, ?_⟩
    · obtain ⟨p, phi⟩ := entry
      simp only [FlowGraph.revertAll, hnext, hfinal]
    · simpa using hall

end Reverting

/-- The way back ends, and replaces all reached phi blocks. -/
theorem Revertible.exists_reverting (h : ssa.Revertible) :
    ∃ cfg count gone route, ssa.fromSsa = (cfg, .done count) ∧ Reverting ssa cfg gone route ∧
      ∀ id, id ∈ gone ↔ ssa.Reaches ssa.start id ∧ ssa.kind? id = some .phi := by
  obtain ⟨cfg, route, hcfg, hreverting⟩ := (Reverting.refl h).revertAll h
    (fun entry hentry => ((mem_reachedPhis h.sound).mp hentry).2) (nodup_reachedPhis h.sound)
    (fun _ _ => not_mem_nil)
  refine ⟨cfg, ssa.reachedPhis.length, _, route, ?_, hreverting, fun id => ?_⟩
  · rw [fromSsa, hcfg]
    rfl
  · rw [append_nil, mem_reverse, mem_map_reachedPhis h.sound]

end FlowGraph

end Flowgraph

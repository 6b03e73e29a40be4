import Flowgraph.Proofs.Flow.Assembled
import Flowgraph.Proofs.Flow.Lane

/-!
# The order of incoming edges

A phi block reads its arguments by the position of the edge at which it was entered. Splicing takes
an edge away and adds another, which comes last. So the edges into a node that get another source
move behind all others, in the order of their source (`FlowGraph.Sound.requeued_postpendChain`), and
keep their positions only if they were last already, in that order (`Requeued.eq_map_iff`).
-/

namespace Flowgraph

open FlowGraph Graph
open List hiding beq_eq_decide

/-! ### Lists of which some entries are replaced -/

/-- Entries were taken out, and what replaces them was put at the end. -/
structure Requeued (old new redirected : List Link) (next : Link → Link) : Prop where
  nodup : old.Nodup
  nodup_redirected : redirected.Nodup
  mem : ∀ link ∈ redirected, link ∈ old
  fresh : ∀ link ∈ redirected, next link ∉ old
  injective : ∀ link ∈ redirected, ∀ other ∈ redirected, next link = next other → link = other
  eq : new = old.filter (· ∉ redirected) ++ redirected.map next

namespace Requeued

variable {old new redirected : List Link} {next : Link → Link}

/-- Where the entries of the list are afterwards. -/
def follow (redirected : List Link) (next : Link → Link) (link : Link) : Link :=
  if link ∈ redirected then next link else link

/-- Redirected links all move. -/
theorem map_follow_redirected : redirected.map (follow redirected next) = redirected.map next :=
  map_congr_left fun _ hlink => if_pos hlink

/-- Other links stay. -/
theorem map_follow_of_forall {links : List Link} (h : ∀ link ∈ links, link ∉ redirected) :
    links.map (follow redirected next) = links := by
  have hsame : ∀ link ∈ links, follow redirected next link = id link := fun link hlink =>
    if_neg (h link hlink)
  rw [map_congr_left hsame, map_id]

/-- If nothing is taken out, nothing changes. -/
theorem refl (h : old.Nodup) (next : Link → Link) : Requeued old old [] next where
  nodup := h
  nodup_redirected := nodup_nil
  mem := by simp
  fresh := by simp
  injective := by simp
  eq := by simp

/-- Every entry is still there, or what replaces it. -/
theorem perm (h : Requeued old new redirected next) :
    new.Perm (old.map (follow redirected next)) := by
  have htaken : (old.filter (· ∈ redirected)).Perm redirected := by
    refine (perm_ext_iff_of_nodup (h.nodup.filter _) h.nodup_redirected).mpr fun link => ?_
    simpa using h.mem link
  have hkept : (old.filter (· ∉ redirected)).map (follow redirected next) =
      old.filter (· ∉ redirected) := map_follow_of_forall fun link hlink => by
    simpa using (mem_filter.mp hlink).2
  have hsplit : old.Perm (old.filter (· ∉ redirected) ++ redirected) := by
    refine ((filter_append_perm (· ∈ redirected) old).symm.trans perm_append_comm).trans
      ?_
    simpa using htaken.append_left (old.filter fun link => !decide (link ∈ redirected))
  have hmapped := hsplit.map (follow redirected next)
  rw [map_append, hkept, map_follow_redirected, ← h.eq] at hmapped
  exact hmapped.symm

/-- Positions are kept exactly if those taken out stood at the end. -/
theorem eq_map_iff (h : Requeued old new redirected next) :
    new = old.map (follow redirected next) ↔ redirected <:+ old := by
  constructor
  · intro hnew
    -- Cut the old list where the redirected entries begin in the new one.
    generalize hkept : old.filter (· ∉ redirected) = kept at *
    have heq := h.eq
    rw [hkept, hnew] at heq
    obtain ⟨front, back, rfl, hfront, hback⟩ := map_eq_append_iff.mp heq
    have hstays : ∀ link ∈ front, link ∉ redirected := by
      intro link hlink hmem
      have hmoved : follow redirected next link ∈ kept := hfront ▸ mem_map_of_mem hlink
      rw [follow, if_pos hmem, ← hkept] at hmoved
      exact h.fresh link hmem (mem_filter.mp hmoved).1
    have hmoves : ∀ link ∈ back, link ∈ redirected := by
      intro link hlink
      by_contra hnot
      have hmoved : follow redirected next link ∈ redirected.map next :=
        hback ▸ mem_map_of_mem hlink
      rw [follow, if_neg hnot] at hmoved
      obtain ⟨other, hother, rfl⟩ := mem_map.mp hmoved
      exact h.fresh other hother (mem_append_right _ hlink)
    have hback' : back.map next = redirected.map next := by
      rw [← hback]
      exact map_congr_left fun link hlink => (if_pos (hmoves link hlink)).symm
    have hsame : back = redirected := by
      refine ext_getElem (by simpa using congrArg List.length hback') fun index hlt hlt' => ?_
      refine h.injective _ (hmoves _ (getElem_mem hlt)) _ (getElem_mem hlt') ?_
      simpa [hlt, hlt'] using congrArg (·[index]?) hback'
    exact ⟨front, by rw [hsame]⟩
  · rintro ⟨front, rfl⟩
    obtain ⟨-, -, hdisjoint⟩ := nodup_append.mp h.nodup
    have hstays : ∀ link ∈ front, link ∉ redirected := fun link hlink hmem =>
      hdisjoint link hlink link hmem rfl
    have hkept : (front ++ redirected).filter (· ∉ redirected) = front := by
      rw [filter_append, filter_eq_self.mpr (by simpa using hstays),
        filter_eq_nil_iff.mpr (by simp), append_nil]
    rw [h.eq, hkept, map_append, map_follow_redirected, map_follow_of_forall hstays]

end Requeued

/-! ### Incoming edges of a graph -/

namespace Graph

variable {α : Type} {g : Graph α} {p source last : NodeId} {links : List Link} {link : Link}
  {label : Label} {chain : List α}

/-- The links from another node, in the order in which it lists them. -/
def entering (links : List Link) (source p : NodeId) : List Link :=
  (links.filter (·.1 == p)).map fun link => (source, link.2)

/-- The links that enter a node. -/
theorem mem_entering : link ∈ entering links source p ↔ link.1 = source ∧ (p, link.2) ∈ links := by
  simp only [entering, mem_map, mem_filter, beq_iff_eq]
  constructor
  · rintro ⟨other, ⟨hother, rfl⟩, rfl⟩
    exact ⟨rfl, hother⟩
  · rintro ⟨rfl, hlink⟩
    exact ⟨(p, link.2), ⟨hlink, rfl⟩, rfl⟩

/-- Entering links are listed once. -/
theorem nodup_entering (h : links.Nodup) : (entering links source p).Nodup := by
  refine List.Nodup.map_on (fun link hlink other hother heq => ?_) (h.filter _)
  have hfirst : link.1 = p := by simpa using (mem_filter.mp hlink).2
  have hsecond : other.1 = p := by simpa using (mem_filter.mp hother).2
  exact Prod.ext (hfirst.trans hsecond.symm) (Prod.mk.inj heq).2

/-- Entering links, one by one. -/
theorem entering_cons (link : Link) (links : List Link) : entering (link :: links) source p =
    if link.1 = p then (source, link.2) :: entering links source p else entering links
      source p := by
  by_cases hlink : link.1 = p <;> simp [entering, hlink]

/-- Entering links from a new source. -/
theorem map_entering (links : List Link) (source last p : NodeId) :
    (entering links source p).map (fun link => (last, link.2)) = entering links last p := by
  simp [entering]

/-- Links to other nodes do not matter. -/
theorem entering_filter_ne {id : NodeId} (hne : id ≠ p) (links : List Link) :
    entering (links.filter (·.1 != id)) source p = entering links source p := by
  rw [entering, entering, filter_filter]
  congr 1
  refine filter_congr fun link _ => ?_
  by_cases hlink : link.1 = p <;> simp [hlink, Ne.symm hne]

/-- Links from the same node are told apart by their labels. -/
theorem eq_of_mem_entering {other : Link} (hlink : link ∈ entering links source p)
    (hother : other ∈ entering links source p) (heq : (last, link.2) = (last, other.2)) :
    link = other :=
  Prod.ext ((mem_entering.mp hlink).1.trans (mem_entering.mp hother).1.symm) (Prod.mk.inj heq).2

/-- Entering links, seen from the target. -/
theorem Sound.mem_entering_outgoing (hg : g.Sound) :
    link ∈ entering (g.outgoing source) source p ↔ link ∈ g.incoming p ∧ link.1 = source := by
  rw [mem_entering, and_comm]
  refine and_congr_left fun hsource => ?_
  rw [hg.mirrored, ← hsource]

/-- Edges are listed at their target. -/
theorem Sound.hasEdge_iff_incoming (hg : g.Sound) :
    g.hasEdge ⟨source, p, label⟩ = true ↔ (source, label) ∈ g.incoming p :=
  hasEdge_iff.trans hg.mirrored

/-- A new edge comes last among those that enter its target. -/
theorem Sound.incoming_addEdge_last (hg : g.Sound) (hp : g.contains p)
    (hnew : (source, label) ∉ g.incoming p) :
    (g.addEdge ⟨source, p, label⟩).incoming p = g.incoming p ++ [(source, label)] := by
  have hedge : g.hasEdge ⟨source, p, label⟩ = false :=
    Bool.eq_false_iff.mpr fun hold => hnew (hg.hasEdge_iff_incoming.mp hold)
  rw [incoming_addEdge g _ p hedge, if_pos ⟨rfl, hp⟩]

/-- Redirecting elsewhere. -/
theorem incoming_redirect_of_ne {old new : Edge} (hold : old.target ≠ p) (hnew : new.target ≠ p) :
    (g.redirect old new).incoming p = g.incoming p := by
  rw [redirect, incoming_addEdge_of_ne hnew, incoming_eraseEdge, if_neg hold]

/-- Erasing filters the links in. -/
theorem Sound.incoming_eraseEdge_self (hg : g.Sound) (label : Label) :
    (g.eraseEdge ⟨source, p, label⟩).incoming p = (g.incoming p).filter (· ≠ (source, label)) := by
  rw [incoming_eraseEdge, if_pos rfl, (hg.incoming_nodup p).erase_eq_filter]
  exact filter_congr fun link _ => by simp [bne, beq_eq_decide]

section

variable (hg : g.Sound) (hp : g.contains p)
include hg hp

/-- An edge that gets another source goes to the end. -/
theorem Sound.incoming_redirect (hnew : (last, label) ∉ g.incoming p) :
    (g.redirect ⟨source, p, label⟩ ⟨last, p, label⟩).incoming p =
      (g.incoming p).filter (· ≠ (source, label)) ++ [(last, label)] := by
  have hkept : (g.eraseEdge ⟨source, p, label⟩).incoming p = _ := hg.incoming_eraseEdge_self label
  rw [redirect, (hg.eraseEdge _).incoming_addEdge_last (by simpa using hp), hkept]
  rw [hkept]
  exact fun hmem => hnew (mem_filter.mp hmem).1

variable (hlast : g.contains last) (hnodup : links.Nodup)
  (hlive : ∀ link ∈ links, g.contains link.1)
  (hnew : ∀ label, (p, label) ∈ links → (last, label) ∉ g.incoming p)
include hlast hnodup hlive hnew

/-- Edges that get another source go to the end in turn. -/
theorem Sound.incoming_foldl_redirect (hne : last ≠ source) :
    (links.foldl (fun g link => g.redirect ⟨source, link.1, link.2⟩ ⟨last, link.1, link.2⟩)
      g).incoming p =
      (g.incoming p).filter (· ∉ entering links source p) ++ entering links last p := by
  induction links generalizing g with
  | nil => simp [entering]
  | cons head rest ih =>
    obtain ⟨node, label⟩ := head
    obtain ⟨hfirst, hrest⟩ := nodup_cons.mp hnodup
    obtain ⟨hnode, hothers⟩ := forall_mem_cons.mp hlive
    have hstep : (g.redirect ⟨source, node, label⟩ ⟨last, node, label⟩).Sound :=
      ((Grown.refl hg).redirect hlast hnode).sound
    have hfold := ih hstep (by simpa using hp) (by simpa using hlast) hrest (by simpa using hothers)
    rw [foldl_cons]
    by_cases hentry : node = p
    · subst hentry
      have hqueued : (g.redirect ⟨source, node, label⟩ ⟨last, node, label⟩).incoming node =
          (g.incoming node).filter (· ≠ (source, label)) ++ [(last, label)] :=
        hg.incoming_redirect hp (hnew label mem_cons_self)
      have hbehind : (last, label) ∉ entering rest source node := fun hmem =>
        hne (mem_entering.mp hmem).1
      rw [hfold fun other hother => ?_, hqueued, entering_cons, if_pos rfl, entering_cons,
        if_pos rfl, filter_append, filter_filter, filter_singleton]
      · simp [hbehind, Bool.and_comm]
      · -- The label of a later edge to the same node is another one.
        have hother' : other ≠ label := fun heq => hfirst (heq ▸ hother)
        simp [hqueued, hother', hnew other (mem_cons_of_mem _ hother)]
    · have hsame : (g.redirect ⟨source, node, label⟩ ⟨last, node, label⟩).incoming p =
          g.incoming p :=
        incoming_redirect_of_ne hentry hentry
      rw [hsame] at hfold
      rw [hfold fun other hother => hnew other (mem_cons_of_mem _ hother), entering_cons,
        if_neg hentry, entering_cons, if_neg hentry]

/-- New edges from a node come last one after another. -/
theorem Sound.incoming_foldl_addEdge :
    (links.foldl (fun g link => g.addEdge ⟨last, link.1, link.2⟩) g).incoming p =
      g.incoming p ++ entering links last p := by
  induction links generalizing g with
  | nil => simp [entering]
  | cons head rest ih =>
    obtain ⟨node, label⟩ := head
    obtain ⟨hfirst, hrest⟩ := nodup_cons.mp hnodup
    obtain ⟨hnode, hothers⟩ := forall_mem_cons.mp hlive
    have hstep : (g.addEdge ⟨last, node, label⟩).Sound := hg.addEdge hlast hnode
    have hfold := ih hstep (by simpa using hp) (by simpa using hlast) hrest (by simpa using hothers)
    rw [foldl_cons]
    by_cases hentry : node = p
    · subst hentry
      have hqueued := hg.incoming_addEdge_last hp (hnew label mem_cons_self)
      rw [hfold fun other hother => ?_, hqueued, entering_cons, if_pos rfl, append_assoc,
        singleton_append]
      have hother' : other ≠ label := fun heq => hfirst (heq ▸ hother)
      simp [hqueued, hother', hnew other (mem_cons_of_mem _ hother)]
    · have hsame : (g.addEdge ⟨last, node, label⟩).incoming p = g.incoming p :=
        incoming_addEdge_of_ne hentry
      rw [hsame] at hfold
      rw [hfold fun other hother => hnew other (mem_cons_of_mem _ hother), entering_cons,
        if_neg hentry]

end

/-- A chain enters no old node. -/
theorem incoming_insertChain_of_lt (hp : p < g.nextId) :
    (g.insertChain chain).incoming p = g.incoming p := by
  rw [insertChain, incoming_joinRun_of_le (Nat.le_of_lt hp), incoming_foldl_insert]

/-- A chain keeps the old payloads. -/
theorem payload?_insertChain_of_lt (hp : p < g.nextId) :
    (g.insertChain chain).payload? p = g.payload? p := by
  rw [insertChain, payload?_joinRun, payload?_foldl_insert_of_lt chain hp]

/-- Redirecting edges to a new chain changes no node. -/
theorem payload?_redirects {before after : Link → Edge} {edge : Edge} (hp : g.contains p) :
    ((links.foldl (fun g link => g.redirect (before link) (after link))
      (g.insertChain chain)).addEdge edge).payload? p = g.payload? p := by
  rw [payload?_addEdge, foldl_keeps (f := (·.payload? p)) fun _ _ _ => payload?_redirect ..]
  exact payload?_insertChain_of_lt (lt_nextId_of_contains hp)

/-- No edge leads from a node that is not live yet. -/
theorem Sound.fresh_not_mem_incoming (hg : g.Sound) (hlast : g.nextId ≤ last) (label : Label) :
    (last, label) ∉ g.incoming p := fun hmem =>
  absurd (lt_nextId_of_contains (hg.contains_source hmem)) (Nat.not_lt.mpr hlast)

/-- Edges between two nodes are replaced by edges from a new one. -/
theorem Sound.requeued (hg : g.Sound) {new : List Link} {next : Link → Link} (hnodup : links.Nodup)
    (hlinks : ∀ link ∈ links, link ∈ g.outgoing source) (hnext : ∀ link, g.nextId ≤ (next link).1)
    (hinjective : ∀ link ∈ entering links source p, ∀ other ∈ entering links source p,
      next link = next other → link = other)
    (heq : new = (g.incoming p).filter (· ∉ entering links source p) ++
      (entering links source p).map next) :
    Requeued (g.incoming p) new (entering links source p) next where
  nodup := hg.incoming_nodup p
  nodup_redirected := nodup_entering hnodup
  mem link hlink := by
    obtain ⟨rfl, hmem⟩ := mem_entering.mp hlink
    exact hg.mirrored.mp (hlinks _ hmem)
  fresh link _ := hg.fresh_not_mem_incoming (hnext link) _
  injective := hinjective
  eq := heq

end Graph

/-! ### Splices -/

namespace FlowGraph

open Graph (entering)

variable {cfg cfg' : FlowGraph} {id p : NodeId} {chain : List Node}

/-- The ends of a chain are new. -/
theorem le_chainEnds (cfg : FlowGraph) (chain : List Node) :
    cfg.nextId ≤ (cfg.chainEnds chain).1 ∧ cfg.nextId ≤ (cfg.chainEnds chain).2 :=
  ⟨Nat.le_refl _, Nat.le_add_right ..⟩

section

variable (hp : cfg.contains p)
include hp

/-- Prepending keeps the old nodes. -/
theorem node?_prependChain_of_contains : (cfg.prependChain id chain).node? p = cfg.node? p := by
  rw [node?, toGraph_prependChain]
  exact payload?_redirects hp

/-- Postpending keeps the old nodes. -/
theorem node?_postpendChain_of_contains : (cfg.postpendChain id chain).node? p = cfg.node? p := by
  rw [node?, toGraph_postpendChain]
  exact payload?_redirects hp

/-- A chain in front of a node enters no other old node. -/
theorem incoming_prependChain_of_ne (hne : id ≠ p) :
    (cfg.prependChain id chain).incoming p = cfg.incoming p := by
  have hlt := lt_nextId_of_contains hp
  have hfirst : (cfg.chainEnds chain).1 ≠ p := Nat.ne_of_gt hlt
  rw [toGraph_prependChain, incoming_addEdge_of_ne hne,
    foldl_keeps (f := (·.incoming p)) fun _ _ _ => incoming_redirect_of_ne hne hfirst]
  exact incoming_insertChain_of_lt hlt

end

/-- Only edges of a spin to itself do not move. -/
theorem entering_movableOutgoing (hne : id ≠ p) (source : NodeId) :
    entering (cfg.movableOutgoing id) source p = entering (cfg.outgoing id) source p := by
  rw [movableOutgoing]
  split
  · exact entering_filter_ne hne _
  · rfl

/-- Links that move are listed once. -/
theorem Sound.nodup_movableOutgoing (h : cfg.Sound) (id : NodeId) :
    (cfg.movableOutgoing id).Nodup := by
  rw [movableOutgoing]
  split
  · exact (h.graph.outgoing_nodup id).filter _
  · exact h.graph.outgoing_nodup id

/-- A chain behind a node lets its edges to another come last. -/
theorem Sound.requeued_postpendChain (h : cfg.Sound) (hid : cfg.contains id)
    (hp : cfg.contains p) (hne : id ≠ p) (hchain : chain ≠ []) :
    Requeued (cfg.incoming p) ((cfg.postpendChain id chain).incoming p)
      (entering (cfg.outgoing id) id p) fun link => ((cfg.chainEnds chain).2, link.2) := by
  have hlt := lt_nextId_of_contains hp
  obtain ⟨hfirst, hlast⟩ := le_chainEnds cfg chain
  refine h.graph.requeued (h.graph.outgoing_nodup id) (fun _ hlink => hlink) (fun _ => hlast)
    (fun _ hlink _ hother => eq_of_mem_entering hlink hother) ?_
  have hinsert := Grown.insertChain h.graph chain
  have hincoming : (cfg.insertChain chain).incoming p = cfg.incoming p :=
    incoming_insertChain_of_lt hlt
  have hsource : (cfg.chainEnds chain).2 ≠ id :=
    Nat.ne_of_gt (Nat.lt_of_lt_of_le (lt_nextId_of_contains hid) hlast)
  have hfold := hinsert.sound.incoming_foldl_redirect (hinsert.live hp)
    (contains_chainEnds hchain).2 (h.nodup_movableOutgoing id)
    (fun link hlink => hinsert.live (h.contains_of_mem_movableOutgoing hlink))
    (fun label _ => by rw [hincoming]; exact h.graph.fresh_not_mem_incoming hlast label) hsource
  have hbefore : (cfg.chainEnds chain).1 ≠ p := Nat.ne_of_gt (Nat.lt_of_lt_of_le hlt hfirst)
  rw [toGraph_postpendChain, incoming_addEdge_of_ne hbefore, hfold, hincoming,
    map_entering, entering_movableOutgoing hne, entering_movableOutgoing hne]

/-- Where an edge with a chain in it entered, the chain enters last. -/
theorem Sound.incoming_splitEdge_self (h : cfg.Sound) {source : NodeId} {label : Label}
    (hedge : cfg.hasEdge ⟨source, p, label⟩ = true) (hp : cfg.contains p) (hchain : chain ≠ []) :
    (cfg.splitEdge ⟨source, p, label⟩ chain).incoming p =
      (cfg.incoming p).filter (· ≠ (source, label)) ++ [((cfg.chainEnds chain).2, none)] := by
  have hlt := lt_nextId_of_contains hp
  obtain ⟨hfirst, hlast⟩ := le_chainEnds cfg chain
  have hsource := contains_of_mem_outgoing (Graph.hasEdge_iff.mp hedge)
  have hinsert := Grown.insertChain h.graph chain
  have hmoved : Grown (cfg.insertChain chain) ((cfg.insertChain chain).redirect
      ⟨source, p, label⟩ ⟨source, (cfg.chainEnds chain).1, label⟩) :=
    (Grown.refl hinsert.sound).redirect (hinsert.live hsource) (contains_chainEnds hchain).1
  have hbefore : (cfg.chainEnds chain).1 ≠ p := Nat.ne_of_gt (Nat.lt_of_lt_of_le hlt hfirst)
  have hkept : ((cfg.insertChain chain).redirect ⟨source, p, label⟩
      ⟨source, (cfg.chainEnds chain).1, label⟩).incoming p =
        (cfg.incoming p).filter (· ≠ (source, label)) := by
    rw [Graph.redirect, incoming_addEdge_of_ne hbefore, hinsert.sound.incoming_eraseEdge_self,
      incoming_insertChain_of_lt hlt]
  have hnew : ((cfg.chainEnds chain).2, none) ∉ (cfg.incoming p).filter (· ≠ (source, label)) :=
    fun hmem => h.graph.fresh_not_mem_incoming hlast none (mem_filter.mp hmem).1
  rw [← hkept] at hnew
  rw [toGraph_splitEdge, hmoved.sound.incoming_addEdge_last (hmoved.live (hinsert.live hp)) hnew,
    hkept]

/-- A chain in an edge lets the edge come last. -/
theorem Sound.requeued_splitEdge (h : cfg.Sound) {edge : Edge} (hedge : cfg.hasEdge edge)
    (hp : cfg.contains p) (hchain : chain ≠ []) :
    Requeued (cfg.incoming p) ((cfg.splitEdge edge chain).incoming p)
      (entering [(edge.target, edge.label)] edge.source p) fun _ =>
        ((cfg.chainEnds chain).2, none) := by
  obtain ⟨source, target, label⟩ := edge
  have hlink := Graph.hasEdge_iff.mp hedge
  refine h.graph.requeued (nodup_singleton _) (by simpa using hlink)
    (fun _ => (le_chainEnds cfg chain).2) ?_ ?_
  · intro link hmem other hmem' _
    simp only [mem_entering, mem_singleton, Prod.mk.injEq] at hmem hmem'
    exact Prod.ext (hmem.1.trans hmem'.1.symm) (hmem.2.2.trans hmem'.2.2.symm)
  by_cases htarget : target = p
  · subst htarget
    rw [h.incoming_splitEdge_self hedge hp hchain]
    simp [entering]
  · rw [incoming_splitEdge_of_ne hp (Ne.symm htarget), entering_cons, if_neg htarget]
    simp [entering]

/-- Replacing keeps the other nodes. -/
theorem node?_substitute_of_contains {node : Node} (hp : cfg.contains p) (hne : id ≠ p) :
    (cfg.substitute id node).node? p = cfg.node? p := by
  have hlt := lt_nextId_of_contains hp
  rw [node?, toGraph_substitute, payload?_erase, if_neg hne,
    foldl_keeps (f := (·.payload? p)) fun _ _ _ => payload?_addEdge ..,
    foldl_keeps (f := (·.payload? p)) fun _ _ _ => payload?_addEdge ..,
    payload?_insert, if_neg (Nat.ne_of_lt hlt)]
  rfl

/-- Replacing a node lets the edges from there come last. -/
theorem Sound.requeued_substitute (h : cfg.Sound) (node : Node) (hid : cfg.contains id)
    (hp : cfg.contains p) (hne : id ≠ p) :
    Requeued (cfg.incoming p) ((cfg.substitute id node).incoming p)
      (entering (cfg.outgoing id) id p) fun link => (cfg.nextId, link.2) := by
  have hlt := lt_nextId_of_contains hp
  refine h.graph.requeued (h.graph.outgoing_nodup id) (fun _ hlink => hlink)
    (fun _ => Nat.le_refl _) (fun _ hlink _ hother => eq_of_mem_entering hlink hother) ?_
  have hinsert := h.grown_insert node
  have hentered := h.grown_takeIncoming id node
  have hincoming : (cfg.takeIncoming id node).incoming p = cfg.incoming p := by
    rw [foldl_keeps (f := (·.incoming p)) fun _ _ _ =>
      incoming_addEdge_of_ne (Nat.ne_of_gt hlt), Graph.incoming_insert]
  have hnew := cfg.contains_insert_self node
  have hjoined := hentered.sound.incoming_foldl_addEdge (hentered.live (hinsert.live hp))
    (hentered.live hnew) ((h.graph.outgoing_nodup id).filter (·.1 != id))
    (fun link hlink => hentered.live (hinsert.live
      (h.graph.contains_target (mem_filter.mp hlink).1)))
    (fun label _ => by rw [hincoming]; exact h.graph.fresh_not_mem_incoming (Nat.le_refl _) label)
  rw [toGraph_substitute, incoming_erase, if_neg hne, hjoined, hincoming, filter_append,
    entering_filter_ne hne, map_entering]
  -- The edges from the old node go with it, and those from the new one stay.
  congr 1
  · refine filter_congr fun link hlink => ?_
    by_cases hsource : link.1 = id <;> simp [h.graph.mem_entering_outgoing, hlink, hsource]
  · refine filter_eq_self.mpr fun link hlink => ?_
    have hsource : link.1 = cfg.nextId := (mem_entering.mp hlink).1
    simp [hsource, Nat.ne_of_gt (lt_nextId_of_contains hid)]

end FlowGraph

end Flowgraph

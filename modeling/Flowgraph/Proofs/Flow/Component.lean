import Flowgraph.Flow.Component
import Flowgraph.Proofs.Flow.Sound
import Flowgraph.Proofs.Graph.Postorder

/-!
# Strongly connected components

The components of a sound flow graph are its classes of mutually reachable nodes
(`FlowGraph.Sound.mem_nodesOf_iff`). The root of a second search comes last in postorder among the
nodes not entered yet, so it leads back to all that its search enters
(`FlowGraph.Sound.exists_last`).
-/

namespace Flowgraph

open List

namespace Graph.Reaches

variable {α : Type} {g : Graph α} {source target : NodeId}

/-- A node from which a way leads to a live node is live. -/
theorem contains_source (h : g.Reaches source target) (htarget : g.contains target) :
    g.contains source := by
  rcases Relation.ReflTransGen.cases_head h with heq | ⟨next, hnext, -⟩
  · rwa [heq]
  · obtain ⟨label, hlabel⟩ := mem_successors.mp hnext
    exact contains_of_mem_outgoing hlabel

/-- A set closed under predecessors holds all that leads into it. -/
theorem closed_source (h : g.Reaches source target) {S : NodeId → Prop} (htarget : S target)
    (hclosed : ∀ id next, next ∈ g.successors id → S next → S id) : S source := by
  induction h using Relation.ReflTransGen.head_induction_on with
  | refl => exact htarget
  | head hfirst _ ih => exact hclosed _ _ hfirst ih

end Graph.Reaches

namespace FlowGraph

variable {cfg : FlowGraph} {x y : NodeId} {nodes : List NodeId} {k : Nat}
  {members : List (List NodeId)} {id : NodeId}

/-- Each of two nodes can be reached from the other. -/
def Mutual (cfg : FlowGraph) (x y : NodeId) : Prop :=
  cfg.Reaches x y ∧ cfg.Reaches y x

/-- Mutual reachability is symmetric. -/
theorem Mutual.symm (h : cfg.Mutual x y) : cfg.Mutual y x :=
  ⟨h.2, h.1⟩

/-- Mutual reachability is transitive. -/
theorem Mutual.trans {z : NodeId} (h : cfg.Mutual x y) (h' : cfg.Mutual y z) : cfg.Mutual x z :=
  ⟨h.1.trans h'.1, h'.2.trans h.2⟩

/-! ### Postorder -/

/-- Paths among some nodes are paths. -/
theorem reaches_of_within (h : Within cfg.successors nodes x y) : cfg.Reaches x y :=
  Relation.ReflTransGen.mono (fun _ _ hstep => hstep.1) _ _ h

namespace Sound

/-- The postorder is that of a walk. -/
theorem leaves_postorder (h : cfg.Sound) : ∃ after,
    Walk.Leaves cfg.successors {} (cfg.unreached ++ [cfg.start]) cfg.postorder.reverse after := by
  have hroots : ∀ id ∈ cfg.unreached ++ [cfg.start], id ∈ cfg.nodes := by
    intro id hid
    rcases mem_append.mp hid with hid | hid
    · exact Graph.mem_nodes.mpr (h.mem_unreached.mp hid).1
    · exact Graph.mem_nodes.mpr (mem_singleton.mp hid ▸ h.start)
  obtain ⟨new, hnew⟩ := Walk.leaves_foldl (Walk.visitRoot cfg.successors cfg.slots.size)
    (fun hmem hsmall => Walk.leaves_visit h.successors_live hmem hsmall) hroots
    (Walk.length_unentered_le_size {} _)
  have hpostorder : cfg.postorder.reverse = new := by
    rw [postorder, Walk.postorder, reverse_reverse, Graph.depthFirst, hnew.finished]
    exact append_nil new
  exact ⟨_, hpostorder ▸ hnew⟩

/-- The postorder lists nodes once. -/
theorem nodup_postorder (h : cfg.Sound) : cfg.postorder.Nodup := by
  obtain ⟨after, hleaves⟩ := h.leaves_postorder
  exact nodup_reverse.mp hleaves.nodup

/-- Exactly the live nodes are left. -/
theorem mem_postorder (h : cfg.Sound) : id ∈ cfg.postorder ↔ cfg.contains id := by
  obtain ⟨after, hleaves⟩ := h.leaves_postorder
  have hentered : ∀ {id}, after.number.contains id ↔ id ∈ cfg.postorder := by
    intro id
    rw [hleaves.entered, mem_reverse]
    simp
  constructor
  · intro hid
    obtain ⟨root, hroot, -, hway⟩ := hleaves.reached id (mem_reverse.mpr hid)
    refine (reaches_of_within hway).contains h.graph ?_
    rcases mem_append.mp hroot with hroot | hroot
    · exact (h.mem_unreached.mp hroot).1
    · exact mem_singleton.mp hroot ▸ h.start
  · intro hid
    by_cases hreach : cfg.Reaches cfg.start id
    · have hstart := hentered.mp (hleaves.started cfg.start (by simp))
      refine hreach.closed (S := (· ∈ cfg.postorder)) hstart fun other hother next hnext => ?_
      exact hentered.mp (hleaves.closed other (mem_reverse.mpr hother) next hnext)
    · exact hentered.mp (hleaves.started id (by simp [h.mem_unreached, hid, hreach]))

/-- If a way leads from `x` to `y`, some node mutual with `x` is left no earlier than `y`. -/
theorem exists_last (h : cfg.Sound) (hy : cfg.contains y) (hway : cfg.Reaches x y) :
    ∃ front z back, cfg.postorder.reverse = front ++ z :: back ∧ y ∈ z :: back ∧
      cfg.Mutual x z := by
  obtain ⟨after, hleaves⟩ := h.leaves_postorder
  have hmem : ∀ {id}, cfg.contains id → id ∈ cfg.postorder.reverse :=
    fun hid => mem_reverse.mpr (h.mem_postorder.mpr hid)
  have hinside : Within cfg.successors cfg.postorder.reverse x y := by
    refine Relation.ReflTransGen.mono (fun a b hstep => ?_) _ _ hway
    exact ⟨hstep, hmem (h.graph.contains_successor hstep)⟩
  obtain ⟨front, z, back, hsplit, hz, hto, hfrom⟩ :=
    hleaves.ordered x (hmem (hway.contains_source hy)) y (hmem hy) hinside
  exact ⟨front, z, back, hsplit, hz, reaches_of_within hto, reaches_of_within hfrom⟩

end Sound

/-! ### The second search -/

/-- The second search between two roots: the nodes entered are closed under predecessors and make up
whole classes. No edge leads from the class found last, which comes first, into one found before. -/
structure Gathered (cfg : FlowGraph) (walk : Walk) (found : List (List NodeId)) : Prop where
  sane : Walk.Sane cfg.predecessors walk
  closed : ∀ source target, target ∈ cfg.successors source → walk.number.contains target →
    walk.number.contains source
  entered : ∀ {id}, walk.number.contains id ↔ ∃ nodes ∈ found, id ∈ nodes
  mutual_iff : ∀ nodes ∈ found, ∀ x ∈ nodes, ∀ y, y ∈ nodes ↔ cfg.Mutual x y
  disjoint : found.Pairwise List.Disjoint
  inhabited : ∀ nodes ∈ found, nodes ≠ []
  sublist : ∀ nodes ∈ found, nodes.Sublist cfg.postorder.reverse
  forward : found.Pairwise fun later earlier =>
    ∀ source ∈ later, ∀ target ∈ cfg.successors source, target ∉ earlier

/-- Before the first component. -/
theorem Gathered.nil : Gathered cfg {} [] where
  sane := .empty
  closed := by simp
  entered := by simp
  mutual_iff := by simp
  disjoint := .nil
  inhabited := by simp
  sublist := by simp
  forward := .nil

/-- Below a vertex of the second search are nodes that lead to it. -/
theorem reaches_of_ancestor (h : cfg.Sound) {walk : Walk} (hsane : Walk.Sane cfg.predecessors walk)
    {a : Nat} (hk : k < walk.entered.size) (hbelow : Ancestor walk.parent a k) :
    cfg.Reaches (walk.node k) (walk.node a) := by
  induction hbelow with
  | refl => exact .refl _
  | @step v _ ih =>
    have hparent := ih (Nat.lt_of_le_of_lt (hsane.parent_le v) hk)
    by_cases hroot : walk.parent v = v
    · rwa [hroot] at hparent
    · have hedge := h.graph.mem_predecessors_iff.mp (hsane.parent_edge hk hroot)
      exact Relation.ReflTransGen.head hedge hparent

section Root

variable {walk : Walk} {found : List (List NodeId)} {root : NodeId} {done rest : List NodeId}

/-- A new root keeps the nodes entered closed under predecessors, and adds those that lead to it. -/
theorem Gathered.visitRoot (h : cfg.Sound) (hgathered : Gathered cfg walk found)
    (hroot : cfg.contains root) (hnew : walk.number.contains root = false) :
    let next := Walk.visitRoot cfg.predecessors cfg.slots.size walk root
    Walk.Sane cfg.predecessors next ∧
      (∀ source target, target ∈ cfg.successors source → next.number.contains target →
        next.number.contains source) ∧
      ∀ id, next.number.contains id ↔ walk.number.contains id ∨ cfg.Reaches id root := by
  intro next
  have hnodes : ∀ id ∈ cfg.nodes, ∀ other ∈ cfg.predecessors id, other ∈ cfg.nodes := by
    intro id _ other hother
    obtain ⟨label, hlabel⟩ := Graph.mem_predecessors.mp hother
    exact Graph.mem_nodes.mpr (h.graph.contains_source hlabel)
  have hvisit := Walk.visit_spec hnodes hgathered.sane (Graph.mem_nodes.mpr hroot)
    (walk.length_unentered_le_size _) (.inl rfl)
  have hsearched : Walk.Searched cfg.predecessors walk walk.entered.size [root] next := hvisit.1
  have hrootNumber : next.number[root]? = some walk.entered.size := hvisit.2 hnew
  -- a node entered by this search has a number from that of the root on
  have hlarge : ∀ {id k}, next.number[id]? = some k → walk.number.contains id = false →
      walk.entered.size ≤ k := by
    intro id k hk hfresh
    by_contra hsmall
    have hold := hgathered.sane.number_node (Nat.lt_of_not_le hsmall)
    rw [← hsearched.extend.node_eq (Nat.lt_of_not_le hsmall),
      hsearched.sane.node_of_number hk] at hold
    rw [Walk.number_eq_none.mp hfresh] at hold
    cases hold
  have hclosed : ∀ source target, target ∈ cfg.successors source →
      next.number.contains target → next.number.contains source := by
    intro source target hedge htarget
    by_cases hold : walk.number.contains target
    · exact hsearched.extend.contains (hgathered.closed source target hedge hold)
    · obtain ⟨k, hk⟩ := Walk.contains_number.mp htarget
      have hexplored := hsearched.explored (hlarge hk ((Bool.not_eq_true _).mp hold))
        (hsearched.sane.lt_of_number hk)
      have hpred : source ∈ cfg.predecessors (next.node k) := by
        rw [hsearched.sane.node_of_number hk]
        exact h.graph.mem_predecessors_iff.mpr hedge
      obtain ⟨j, hj, -⟩ := hexplored source hpred
      exact Walk.contains_number.mpr ⟨j, hj⟩
  refine ⟨hsearched.sane, hclosed, fun id => ⟨fun hid => ?_, fun hid => ?_⟩⟩
  · by_cases hold : walk.number.contains id
    · exact .inl hold
    · obtain ⟨k, hk⟩ := Walk.contains_number.mp hid
      have hlt := hsearched.sane.lt_of_number hk
      have hbelow := hsearched.below (hlarge hk ((Bool.not_eq_true _).mp hold)) hlt
      have hway := reaches_of_ancestor h hsearched.sane hlt hbelow
      rw [hsearched.sane.node_of_number hk, hsearched.sane.node_of_number hrootNumber] at hway
      exact .inr hway
  · rcases hid with hold | hway
    · exact hsearched.extend.contains hold
    · exact hway.closed_source (S := fun id => next.number.contains id)
        (hsearched.entered root (by simp)) hclosed

/-- A node before another in a list without repetitions. -/
theorem mem_front_of_mem_back {front back : List NodeId} {z : NodeId}
    (hsplit : front ++ z :: back = done ++ root :: rest) (hnodup : (done ++ root :: rest).Nodup)
    (hback : root ∈ back) : z ∈ done := by
  rcases append_eq_append_iff.mp hsplit with ⟨extra, hdone, hextra⟩ | ⟨extra, hfront, hextra⟩
  · cases extra with
    | nil =>
      cases hextra
      rw [← hsplit] at hnodup
      exact absurd hback (nodup_cons.mp (nodup_append.mp hnodup).2.1).1
    | cons first extra =>
      cases hextra
      simp [hdone]
  · have hnotin := (nodup_cons.mp (nodup_append.mp hnodup).2.1).1
    cases extra with
    | nil =>
      cases hextra
      exact absurd hback hnotin
    | cons first extra =>
      cases hextra
      exact absurd (by simp [hback]) hnotin

section

variable (h : cfg.Sound) (hgathered : Gathered cfg walk found)
  (horder : cfg.postorder.reverse = done ++ root :: rest)
  (hdone : ∀ id ∈ done, walk.number.contains id) (hnew : walk.number.contains root = false)
include h hgathered horder hdone hnew

/-- A search from a root finds the nodes mutual with it. -/
theorem Gathered.mutual_root :
    walk.number.contains x = false ∧ cfg.Reaches x root ↔ cfg.Mutual root x := by
  have hroot : cfg.contains root := by
    rw [← h.mem_postorder, ← mem_reverse, horder]
    simp
  have hout : ∀ {a b}, walk.number.contains a = false → cfg.Reaches a b →
      walk.number.contains b = false := by
    intro a b ha hway
    by_contra hb
    have hentered := hway.closed_source (S := fun id => walk.number.contains id)
      ((Bool.not_eq_false _).mp hb) hgathered.closed
    rw [ha] at hentered
    cases hentered
  constructor
  · intro ⟨hx, hway⟩
    obtain ⟨front, z, back, hsplit, hz, hmutual⟩ := h.exists_last hroot hway
    rcases mem_cons.mp hz with heq | hback
    · rw [heq]
      exact hmutual.symm
    · have hnodup : (done ++ root :: rest).Nodup :=
        horder ▸ nodup_reverse.mpr h.nodup_postorder
      have hentered := hdone z (mem_front_of_mem_back (hsplit.symm.trans horder) hnodup hback)
      rw [hout hx hmutual.1] at hentered
      cases hentered
  · exact fun hmutual => ⟨hout hnew hmutual.1, hmutual.2⟩

/-- One more component is gathered. -/
theorem Gathered.cons : let next := Walk.visitRoot cfg.predecessors cfg.slots.size walk root
    Gathered cfg next ((cfg.postorder.reverse.filter fun id =>
      next.number.contains id && !walk.number.contains id) :: found) := by
  intro next
  have hroot : cfg.contains root := by
    rw [← h.mem_postorder, ← mem_reverse, horder]
    simp
  obtain ⟨hsane, hclosed, hentered⟩ := hgathered.visitRoot h hroot hnew
  have hmem : ∀ {id}, id ∈ (cfg.postorder.reverse.filter fun id =>
      next.number.contains id && !walk.number.contains id) ↔ cfg.Mutual root id := by
    intro id
    rw [← hgathered.mutual_root h horder hdone hnew]
    simp only [mem_filter, mem_reverse, h.mem_postorder, Bool.and_eq_true,
      Bool.not_eq_true']
    constructor
    · intro ⟨_, hnext, hfresh⟩
      refine ⟨hfresh, ((hentered id).mp hnext).resolve_left ?_⟩
      simp [hfresh]
    · intro ⟨hfresh, hway⟩
      exact ⟨hway.contains_source hroot, (hentered id).mpr (.inr hway), hfresh⟩
  have hfresh : ∀ {id}, cfg.Mutual root id → walk.number.contains id = false :=
    fun hid => ((hgathered.mutual_root h horder hdone hnew).mpr hid).1
  refine ⟨hsane, hclosed, ?_, ?_, ?_, ?_, ?_, ?_⟩
  · intro id
    rw [hentered, hgathered.entered, exists_mem_cons_iff, hmem,
      ← hgathered.mutual_root h horder hdone hnew]
    constructor
    · intro hid
      rcases hid with hold | hway
      · exact .inr hold
      · by_cases hfresh : walk.number.contains id = false
        · exact .inl ⟨hfresh, hway⟩
        · exact .inr (hgathered.entered.mp ((Bool.not_eq_false _).mp hfresh))
    · intro hid
      rcases hid with hnewly | hold
      · exact .inr hnewly.2
      · exact .inl hold
  · intro nodes hnodes x hx y
    rcases mem_cons.mp hnodes with heq | hnodes
    · subst heq
      rw [hmem] at hx ⊢
      exact ⟨fun hy => hx.symm.trans hy, fun hxy => hx.trans hxy⟩
    · exact hgathered.mutual_iff nodes hnodes x hx y
  · refine pairwise_cons.mpr ⟨fun nodes hnodes id hid hold => ?_, hgathered.disjoint⟩
    have hnone := hfresh (hmem.mp hid)
    rw [hgathered.entered.mpr ⟨nodes, hnodes, hold⟩] at hnone
    cases hnone
  · refine forall_mem_cons.mpr ⟨?_, hgathered.inhabited⟩
    exact ne_nil_of_mem (hmem.mpr ⟨.refl root, .refl root⟩)
  · exact forall_mem_cons.mpr ⟨filter_sublist, hgathered.sublist⟩
  · -- what was entered before is closed under predecessors, so that no new node leads there
    refine pairwise_cons.mpr ⟨fun nodes hnodes source hsource target hedge hold => ?_,
      hgathered.forward⟩
    have hbefore := hgathered.closed source target hedge
      (hgathered.entered.mpr ⟨nodes, hnodes, hold⟩)
    rw [hfresh (hmem.mp hsource)] at hbefore
    cases hbefore

end

/-- The lists that the second search finds hold all live nodes. -/
theorem gather_spec (h : cfg.Sound) {roots : List NodeId}
    (horder : cfg.postorder.reverse = done ++ roots)
    (hdone : ∀ id ∈ done, walk.number.contains id) (hgathered : Gathered cfg walk found) :
    ∃ after, Gathered cfg after (cfg.gather cfg.postorder.reverse roots walk found).reverse ∧
      ∀ id, cfg.contains id → after.number.contains id := by
  induction roots generalizing done walk found with
  | nil =>
    rw [gather, reverse_reverse]
    refine ⟨walk, hgathered, fun id hid => hdone id ?_⟩
    rw [append_nil] at horder
    rw [← horder, mem_reverse, h.mem_postorder]
    exact hid
  | cons root rest ih =>
    have horder' : cfg.postorder.reverse = (done ++ [root]) ++ rest := by
      rw [horder, append_assoc, singleton_append]
    rw [gather]
    split
    · next hentered =>
      refine ih horder' (fun id hid => ?_) hgathered
      rcases mem_append.mp hid with hid | hid
      · exact hdone id hid
      · rwa [mem_singleton.mp hid]
    · next hnew =>
      have hfresh : walk.number.contains root = false := (Bool.not_eq_true _).mp hnew
      have hcons := hgathered.cons h horder hdone hfresh
      have hroot : cfg.contains root := by
        rw [← h.mem_postorder, ← mem_reverse, horder]
        simp
      obtain ⟨-, -, hentered⟩ := hgathered.visitRoot h hroot hfresh
      refine ih horder' (fun id hid => ?_) hcons
      rcases mem_append.mp hid with hid | hid
      · exact (hentered id).mpr (.inl (hdone id hid))
      · exact (hentered id).mpr (.inr (mem_singleton.mp hid ▸ .refl _))

end Root

/-! ### Numbers of components -/

/-- All nodes of a list get one index. -/
theorem getElem?_foldl_insert (nodes : List NodeId) (index : Nat) (indices : NodeMap Nat)
    (id : NodeId) :
    (nodes.foldl (fun indices id => indices.insert id index) indices)[id]? =
      if id ∈ nodes then some index else indices[id]? := by
  induction nodes generalizing indices with
  | nil => simp
  | cons first rest ih =>
    rw [foldl_cons, ih, Std.ExtTreeMap.getElem?_insert]
    by_cases hrest : id ∈ rest
    · simp [hrest]
    · by_cases hfirst : first = id
      · simp [hfirst]
      · simp [hrest, hfirst, Ne.symm hfirst]

/-- Nodes outside keep their index. -/
theorem getElem?_indexMembers_of_not_mem (hid : ∀ nodes ∈ members, id ∉ nodes) (index : Nat)
    (indices : NodeMap Nat) : (indexMembers index members indices)[id]? = indices[id]? := by
  induction members generalizing index indices with
  | nil => rfl
  | cons nodes rest ih =>
    obtain ⟨hnodes, hrest⟩ := forall_mem_cons.mp hid
    rw [indexMembers, ih hrest, getElem?_foldl_insert, if_neg hnodes]

/-- A node gets the number of the list that holds it. -/
theorem getElem?_indexMembers (hdisjoint : members.Pairwise List.Disjoint)
    (hnodes : members[k]? = some nodes) (hid : id ∈ nodes) (index : Nat) (indices : NodeMap Nat) :
    (indexMembers index members indices)[id]? = some (index + k) := by
  induction members generalizing index indices k with
  | nil => simp at hnodes
  | cons first rest ih =>
    obtain ⟨hfirst, hrest⟩ := pairwise_cons.mp hdisjoint
    rw [indexMembers]
    cases k with
    | zero =>
      obtain rfl : first = nodes := by simpa using hnodes
      rw [getElem?_indexMembers_of_not_mem fun other hother hmem => hfirst other hother hid hmem,
        getElem?_foldl_insert, if_pos hid, Nat.add_zero]
    | succ k =>
      rw [ih hrest (by simpa using hnodes), Nat.add_right_comm, Nat.add_assoc]

/-- The nodes at an index. -/
theorem nodesOf_eq (hk : cfg.components.members[k]? = some nodes) :
    cfg.components.nodesOf k = nodes := by
  rw [Components.nodesOf, Array.getD_eq_getD_getElem?, hk, Option.getD_some]

namespace Sound

/-- The lists of nodes of all components, the last one first. -/
theorem gathered_components (h : cfg.Sound) :
    ∃ after, Gathered cfg after cfg.components.members.toList.reverse ∧
      ∀ id, cfg.contains id → after.number.contains id := by
  have horder : cfg.postorder.reverse = [] ++ cfg.postorder.reverse := rfl
  exact gather_spec h horder (by simp) Gathered.nil

/-- The number of a node is the position of the list that holds it. -/
theorem indexOf_eq (h : cfg.Sound) (hk : cfg.components.members[k]? = some nodes)
    (hid : id ∈ nodes) : cfg.components.indexOf id = k := by
  obtain ⟨after, hgathered, -⟩ := h.gathered_components
  have hdisjoint : cfg.components.members.toList.Pairwise List.Disjoint :=
    (pairwise_reverse.mp hgathered.disjoint).imp disjoint_symm
  show (indexMembers 0 cfg.components.members.toList ∅).getD id 0 = k
  rw [Std.ExtTreeMap.getD_eq_getD_getElem?,
    getElem?_indexMembers hdisjoint (by rwa [Array.getElem?_toList]) hid, Option.getD_some,
    Nat.zero_add]

/-- A live node is in the list with its number. -/
theorem exists_members (h : cfg.Sound) (hid : cfg.contains id) :
    ∃ nodes, cfg.components.members[cfg.components.indexOf id]? = some nodes ∧ id ∈ nodes := by
  obtain ⟨after, hgathered, hall⟩ := h.gathered_components
  obtain ⟨nodes, hnodes, hmem⟩ := hgathered.entered.mp (hall id hid)
  obtain ⟨k, hk⟩ := getElem?_of_mem (mem_reverse.mp hnodes)
  rw [Array.getElem?_toList] at hk
  exact ⟨nodes, by rw [h.indexOf_eq hk hmem, hk], hmem⟩

/-- The component of a live node holds the nodes mutual with it. -/
theorem mem_nodesOf_iff (h : cfg.Sound) {other : NodeId} (hid : cfg.contains id) :
    other ∈ cfg.components.nodesOf (cfg.components.indexOf id) ↔ cfg.Mutual id other := by
  obtain ⟨after, hgathered, -⟩ := h.gathered_components
  obtain ⟨nodes, hk, hmem⟩ := h.exists_members hid
  have hfound : nodes ∈ cfg.components.members.toList.reverse :=
    mem_reverse.mpr (mem_of_getElem? (by rwa [Array.getElem?_toList]))
  rw [nodesOf_eq hk]
  exact hgathered.mutual_iff nodes hfound id hmem other

end Sound

end FlowGraph

end Flowgraph

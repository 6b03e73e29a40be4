import Flowgraph.Proofs.Graph.Sound
import Mathlib.Data.List.Perm.Subperm

/-!
# Reachable nodes

Breadth-first search lists exactly the nodes that can be reached, each once (`mem_breadthFirst`,
`nodup_breadthFirst`): what was discovered can be reached, a discovered node that left the queue has
only discovered successors, and a round is left for every node that may still be queued.

The search with a stack collects the same nodes (`mem_reachableFrom`). It has a round left for every
place of the stack and for every edge of a node that was not followed yet.
-/

namespace Flowgraph

open List

namespace NodeSet

variable {set : NodeSet} {id other : NodeId}

/-- Membership after an insertion. -/
theorem mem_insert_iff : other ∈ set.insert id ↔ other = id ∨ other ∈ set := by
  rw [Std.ExtTreeSet.mem_insert, Std.LawfulEqCmp.compare_eq_iff_eq, eq_comm]

/-- The test for a missing node. -/
theorem not_contains_iff : (!set.contains id) ↔ id ∉ set := by
  rw [Bool.not_eq_true', ← Bool.not_eq_true, Std.ExtTreeSet.contains_iff_mem]

end NodeSet

namespace Graph

variable {α : Type} {g : Graph α} {start id : NodeId} {rounds : Nat} {seen : NodeSet}

/-- Some way leads from one node to another. -/
def Reaches (g : Graph α) : NodeId → NodeId → Prop :=
  Relation.ReflTransGen fun source target => target ∈ g.successors source

namespace Reaches

variable {first middle last : NodeId}

/-- Nodes reach themselves. -/
theorem refl (id : NodeId) : g.Reaches id id :=
  Relation.ReflTransGen.refl

/-- Paths go on along an edge. -/
theorem tail (h : g.Reaches first middle) (hlast : last ∈ g.successors middle) :
    g.Reaches first last :=
  Relation.ReflTransGen.tail h hlast

/-- Paths compose. -/
theorem trans (h : g.Reaches first middle) (hlast : g.Reaches middle last) : g.Reaches first last :=
  Relation.ReflTransGen.trans h hlast

/-- What a live node of a sound graph reaches is live. -/
theorem contains (hg : g.Sound) {source target : NodeId} (h : g.Reaches source target)
    (hsource : g.contains source) : g.contains target := by
  induction h with
  | refl => exact hsource
  | tail _ hlast _ => exact hg.contains_successor hlast

/-- A set closed under successors holds all that is reached from it. -/
theorem closed {source target : NodeId} (h : g.Reaches source target) {S : NodeId → Prop}
    (hsource : S source) (hclosed : ∀ id, S id → ∀ next ∈ g.successors id, S next) : S target := by
  induction h with
  | refl => exact hsource
  | tail _ hlast ih => exact hclosed _ ih _ hlast

end Reaches

/-! ### Breadth-first search -/

/-- Discovering nodes adds the new ones among them to both lists. -/
theorem Frontier.foldl_discover (ids : List NodeId) (seen queue : List NodeId) :
    ∃ new, ids.foldl Frontier.discover ⟨seen, queue⟩ = ⟨seen ++ new, queue ++ new⟩ ∧
      new.Nodup ∧ (∀ id ∈ new, id ∉ seen ∧ id ∈ ids) ∧ ∀ id ∈ ids, id ∈ seen ++ new := by
  induction ids generalizing seen queue with
  | nil => exact ⟨[], by simp⟩
  | cons id rest ih =>
    by_cases hseen : id ∈ seen
    · obtain ⟨new, hfold, hnodup, hnew, hall⟩ := ih seen queue
      refine ⟨new, by simpa [discover, hseen] using hfold, hnodup, ?_, ?_⟩
      · exact fun other h => ⟨(hnew other h).1, mem_cons_of_mem _ (hnew other h).2⟩
      · intro other h
        rcases mem_cons.mp h with rfl | h
        · exact mem_append_left _ hseen
        · exact hall other h
    · obtain ⟨new, hfold, hnodup, hnew, hall⟩ := ih (seen ++ [id]) (queue ++ [id])
      refine ⟨id :: new, by simpa [discover, hseen] using hfold, ?_, ?_, ?_⟩
      · exact nodup_cons.mpr ⟨fun h => (hnew id h).1 (by simp), hnodup⟩
      · intro other h
        rcases mem_cons.mp h with rfl | h
        · exact ⟨hseen, mem_cons_self⟩
        · exact ⟨fun hs => (hnew other h).1 (mem_append_left _ hs),
            mem_cons_of_mem _ (hnew other h).2⟩
      · intro other h
        rcases mem_cons.mp h with rfl | h
        · simp
        · simpa using hall other h

/-- Live nodes without repetitions are at most as many as slots. -/
theorem length_le_nextId {ids : List NodeId} (hnodup : ids.Nodup)
    (hlive : ∀ id ∈ ids, g.contains id) : ids.length ≤ g.nextId := by
  have hsubset : ids ⊆ List.range g.nextId := fun id h =>
    mem_range.mpr (lt_nextId_of_contains (hlive id h))
  simpa using (subperm_of_subset hnodup hsubset).length_le

/-- A search from `start` between two rounds, with `rounds` left. -/
structure Frontier.Searching (g : Graph α) (start : NodeId) (rounds : Nat) (frontier : Frontier) :
    Prop where
  start_seen : start ∈ frontier.seen
  nodup : frontier.seen.Nodup
  reached : ∀ id ∈ frontier.seen, g.Reaches start id
  searched : ∀ id ∈ frontier.seen, id ∉ frontier.queue → ∀ next ∈ g.successors id,
    next ∈ frontier.seen
  rounds_left : rounds + frontier.seen.length = g.nextId + frontier.queue.length

namespace Frontier.Searching

/-- A search whose queue is empty has found all that can be reached. -/
theorem complete {seen : List NodeId} (h : Searching g start rounds ⟨seen, []⟩) (id : NodeId) :
    id ∈ seen ↔ g.Reaches start id := by
  refine ⟨h.reached id, fun hreach => ?_⟩
  exact hreach.closed h.start_seen fun other hother => h.searched other hother not_mem_nil

/-- One round keeps the search going. -/
theorem next {seen rest : List NodeId} (h : Searching g start (rounds + 1) ⟨seen, id :: rest⟩)
    (hid : id ∈ seen) :
    Searching g start rounds ((g.successors id).foldl Frontier.discover ⟨seen, rest⟩) := by
  obtain ⟨new, hfold, hnodup, hnew, hall⟩ := foldl_discover (g.successors id) seen rest
  rw [hfold]
  refine ⟨mem_append_left _ h.start_seen, ?_, ?_, ?_, ?_⟩
  · refine nodup_append.mpr ⟨h.nodup, hnodup, ?_⟩
    rintro other hother _ hmem rfl
    exact (hnew other hmem).1 hother
  · intro other hother
    rcases mem_append.mp hother with hother | hother
    · exact h.reached other hother
    · exact (h.reached id hid).tail (hnew other hother).2
  · intro other hother hqueue next hnext
    simp only [mem_append, not_or] at hother hqueue
    rcases hother with hother | hother
    · by_cases hid : other = id
      · exact hall next (hid ▸ hnext)
      · exact mem_append_left _
          (h.searched other hother (by simp [hid, hqueue.1]) next hnext)
    · exact absurd hother hqueue.2
  · have hrounds := h.rounds_left
    simp only [length_append, length_cons] at hrounds ⊢
    omega

end Frontier.Searching

/-- The search ends with all that is reached, each node once. -/
theorem breadthFirstLoop_spec (hg : g.Sound) (hstart : g.contains start)
    {seen queue : List NodeId} (h : Frontier.Searching g start rounds ⟨seen, queue⟩)
    (hqueue : ∀ id ∈ queue, id ∈ seen) : (g.breadthFirstLoop rounds ⟨seen, queue⟩).Nodup ∧
      ∀ id, id ∈ g.breadthFirstLoop rounds ⟨seen, queue⟩ ↔ g.Reaches start id := by
  induction rounds generalizing seen queue with
  | zero =>
    have hlength := length_le_nextId h.nodup fun id hid => (h.reached id hid).contains hg hstart
    have hrounds : 0 + seen.length = g.nextId + queue.length := h.rounds_left
    change seen.length ≤ g.nextId at hlength
    have hempty : queue = [] := eq_nil_of_length_eq_zero (by omega)
    subst hempty
    exact ⟨h.nodup, h.complete⟩
  | succ rounds ih =>
    cases queue with
    | nil => exact ⟨h.nodup, h.complete⟩
    | cons id rest =>
      have hnext := h.next (hqueue id mem_cons_self)
      obtain ⟨new, hfold, -⟩ := Frontier.foldl_discover (g.successors id) seen rest
      rw [breadthFirstLoop, hfold]
      rw [hfold] at hnext
      refine ih hnext fun other hother => ?_
      rcases mem_append.mp hother with hother | hother
      · exact mem_append_left _ (hqueue other (mem_cons_of_mem _ hother))
      · exact mem_append_right _ hother

/-- The search before its first round. -/
theorem searching_start : Frontier.Searching g start g.nextId ⟨[start], [start]⟩ where
  start_seen := by simp
  nodup := by simp
  reached := by simpa using Reaches.refl start
  searched := by simp
  rounds_left := by simp

/-- Breadth-first search lists exactly what can be reached. -/
theorem mem_breadthFirst (hg : g.Sound) (hstart : g.contains start) :
    id ∈ g.breadthFirst start ↔ g.Reaches start id :=
  (breadthFirstLoop_spec hg hstart searching_start (by simp)).2 id

/-- Breadth-first search lists no node twice. -/
theorem nodup_breadthFirst (hg : g.Sound) (hstart : g.contains start) :
    (g.breadthFirst start).Nodup :=
  (breadthFirstLoop_spec hg hstart searching_start (by simp)).1

/-! ### Search with a stack -/

/-- The number of edges that leave nodes outside a set. -/
def edgesOutside (g : Graph α) (seen : NodeSet) : Nat :=
  ((g.nodes.filter fun id => !seen.contains id).flatMap g.edgesFrom).length

/-- All edges lie outside the empty set. -/
theorem edgesOutside_empty (g : Graph α) : g.edgesOutside ∅ = g.edges.length := by
  have hall : g.nodes.filter (fun id => !(∅ : NodeSet).contains id) = g.nodes :=
    filter_eq_self.mpr fun id _ => by simp
  rw [edgesOutside, hall, edges]

/-- A node that enters the set takes its edges along. -/
theorem edgesOutside_insert (hid : g.contains id) (hnew : id ∉ seen) :
    g.edgesOutside seen = (g.successors id).length + g.edgesOutside (seen.insert id) := by
  have hnodup : (g.nodes.filter fun other => !seen.contains other).Nodup :=
    (nodup_range.filter _).filter _
  have hmem : id ∈ g.nodes.filter fun other => !seen.contains other :=
    mem_filter.mpr ⟨mem_nodes.mpr hid, NodeSet.not_contains_iff.mpr hnew⟩
  have herase : g.nodes.filter (fun other => !(seen.insert id).contains other) =
      (g.nodes.filter fun other => !seen.contains other).erase id := by
    rw [hnodup.erase_eq_filter, filter_filter]
    refine filter_congr fun other _ => ?_
    rw [Bool.eq_iff_iff, Bool.and_eq_true, bne_iff_ne, NodeSet.not_contains_iff,
      NodeSet.not_contains_iff, NodeSet.mem_insert_iff, not_or]
  have hlength : (g.edgesFrom id).length = (g.successors id).length := by
    rw [edgesFrom, successors, length_map, length_map]
  rw [edgesOutside, edgesOutside, herase, ((perm_cons_erase hmem).flatMap_right _).length_eq,
    flatMap_cons, length_append, hlength]

/-- A search from `start` with a stack, with `rounds` left. -/
structure StackSearching (g : Graph α) (start : NodeId) (rounds : Nat) (stack : List NodeId)
    (seen : NodeSet) : Prop where
  start_met : start ∈ seen ∨ start ∈ stack
  reached : ∀ id, id ∈ seen ∨ id ∈ stack → g.Reaches start id
  followed : ∀ id ∈ seen, ∀ next ∈ g.successors id, next ∈ seen ∨ next ∈ stack
  rounds_left : stack.length + g.edgesOutside seen ≤ rounds

namespace StackSearching

variable {stack rest : List NodeId}

/-- A search whose stack is empty has found all that can be reached. -/
theorem complete (h : StackSearching g start rounds [] seen) : id ∈ seen ↔ g.Reaches start id := by
  refine ⟨fun hid => h.reached id (.inl hid), fun hreach => ?_⟩
  exact hreach.closed (S := (· ∈ seen)) (h.start_met.resolve_right not_mem_nil)
    fun other hother next hnext =>
    (h.followed other hother next hnext).resolve_right not_mem_nil

variable (h : StackSearching g start (rounds + 1) (id :: rest) seen)
include h

/-- A node that was met before is dropped. -/
theorem drop (hid : id ∈ seen) : StackSearching g start rounds rest seen := by
  have hdropped : ∀ other, other ∈ seen ∨ other ∈ id :: rest → other ∈ seen ∨ other ∈ rest := by
    rintro other (hother | hother)
    · exact .inl hother
    · rcases mem_cons.mp hother with rfl | hother
      · exact .inl hid
      · exact .inr hother
  refine ⟨hdropped start h.start_met, fun other hother => ?_, fun other hother next hnext => ?_, ?_⟩
  · exact h.reached other (hother.imp_right (mem_cons_of_mem id))
  · exact hdropped next (h.followed other hother next hnext)
  · have hrounds := h.rounds_left
    rw [length_cons] at hrounds
    omega

/-- A node that is met for the first time is followed. -/
theorem follow (hlive : g.contains id) (hnew : id ∉ seen) {fresh : List NodeId}
    (hfresh : fresh = (g.successors id).filter fun next => !(seen.insert id).contains next) :
    StackSearching g start rounds (fresh.reverse ++ rest) (seen.insert id) := by
  have hkept : ∀ other, other ∈ seen ∨ other ∈ id :: rest → other ∈ seen.insert id ∨
      other ∈ fresh.reverse ++ rest := by
    rintro other (hother | hother)
    · exact .inl (NodeSet.mem_insert_iff.mpr (.inr hother))
    · rcases mem_cons.mp hother with rfl | hother
      · exact .inl (NodeSet.mem_insert_iff.mpr (.inl rfl))
      · exact .inr (mem_append_right _ hother)
  have hid : g.Reaches start id := h.reached id (.inr mem_cons_self)
  refine ⟨hkept start h.start_met, fun other hother => ?_, fun other hother next hnext => ?_, ?_⟩
  · rcases hother with hother | hother
    · rcases NodeSet.mem_insert_iff.mp hother with rfl | hother
      · exact hid
      · exact h.reached other (.inl hother)
    · rcases mem_append.mp hother with hother | hother
      · rw [mem_reverse, hfresh] at hother
        exact hid.tail (mem_filter.mp hother).1
      · exact h.reached other (.inr (mem_cons_of_mem id hother))
  · rcases NodeSet.mem_insert_iff.mp hother with rfl | hother
    · by_cases hnext' : next ∈ seen.insert other
      · exact .inl hnext'
      · refine .inr (mem_append_left _ (mem_reverse.mpr ?_))
        rw [hfresh]
        exact mem_filter.mpr ⟨hnext, NodeSet.not_contains_iff.mpr hnext'⟩
    · exact hkept next (h.followed other hother next hnext)
  · have hrounds := h.rounds_left
    have hlength : fresh.length ≤ (g.successors id).length := hfresh ▸ length_filter_le ..
    rw [length_cons, edgesOutside_insert hlive hnew] at hrounds
    rw [length_append, length_reverse]
    omega

end StackSearching

/-- The search with a stack ends with all that can be reached. -/
theorem mem_reachableLoop (hg : g.Sound) (hstart : g.contains start) {stack : List NodeId}
    (h : StackSearching g start rounds stack seen) :
    id ∈ g.reachableLoop rounds stack seen ↔ g.Reaches start id := by
  induction rounds generalizing stack seen with
  | zero =>
    have hempty : stack = [] := eq_nil_of_length_eq_zero (by have := h.rounds_left; omega)
    subst hempty
    exact h.complete
  | succ rounds ih =>
    cases stack with
    | nil => exact h.complete
    | cons next rest =>
      have hlive : g.contains next :=
        (h.reached next (.inr mem_cons_self)).contains hg hstart
      rw [reachableLoop]
      by_cases hseen : next ∈ seen
      · rw [if_neg (by simp [hseen])]
        exact ih (h.drop hseen)
      · rw [if_pos (by simp [hlive, NodeSet.not_contains_iff.mpr hseen])]
        exact ih (h.follow hlive hseen rfl)

/-- The search finds what is reached. -/
theorem mem_reachableFrom (hg : g.Sound) (hstart : g.contains start) :
    id ∈ g.reachableFrom start ↔ g.Reaches start id := by
  refine mem_reachableLoop hg hstart ⟨?_, ?_, ?_, ?_⟩
  · exact .inr (mem_singleton.mpr rfl)
  · rintro other (hother | hother)
    · simp at hother
    · obtain rfl := mem_singleton.mp hother
      exact Reaches.refl other
  · intro other hother
    simp at hother
  · refine Nat.le_of_eq ?_
    rw [length_singleton, edgesOutside_empty, Nat.add_comm]

end Graph

end Flowgraph

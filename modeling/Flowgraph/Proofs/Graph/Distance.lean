import Flowgraph.Proofs.Graph.Reach
import Mathlib.Order.Lattice.Nat

/-!
# Distances

Breadth-first search lists what it reaches by distance (`pairwise_breadthFirst`). The discovered
nodes are sorted by distance with the queue at the end, and none is farther than one edge from any
node of the queue. A node as near as the first of the queue was therefore discovered already
(`Frontier.Levelled.mem_seen`).
-/

namespace Flowgraph.Graph

open List

variable {α : Type} {g : Graph α} {start id : NodeId} {count : Nat}

/-- A way with a number of edges leads from one node to another. -/
inductive ReachesIn (g : Graph α) (start : NodeId) : Nat → NodeId → Prop where
  | refl : ReachesIn g start 0 start
  | tail {count : Nat} {middle last : NodeId} : ReachesIn g start count middle →
      last ∈ g.successors middle → ReachesIn g start (count + 1) last

/-- Paths have a length. -/
theorem Reaches.exists_reachesIn (h : g.Reaches start id) :
    ∃ count, g.ReachesIn start count id := by
  induction h with
  | refl => exact ⟨0, .refl⟩
  | tail _ hlast ih =>
    obtain ⟨count, hcount⟩ := ih
    exact ⟨count + 1, hcount.tail hlast⟩

/-- Paths of some length are paths. -/
theorem ReachesIn.reaches (h : g.ReachesIn start count id) : g.Reaches start id := by
  induction h with
  | refl => exact .refl start
  | tail _ hlast ih => exact ih.tail hlast

/-- The number of edges on a shortest way to a reached node. -/
noncomputable def distance (g : Graph α) (start id : NodeId) : Nat :=
  sInf {count | g.ReachesIn start count id}

/-- No path is shorter than the distance. -/
theorem distance_le (h : g.ReachesIn start count id) : g.distance start id ≤ count :=
  Nat.sInf_le h

/-- Some path has the distance as its length. -/
theorem Reaches.reachesIn_distance (h : g.Reaches start id) :
    g.ReachesIn start (g.distance start id) id :=
  Nat.sInf_mem h.exists_reachesIn

/-- An edge leads at most one farther. -/
theorem Reaches.distance_successor_le (h : g.Reaches start id) {next : NodeId}
    (hnext : next ∈ g.successors id) : g.distance start next ≤ g.distance start id + 1 :=
  distance_le (h.reachesIn_distance.tail hnext)

/-- A shortest way comes through a node that is nearer. -/
theorem Reaches.exists_nearer (h : g.Reaches start id) (hne : id ≠ start) :
    ∃ middle, g.Reaches start middle ∧ id ∈ g.successors middle ∧
      g.distance start middle < g.distance start id := by
  have hway := h.reachesIn_distance
  generalize g.distance start id = count at hway
  cases hway with
  | refl => exact absurd rfl hne
  | @tail count middle _ hmiddle hlast =>
    exact ⟨middle, hmiddle.reaches, hlast, Nat.lt_succ_of_le (distance_le hmiddle)⟩

/-! ### Breadth-first search goes by distance -/

/-- What the search keeps about distances between rounds. -/
structure Frontier.Levelled (g : Graph α) (start : NodeId) (frontier : Frontier) : Prop where
  queued_last : ∃ searched, frontier.seen = searched ++ frontier.queue
  sorted : frontier.seen.Pairwise fun id other => g.distance start id ≤ g.distance start other
  span : ∀ id ∈ frontier.queue, ∀ other ∈ frontier.seen,
    g.distance start other ≤ g.distance start id + 1

namespace Frontier.Levelled

variable {rounds : Nat} {seen queue rest : List NodeId} {other : NodeId}

/-- Queued nodes have been seen. -/
theorem mem_of_queued (h : Levelled g start ⟨seen, queue⟩) (hother : other ∈ queue) :
    other ∈ seen := by
  obtain ⟨searched, hseen⟩ := h.queued_last
  change seen = searched ++ queue at hseen
  rw [hseen]
  exact mem_append_right _ hother

/-- The first node of the queue is the nearest. -/
theorem head_le (h : Levelled g start ⟨seen, id :: rest⟩) (hother : other ∈ id :: rest) :
    g.distance start id ≤ g.distance start other := by
  obtain ⟨searched, hseen⟩ := h.queued_last
  have hsorted := h.sorted
  change seen = searched ++ id :: rest at hseen
  rw [hseen] at hsorted
  rcases mem_cons.mp hother with rfl | hother
  · exact Nat.le_refl _
  · exact rel_of_pairwise_cons (pairwise_append.mp hsorted).2.1 hother

variable (h : Levelled g start ⟨seen, id :: rest⟩)
  (hsearch : Searching g start rounds ⟨seen, id :: rest⟩)
include h hsearch

/-- A node that is as near as the first of the queue was discovered. -/
theorem mem_seen (hother : g.Reaches start other)
    (hle : g.distance start other ≤ g.distance start id) : other ∈ seen := by
  -- on the distance, going back along a shortest way
  induction hdistance : g.distance start other using Nat.strongRecOn generalizing other with
  | ind count ih =>
    by_cases hstart : other = start
    · exact hstart ▸ hsearch.start_seen
    obtain ⟨middle, hmiddle, hedge, hnearer⟩ := hother.exists_nearer hstart
    have hseen : middle ∈ seen := ih _ (hdistance ▸ hnearer) hmiddle (by omega) rfl
    have hsearched : middle ∉ id :: rest := by
      intro hqueued
      have hhead := h.head_le hqueued
      omega
    exact hsearch.searched middle hseen hsearched other hedge

/-- What is discovered is one edge farther away. -/
theorem distance_of_new (hother : other ∈ g.successors id) (hnew : other ∉ seen) :
    g.distance start other = g.distance start id + 1 := by
  have hid : g.Reaches start id := hsearch.reached id (h.mem_of_queued mem_cons_self)
  have hle := hid.distance_successor_le hother
  have hfar : ¬g.distance start other ≤ g.distance start id := fun hnear =>
    hnew (h.mem_seen hsearch (hid.tail hother) hnear)
  omega

/-- One round keeps the discovered nodes in order. -/
theorem next : Levelled g start ((g.successors id).foldl Frontier.discover ⟨seen, rest⟩) := by
  obtain ⟨new, hfold, -, hnew, -⟩ := foldl_discover (g.successors id) seen rest
  have hdistance : ∀ other ∈ new, g.distance start other = g.distance start id + 1 :=
    fun other hother =>
    h.distance_of_new hsearch (hnew other hother).2 (hnew other hother).1
  have hspan : ∀ other ∈ seen, g.distance start other ≤ g.distance start id + 1 :=
    h.span id mem_cons_self
  rw [hfold]
  refine ⟨?_, ?_, ?_⟩
  · obtain ⟨searched, hseen⟩ := h.queued_last
    change seen = searched ++ id :: rest at hseen
    exact ⟨searched ++ [id], by simp [hseen]⟩
  · refine pairwise_append.mpr ⟨h.sorted, ?_, fun other hother last hlast => ?_⟩
    · refine pairwise_of_forall_mem_list fun other hother last hlast => ?_
      rw [hdistance other hother, hdistance last hlast]
    · rw [hdistance last hlast]
      exact hspan other hother
  · have hall : ∀ other ∈ seen ++ new, g.distance start other ≤ g.distance start id + 1 := by
      intro other hother
      rcases mem_append.mp hother with hother | hother
      · exact hspan other hother
      · exact Nat.le_of_eq (hdistance other hother)
    intro queued hqueued other hother
    have hhead : g.distance start id ≤ g.distance start queued := by
      rcases mem_append.mp hqueued with hqueued | hqueued
      · exact h.head_le (mem_cons_of_mem id hqueued)
      · rw [hdistance queued hqueued]
        exact Nat.le_succ _
    exact Nat.le_trans (hall other hother) (Nat.succ_le_succ hhead)

end Frontier.Levelled

/-- The search lists nodes by distance. -/
theorem pairwise_breadthFirstLoop {rounds : Nat} {seen queue : List NodeId}
    (h : Frontier.Levelled g start ⟨seen, queue⟩)
    (hsearch : Frontier.Searching g start rounds ⟨seen, queue⟩) :
    (g.breadthFirstLoop rounds ⟨seen, queue⟩).Pairwise fun id other =>
      g.distance start id ≤ g.distance start other := by
  induction rounds generalizing seen queue with
  | zero => exact h.sorted
  | succ rounds ih =>
    cases queue with
    | nil => exact h.sorted
    | cons id rest =>
      have hnext := hsearch.next (h.mem_of_queued mem_cons_self)
      exact ih (h.next hsearch) hnext

/-- Breadth-first search lists nodes by distance. -/
theorem pairwise_breadthFirst (g : Graph α) (start : NodeId) :
    (g.breadthFirst start).Pairwise fun id other => g.distance start id ≤ g.distance start
      other := by
  refine pairwise_breadthFirstLoop ⟨⟨[], rfl⟩, pairwise_singleton ..,
    fun id hid other hother => ?_⟩ searching_start
  rw [mem_singleton.mp hid, mem_singleton.mp hother]
  exact Nat.le_succ _

end Flowgraph.Graph
